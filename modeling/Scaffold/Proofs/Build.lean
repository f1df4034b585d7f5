import Scaffold.Flow
import Scaffold.Proofs.Writable

/-! # Builds

A build takes the step of the current stage, or leaves the flow as it was. So the stages of a flow
are those of a run (`Flow.run_after`), whatever was offered. -/

namespace Scaffold.Flow

variable {draft : Draft} {settings : Settings} {f : Flow} {offer : Offer} {batch : Option Batch}

theorem build_of_ok {stage : Stage} (hb : offer.toBatch = .ok batch)
    (h : (f.stage.next batch).result = .ok stage) :
    (f.build offer).result = .ok stage.phase ∧ (f.build offer).state.stage = stage := by
  simp [build, hb, h, tell]

theorem build_of_error {e : Fault} (hb : offer.toBatch = .ok batch)
    (h : (f.stage.next batch).result = .error e) :
    (f.build offer).result = .error e ∧ (f.build offer).state = f := by
  simp [build, hb, h]

/-- The flow after what was offered, one build for each offer. -/
def after (draft : Draft) (settings : Settings) (offers : List Offer) : Flow :=
  offers.foldl (fun f offer => (f.build offer).state) (new draft settings)

/-- A build takes a step, or leaves the flow as it was. -/
theorem run_build {given : Mapping Value} (h : Stage.Run draft settings given f.stage)
    (offer : Offer) : ∃ given', Stage.Run draft settings given' (f.build offer).state.stage ∧
      (given.Writable → offer.Writable → given'.Writable) := by
  unfold build
  split
  next => exact ⟨given, h, fun hgiven _ => hgiven⟩
  next batch hb =>
    dsimp only
    split
    next => exact ⟨given, h, fun hgiven _ => hgiven⟩
    next stage hnext =>
      refine ⟨_, h.step hnext, fun hgiven ho => hgiven.putAll ?_⟩
      exact Stage.writable_keyed fun b hbatch => ho b (hb.trans (congrArg Except.ok hbatch))

/-- **Whatever is offered, a flow comes to stages of a run.** What it is given can be written if
what is offered can. -/
theorem run_after (draft : Draft) (settings : Settings) (offers : List Offer) :
    ∃ given, Stage.Run draft settings given (after draft settings offers).stage ∧
      ((∀ o ∈ offers, o.Writable) → given.Writable) :=
  List.foldlRecOn offers _
    (motive := fun f : Flow => ∃ given, Stage.Run draft settings given f.stage ∧
      ((∀ o ∈ offers, o.Writable) → given.Writable))
    ⟨[], .start, fun _ => Mapping.writable_nil⟩ fun _ ⟨_, h, hgiven⟩ o hmem =>
      have ⟨given', hrun, hwritable⟩ := run_build h o
      ⟨given', hrun, fun ho => hwritable (hgiven ho) (ho o hmem)⟩

end Scaffold.Flow
