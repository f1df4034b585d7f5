import Scaffold.Proofs.InOrder
import Scaffold.Proofs.Run

/-! # Where bound values come from

A step that does not fail leaves every answer of its batch bound, and whatever else is bound then and
was not before was bound by an active node: by a preset, or by a question that declares a default
(`Stage.Run.traced`). -/

namespace Scaffold

open Assembly

/-- The bindings that are offered. -/
def Batch.offered (batch : Option Batch) : List (String × Value) :=
  (batch.map Batch.bindings).getD []

/-- **What merging bindings at a scope, and scanning after it, do to the values bound.** Every
binding is bound under its path, in normal form; and a value that was not bound before is under the
path of one of the bindings, or was bound by a node that the values reach. -/
structure Setup.Traced (s : Setup) (scope : String) (bindings : List (String × Value))
    (before after : Mapping Value) : Prop where
  kept : ∀ p ∈ bindings, ∃ w v, Env.settle s.inputs.get? (Path.join scope p.1) p.2 = .ok w ∧
    after.get? (Path.join scope p.1) = some v ∧ Value.same v w = true ∧
      (w.isNaN = false → v.equal w = true)
  source : ∀ path v, after.get? path = some v → before.get? path = none →
    (∃ p ∈ bindings, Path.join scope p.1 = path) ∨
      ∃ n, Reaches after s.descriptor.root n ∧ s.Source n path v

namespace Session

variable {s t : Session}

/-- Whatever is bound accounts for itself. -/
theorem Sound.accounted (hs : s.Sound) : s.Accounted s.env.values where
  sound := hs
  supplied path v hv := by
    rw [Env.get?_values] at hv
    obtain ⟨b, hb, rfl⟩ := Option.map_eq_some_iff.mp hv
    exact ⟨b, hb, Value.same_refl _⟩
  source path b hb := by
    refine .inl ⟨b.value, ?_⟩
    rw [Env.get?_values, hb]
    rfl

section

variable {anchor : Node} (hanchor : s.current = .ok anchor) {scope : String}
  (hscope : Node.scope anchor = .ok scope) {batch : Option Batch}
  (ht : (Stage.supply s batch).result = .ok t)
include hanchor hscope ht

/-- What is offered is bound. -/
theorem bound_of_supply : ∀ p ∈ Batch.offered batch, ∃ w bound,
    Env.settle s.setup.inputs.get? (Path.join scope p.1) p.2 = .ok w ∧
      t.env.get? (Path.join scope p.1) = some bound ∧ Value.same bound.value w = true := by
  intro p hp
  cases batch with
  | none => cases hp
  | some b =>
    obtain ⟨out, hmerge, rfl⟩ := Stage.merge_of_supply hanchor hscope ht
    obtain ⟨l, hl, hcontent⟩ := Batch.mem_bindings.mp hp
    obtain ⟨path, w, bound, hbinds, hbound, hsame⟩ := Env.bound_of_merge hmerge l hl
    obtain ⟨name, given, hcontent', -, rfl, hw⟩ := hbinds
    obtain ⟨rfl, rfl⟩ := Content.binding.inj (hcontent.symm.trans hcontent')
    exact ⟨w, bound, hw, hbound, hsame⟩

/-- What is bound was bound before, or offered. -/
theorem offered_of_supply {path : String} {bound : Binding} (hb : t.env.get? path = some bound) :
    s.env.get? path = some bound ∨ ∃ p ∈ Batch.offered batch, Path.join scope p.1 = path := by
  cases batch with
  | none =>
    obtain rfl := Except.ok.inj ht
    exact .inl hb
  | some b =>
    obtain ⟨out, hmerge, rfl⟩ := Stage.merge_of_supply hanchor hscope ht
    refine (Env.source_of_merge hmerge hb).imp_right fun ⟨l, hl, hbinds⟩ => ?_
    obtain ⟨name, given, hcontent, -, hpath, -⟩ := hbinds
    exact ⟨(name, given), Batch.mem_bindings.mpr ⟨l, hl, hcontent⟩, hpath⟩

/-- What a step binds is traced if all that it binds after merging its batch is accounted for. -/
theorem traced_of_accounted {u : Session} (hu : u.Accounted t.env.values)
    (hsetup : u.setup = s.setup) {after : Mapping Value}
    (hafter : ∀ path, after.get? path = u.env.values.get? path) :
    s.setup.Traced scope (Batch.offered batch) s.env.values after where
  kept p hp := by
    obtain ⟨w, bound, hw, hbound, hsame⟩ := bound_of_supply hanchor hscope ht p hp
    have hgiven : t.env.values.get? (Path.join scope p.1) = some bound.value := by
      rw [Env.get?_values, hbound]
      rfl
    obtain ⟨bound', hbound', hsame'⟩ := hu.supplied _ _ hgiven
    have hboth := Value.same_trans hsame' hsame
    refine ⟨w, bound'.value, hw, ?_, hboth, fun hnan => Value.equal_iff.mpr ⟨?_, hboth⟩⟩
    · rw [hafter, Env.get?_values, hbound']
      rfl
    · rw [Value.isNaN_eq_of_same hboth, hnan]
  source path v hv hnew := by
    rw [hafter, Env.get?_values] at hv
    obtain ⟨bound, hbound, rfl⟩ := Option.map_eq_some_iff.mp hv
    rcases hu.source path bound hbound with ⟨v, hgiven⟩ | ⟨n, hn, hsource⟩
    · rw [Env.get?_values] at hgiven hnew
      obtain ⟨given, hgiven, -⟩ := Option.map_eq_some_iff.mp hgiven
      rcases offered_of_supply hanchor hscope ht hgiven with hold | hoffered
      · rw [hold] at hnew
        cases hnew
      · exact .inl hoffered
    · rw [hsetup] at hn hsource
      exact .inr ⟨n, hn.mono fun path v hv => (hafter path).trans hv, hsource⟩

end

end Session

namespace Stage

variable {draft : Draft} {settings : Settings} {given : Mapping Value} {stage stage' : Stage}
  {batch : Option Batch}

/-- The values bound at a stage, under their paths: those of its session, or those of its plan. -/
def bound : Stage → Mapping Value
  | waiting s _ | ready s => s.env.values
  | done p => p.context
  | _ => []

theorem opened_of_session {s : Session} (hs : (initial draft settings).session = some s) :
    opened draft settings = .ok s := by
  rw [session] at hs
  cases ho : opened draft settings <;> rw [ho] at hs <;> cases hs
  rfl

/-- The values bound at a stage are those of the session that a batch is merged into. -/
theorem Fair.bound_eq (h : stage.Fair draft settings given) {s : Session}
    (hs : stage.session = some s) : stage.bound = s.env.values := by
  cases stage with
  | initial draft' settings' =>
    obtain ⟨-, -, hnil, -⟩ := opened_ok (opened_of_session hs)
    rw [hnil]
    rfl
  | waiting | ready =>
    obtain rfl := Option.some.inj hs
    rfl
  | _ => cases hs

/-- What a step comes to has the values of a session whose bindings are accounted for. -/
theorem Comes.bound_eq (h : Comes draft settings given stage) : ∃ u : Session,
    u.Fills draft settings ∧ u.Accounted given ∧
      ∀ path, stage.bound.get? path = u.env.values.get? path := by
  cases h with
  | @scanned s r hf h hr =>
    have hfair := (Comes.scanned hf h hr).fair
    cases r <;> exact ⟨s.seek.state, hfair.1, hfair.2.1, fun _ => rfl⟩
  | @kept s n hf h hw => exact ⟨s, hf, h, fun _ => rfl⟩
  | @finished s outputs hf h ha =>
    exact ⟨s, hf, h, Plan.get?_context h.sound.env.nodup_values outputs⟩

/-- **No answer is lost, and none is invented.** Whatever steps a flow has taken, a step that does
not fail merges its batch at the node that the session stands on, which is the root in the
beginning, and the values that are bound then can be traced: every answer of the batch is among
them, and those that are new are at the path of an answer, or were bound by an active preset or by
an active question as its default. -/
theorem Run.traced (h : Run draft settings given stage)
    (hnext : (stage.next batch).result = .ok stage') (hlive : stage'.phase ≠ .error) :
    ∃ s anchor scope, stage.session = some s ∧ draft.accept = .ok s.setup.descriptor ∧
      s.current = .ok anchor ∧ (stage.phase = .initial → anchor = s.setup.descriptor.root) ∧
      Node.scope anchor = .ok scope ∧
      s.setup.Traced scope (Batch.offered batch) stage.bound stage'.bound := by
  have hfair := h.fair
  rcases step_of_next hnext with ⟨f, rfl⟩ | hstep
  · exact absurd rfl hlive
  obtain ⟨s, t, hs, hf, haccounted, ht, hcomes⟩ := hfair.supplies hstep
  obtain ⟨anchor, hmem, hanchor⟩ := haccounted.sound.current
  obtain ⟨scope, hscope⟩ := Descriptor.exists_scope hmem
  obtain ⟨u, hfu, hu, hafter⟩ :=
    (hcomes _ (fair_supply haccounted hs ht).1.sound.accounted).bound_eq
  have hbegin : stage.phase = .initial → anchor = s.setup.descriptor.root := by
    intro hphase
    cases stage with
    | initial draft' settings' =>
      obtain ⟨-, -, -, hroot⟩ := opened_ok (opened_of_session hs)
      exact Except.ok.inj (hanchor.symm.trans hroot)
    | other => exact hfair.elim
    | _ => cases hphase
  refine ⟨s, anchor, scope, hs, ?_, hanchor, hbegin, hscope, ?_⟩
  · exact hf.accept_eq.1
  · rw [hfair.bound_eq hs]
    exact Session.traced_of_accounted hanchor hscope ht hu (hf.setup_eq hfu) hafter

/-- An answer that is given at once, and a default that the scan binds. -/
theorem lateGate_traced : ∃ (stage' : Stage) (s : Session) (scope : String),
    ((initial (.lateGate true) {}).next (some (.ofPairs [("y", .str "w")] ""))).result =
      .ok stage' ∧ stage'.phase = .ready ∧
    s.setup.Traced scope [("y", .str "w")] [] stage'.bound := by
  obtain ⟨stage', hnext, hphase⟩ : ∃ stage',
      ((initial (.lateGate true) {}).next (some (.ofPairs [("y", .str "w")] ""))).result =
        .ok stage' ∧ stage'.phase = .ready := ⟨_, rfl, rfl⟩
  obtain ⟨s, anchor, scope, -, -, -, -, -, htraced⟩ :=
    (@Run.start (.lateGate true) {}).traced hnext (by simp [hphase])
  exact ⟨stage', s, scope, hnext, hphase, htraced⟩

end Stage

end Scaffold
