import Scaffold.Proofs.Containment
import Scaffold.Proofs.InOrder
import Scaffold.Proofs.Prompt

/-! # Empty batches

A batch without members binds nothing (`Stage.result_supply_empty`), so a flow that has begun takes
the same step with it as without one (`Stage.result_next_empty`).

The first step is different: with a batch, even an empty one, it settles the question that it finds,
without one it leaves the question waiting. An empty batch therefore takes the first step and, if
that finds a question, the one after it (`Stage.result_start_empty`). If the second fails, then the
phase in which the flow has failed is the initial one. `Stage.accepts_empty` states both. -/

namespace Scaffold

/-- The batch without members. -/
def Batch.empty (directory : String) : Batch := ⟨directory, []⟩

namespace Stage

variable {draft : Draft} {settings : Settings} {given : Mapping Value} {stage : Stage}
  {s : Session} {n : Node}

/-- A failed stage as one that failed in a given phase; other stages as they are. -/
def failingIn (since : Phase) : Stage → Stage
  | failed f _ => failed f since
  | stage => stage

theorem failingIn_of_phase_ne {since : Phase} (h : stage.phase ≠ .error) :
    failingIn since stage = stage := by
  cases stage with
  | failed f p => exact absurd rfl h
  | _ => rfl

/-- An empty batch leaves a session as it is. -/
theorem result_supply_empty (hs : s.Sound) (directory : String) :
    (supply s (some (.empty directory))).result = .ok s := by
  obtain ⟨anchor, hanchor, hcurrent⟩ := hs.current
  obtain ⟨scope, hscope⟩ := Descriptor.exists_scope hanchor
  have hmerge : s.env.merge (.empty directory) scope s.setup.inputs.get?
      s.setup.settings.maxContextSize = .ok s.env :=
    Env.merge_bound hs.env.bounded fun l hl => by cases hl
  rw [result_supply, hcurrent]
  show (s.setup.supply s.env (.empty directory) anchor).map _ = _
  rw [Setup.supply_of_scope hscope, hmerge]
  rfl

/-- Once a flow has begun, an empty batch is as good as none. -/
theorem result_next_empty (h : stage.Fair draft settings given) (hphase : stage.phase ≠ .initial)
    (directory : String) :
    (stage.next (some (.empty directory))).result = (stage.next none).result := by
  have hsupply : ∀ s, stage.session? = some s →
      (supply s (some (.empty directory))).result = (supply s none).result := by
    intro s hs
    obtain ⟨-, haccounted⟩ := h.of_session? hs
    exact result_supply_empty haccounted.sound directory
  rw [result_next, result_next]
  cases stage with
  | initial => exact absurd rfl hphase
  | waiting s n => rw [step, step, result_resume, result_resume, hsupply s rfl]
  | ready s => rw [step, step, result_finish, result_finish, hsupply s rfl]
  | done | failed | other => rfl

theorem result_start_of_opened (hopened : opened draft settings = .ok s) (directory : String) :
    (start draft settings none).result = s.seek.result.map (sought s.seek.state) ∧
    (start draft settings (some (.empty directory))).result = s.seek.result >>= fun pending =>
      match pending with
      | some n => (settle s.seek.state n).result
      | none => .ok (ready s.seek.state) := by
  obtain ⟨-, haccounted, -, -⟩ := opened_ok hopened
  rw [result_start, result_start, hopened]
  refine ⟨result_advance s, ?_⟩
  show (supply s (some (.empty directory))).result >>= _ = _
  rw [result_supply_empty haccounted.sound]
  rfl

/-- **With an empty batch the first step settles the question that it finds.** If it finds none, it
results in what it results in without a batch. -/
theorem result_start_empty (draft : Draft) (settings : Settings) (directory : String) :
    (∀ s n, (start draft settings none).result = .ok (waiting s n) →
      (start draft settings (some (.empty directory))).result = (settle s n).result) ∧
    ((∀ s n, (start draft settings none).result ≠ .ok (waiting s n)) →
      (start draft settings (some (.empty directory))).result =
        (start draft settings none).result) := by
  cases hopened : opened draft settings with
  | error f =>
    have hstart : ∀ batch, (start draft settings batch).result = .error f := by
      intro batch
      rw [result_start, hopened]
      rfl
    rw [hstart, hstart]
    exact ⟨nofun, fun _ => rfl⟩
  | ok s =>
    obtain ⟨hnone, hempty⟩ := result_start_of_opened hopened directory
    rw [hnone, hempty]
    cases s.seek.result with
    | error f => exact ⟨nofun, fun _ => rfl⟩
    | ok pending =>
      cases pending with
      | none => exact ⟨nofun, fun _ => rfl⟩
      | some m =>
        refine ⟨fun t n h => ?_, fun h => absurd rfl (h s.seek.state m)⟩
        obtain ⟨rfl, rfl⟩ := waiting.inj (Except.ok.inj h)
        rfl

/-- A first step that settles the question found comes to what a flow that waits for the question
comes to without a batch, but for the phase of a failure. -/
theorem result_settle_of_waiting (hs : s.Sound) (hw : s.Waits n) :
    (match (settle s n).result with
      | .error (.data f) => .ok (failed f .initial)
      | r => r) = ((waiting s n).next none).result.map (failingIn .initial) := by
  obtain ⟨q, path, hq, hp, -⟩ := hw.due
  have hclean := clean_settle (w := False) hs False.elim (hw.mem_nodes hs) hq hp
  have hnext : ((waiting s n).next none).result =
      match (settle s n).result with
      | .error (.data f) => .ok (failed f .waiting)
      | r => r := result_next_of_supply rfl
  rw [hnext]
  cases hr : (settle s n).result with
  | error f =>
    rcases hclean.fault f hr with ⟨d, rfl⟩ | ⟨rfl, -⟩ <;> rfl
  | ok stage =>
    show (.ok stage : Except Fault Stage) = .ok (failingIn .initial stage)
    rw [failingIn_of_phase_ne (hclean.live stage hr)]

/-- **An empty batch accepts what there is.** On a flow that has begun it does what no batch does.
On a flow at its beginning it does what no batch does if that finds no question; if it finds one,
then an empty batch does what two steps without a batch do, except that a flow which fails at the
second of them is said to have failed in the initial phase. -/
theorem accepts_empty (draft : Draft) (settings : Settings) (directory : String) :
    (∀ given stage, Run draft settings given stage → stage.phase ≠ .initial →
      (stage.next (some (.empty directory))).result = (stage.next none).result) ∧
    ((∀ s n, ((initial draft settings).next none).result ≠ .ok (waiting s n)) →
      ((initial draft settings).next (some (.empty directory))).result =
        ((initial draft settings).next none).result) ∧
    ∀ s n, ((initial draft settings).next none).result = .ok (waiting s n) →
      ((initial draft settings).next (some (.empty directory))).result =
        ((waiting s n).next none).result.map (failingIn .initial) := by
  obtain ⟨hsettles, hsame⟩ := result_start_empty draft settings directory
  have hfirst : ((initial draft settings).next none).result =
      match (start draft settings none).result with
      | .error (.data f) => .ok (failed f .initial)
      | r => r := result_next _ none
  have hempty : ((initial draft settings).next (some (.empty directory))).result =
      match (start draft settings (some (.empty directory))).result with
      | .error (.data f) => .ok (failed f .initial)
      | r => r := result_next _ (some (.empty directory))
  refine ⟨fun given stage h hphase => result_next_empty h.fair hphase directory,
    fun hnot => ?_, fun s n hwaiting => ?_⟩
  · rw [hempty, hfirst, hsame fun s n h => hnot s n (by rw [hfirst, h])]
  · obtain ⟨-, haccounted, hw⟩ := (@Run.step draft settings _ _ _ none .start hwaiting).fair
    have hstart : (start draft settings none).result = .ok (waiting s n) := by
      rcases step_of_next hwaiting with ⟨f, hf⟩ | hstep
      · cases hf
      · exact hstep
    rw [hempty, hsettles s n hstart, result_settle_of_waiting haccounted.sound hw]

/-- With a default for the first question, an empty batch accepts it, at the beginning and when the
question is waited for. A draft that is no tree is refused with and without an empty batch. -/
theorem earlyGate_accepts_empty : ∃ s n,
    ((initial (.earlyGate true) {}).next none).result = .ok (waiting s n) ∧
    ((initial (.earlyGate true) {}).next (some (.empty ""))).result =
      ((waiting s n).next none).result.map (failingIn .initial) ∧
    ((waiting s n).next (some (.empty ""))).result = ((waiting s n).next none).result ∧
    (∃ u m, ((waiting s n).next none).result = .ok (waiting u m) ∧ Node.path m = .ok "y") ∧
    ((initial .loop {}).next (some (.empty ""))).result =
      ((initial .loop {}).next none).result := by
  obtain ⟨s, n, hfirst, hsecond⟩ : ∃ s n,
      ((initial (.earlyGate true) {}).next none).result = .ok (waiting s n) ∧
      ∃ u m, ((waiting s n).next none).result = .ok (waiting u m) ∧ Node.path m = .ok "y" :=
    ⟨_, _, rfl, _, _, rfl, rfl⟩
  have hrun := @Run.step (.earlyGate true) {} _ _ _ none .start hfirst
  obtain ⟨hbegun, -, hbegins⟩ := accepts_empty (.earlyGate true) {} ""
  obtain ⟨-, hrefused, -⟩ := accepts_empty .loop {} ""
  exact ⟨s, n, hfirst, hbegins s n hfirst, hbegun _ _ hrun Phase.noConfusion, hsecond,
    hrefused fun _ _ h => by cases h⟩

end Stage

end Scaffold
