import Scaffold.Proofs.Containment

/-! # Histories of flows

The phases of a flow follow each other in one order: it begins, waits as often as there is something
to wait for, is ready, and is done; from each phase before the last it may fail, and neither from a
failure nor from its end does it go on (`Phase.History`). A build takes one step in this order or
leaves the flow as it was (`Flow.history_after`). -/

namespace Scaffold

namespace Phase

/-- The phases of a flow that waits so many times and does not fail. -/
def course (waits : Nat) : List Phase := initial :: List.replicate waits waiting ++ [ready, done]

/-- What a flow has been through when it is in a phase. -/
inductive History : List Phase → Phase → Prop
  | initial : History [initial] initial
  | waiting (waits : Nat) : History (initial :: List.replicate (waits + 1) waiting) waiting
  | ready (waits : Nat) : History (initial :: List.replicate waits waiting ++ [ready]) ready
  | done (waits : Nat) : History (course waits) done
  | error {h : List Phase} {p : Phase} : History h p → p.isTerminal = false →
      History (h ++ [error]) error

/-- The phases that may follow a phase. -/
def followers : Phase → List Phase
  | initial | waiting => [waiting, ready, error]
  | ready => [done, error]
  | done | error => []

variable {h : List Phase} {p q : Phase}

/-- A history goes on with the phases that may follow. -/
theorem History.step (hh : History h p) (hq : q ∈ p.followers) : History (h ++ [q]) q := by
  cases hh with
  | initial =>
    simp only [followers, List.mem_cons, List.not_mem_nil, or_false] at hq
    rcases hq with rfl | rfl | rfl
    · exact .waiting 0
    · exact .ready 0
    · exact .error .initial rfl
  | waiting k =>
    simp only [followers, List.mem_cons, List.not_mem_nil, or_false] at hq
    rcases hq with rfl | rfl | rfl
    · rw [List.cons_append, ← List.replicate_succ']
      exact .waiting (k + 1)
    · exact .ready (k + 1)
    · exact .error (.waiting k) rfl
  | ready k =>
    simp only [followers, List.mem_cons, List.not_mem_nil, or_false] at hq
    rcases hq with rfl | rfl
    · rw [List.append_assoc]
      exact .done k
    · exact .error (.ready k) rfl
  | done | error => cases hq

theorem History.getLast? (hh : History h p) : h.getLast? = some p := by
  cases hh with
  | initial => rfl
  | waiting k => rw [List.replicate_succ', ← List.cons_append, List.getLast?_concat]
  | ready | error => rw [List.getLast?_concat]
  | done k =>
    rw [course, List.getLast?_append]
    rfl

/-- A flow that goes on has been through the beginning of a course. -/
theorem History.live (hh : History h p) (hp : p.isTerminal = false) :
    h ≠ [] ∧ .done ∉ h ∧ ∃ k, h <+: course k := by
  cases hh with
  | initial => exact ⟨by simp, by simp, 0, [.ready, .done], rfl⟩
  | waiting k => exact ⟨by simp, by simp [List.mem_replicate], k + 1, [.ready, .done], rfl⟩
  | ready k => exact ⟨by simp, by simp [List.mem_replicate], k, [.done], by simp [course]⟩
  | done | error => cases hp

/-- **The histories of flows** are the beginnings of courses, and the beginnings of courses that do
not get to the end, followed by a failure. -/
theorem History.shape (hh : History h p) : ∃ k, h <+: course k ∨
    ∃ h', h' ≠ [] ∧ .done ∉ h' ∧ h' <+: course k ∧ h = h' ++ [.error] := by
  cases hp : p.isTerminal with
  | false =>
    obtain ⟨-, -, k, hk⟩ := hh.live hp
    exact ⟨k, .inl hk⟩
  | true =>
    cases hh with
    | done k => exact ⟨k, .inl (List.prefix_refl _)⟩
    | @error h' q hh hq =>
      obtain ⟨hne, hdone, k, hk⟩ := hh.live hq
      exact ⟨k, .inr ⟨h', hne, hdone, hk, rfl⟩⟩
    | _ => cases hp

end Phase

/-! ### Steps -/

namespace Stage

variable {stage stage' : Stage} {s : Session} {n : Node} {draft : Draft} {settings : Settings}
  {batch : Option Batch}

/-- A scan that is over leaves a flow waiting or ready. -/
theorem phase_of_advance (h : (advance s).result = .ok stage') :
    stage'.phase ∈ [.waiting, .ready] := by
  rw [result_advance] at h
  obtain ⟨r, -, rfl⟩ := Fallible.map_ok.mp h
  cases r <;> simp [sought, phase]

theorem phase_of_settle (h : (settle s n).result = .ok stage') :
    stage'.phase ∈ [.waiting, .ready] := by
  rw [result_settle] at h
  obtain ⟨answered, -, h⟩ := Fallible.bind_ok.mp h
  split_ifs at h
  · exact phase_of_advance h
  · obtain ⟨t, -, h⟩ := Fallible.bind_ok.mp h
    exact phase_of_advance h
  · obtain rfl := Except.ok.inj h
    simp [phase]

theorem phase_of_start (h : (start draft settings batch).result = .ok stage') :
    stage'.phase ∈ [.waiting, .ready] := by
  rw [result_start] at h
  obtain ⟨s, -, h⟩ := Fallible.bind_ok.mp h
  cases batch with
  | none => exact phase_of_advance h
  | some b =>
    obtain ⟨t, -, h⟩ := Fallible.bind_ok.mp h
    obtain ⟨r, -, h⟩ := Fallible.bind_ok.mp h
    cases r with
    | some n => exact phase_of_settle h
    | none =>
      obtain rfl := Except.ok.inj h
      simp [phase]

theorem phase_of_finish (h : (finish s batch).result = .ok stage') : stage'.phase = .done := by
  rw [result_finish] at h
  obtain ⟨t, -, h⟩ := Fallible.bind_ok.mp h
  obtain ⟨outputs, -, h⟩ := Fallible.bind_ok.mp h
  obtain ⟨plan, -, rfl⟩ := Fallible.map_ok.mp h
  rfl

/-- **A step leads to a phase that may follow.** -/
theorem phase_of_next (h : (stage.next batch).result = .ok stage') :
    stage'.phase ∈ stage.phase.followers := by
  have hgoes : ∀ p ∈ [Phase.waiting, .ready], p ∈ [Phase.waiting, .ready, .error] := by simp
  cases stage with
  | initial draft settings =>
    rcases step_of_next h with ⟨f, rfl⟩ | hstep
    · simp [phase, Phase.followers]
    · exact hgoes _ (phase_of_start hstep)
  | waiting s n =>
    rcases step_of_next h with ⟨f, rfl⟩ | hstep
    · simp [phase, Phase.followers]
    · rw [step, result_resume] at hstep
      obtain ⟨t, -, hstep⟩ := Fallible.bind_ok.mp hstep
      exact hgoes _ (phase_of_settle hstep)
  | ready s =>
    rcases step_of_next h with ⟨f, rfl⟩ | hstep
    · simp [phase, Phase.followers]
    · rw [phase_of_finish hstep]
      simp [phase, Phase.followers]
  | done plan => cases h
  | failed f since => cases h
  | other variant p =>
    rw [result_next, step] at h
    split_ifs at h <;> cases h

/-- A flow over a draft has a plan if and only if it is done. -/
theorem Fair.isSome_plan?_iff {given : Mapping Value} (h : stage.Fair draft settings given) :
    stage.plan?.isSome = true ↔ stage.phase = .done := by
  cases stage with
  | other => exact h.elim
  | _ => simp [plan?, phase]

end Stage

/-! ### Builds -/

namespace Flow

variable {draft : Draft} {settings : Settings} {f : Flow} {offer : Offer}

/-- A build that fails leaves the flow as it was. -/
theorem state_of_build_error {e : Fault} (h : (f.build offer).result = .error e) :
    (f.build offer).state = f := by
  unfold build at h ⊢
  split at h
  next => rfl
  next batch hb =>
    cases hr : (f.stage.next batch).result with
    | error e => simp only [hr]
    | ok stage => simp only [hr, reduceCtorEq] at h

/-- A build that does not fail adds the phase that it returns to the history. -/
theorem history_of_build_ok {p : Phase} (h : (f.build offer).result = .ok p) :
    (f.build offer).state.history = f.history ++ [p] ∧ (f.build offer).state.phase = p ∧
      p ∈ f.phase.followers := by
  unfold build at h ⊢
  split at h
  next => cases h
  next batch hb =>
    cases hr : (f.stage.next batch).result with
    | error e => simp only [hr, reduceCtorEq] at h
    | ok stage =>
      simp only [hr, Except.ok.injEq] at h ⊢
      subst h
      exact ⟨rfl, rfl, Stage.phase_of_next hr⟩

theorem history_build (hf : Phase.History f.history f.phase) (offer : Offer) :
    Phase.History (f.build offer).state.history (f.build offer).state.phase := by
  cases hr : (f.build offer).result with
  | error e => rwa [state_of_build_error hr]
  | ok p =>
    obtain ⟨hhistory, hphase, hp⟩ := history_of_build_ok hr
    rw [hhistory, hphase]
    exact hf.step hp

/-- **Whatever is offered, the history of a flow is that of its phase.** -/
theorem history_of_after (draft : Draft) (settings : Settings) (offers : List Offer) :
    Phase.History (after draft settings offers).history (after draft settings offers).phase :=
  List.foldlRecOn offers _ (motive := fun f : Flow => Phase.History f.history f.phase) .initial
    fun _ hf offer _ => history_build hf offer

/-- A flow that has ended stays as it is. -/
theorem foldl_of_terminal {given : Mapping Value} (hrun : Stage.Run draft settings given f.stage)
    (hend : f.phase.isTerminal = true) (offers : List Offer) :
    offers.foldl (fun f offer => (f.build offer).state) f = f := by
  have hstate : ∀ offer, (f.build offer).state = f := by
    intro offer
    cases hb : offer.toBatch with
    | error e => simp only [build, hb]
    | ok batch => exact (build_of_error hb (hrun.fair.next_of_terminal hend)).2
  exact List.foldlRecOn offers _ (motive := (· = f)) rfl fun g hg offer _ => hg ▸ hstate offer

/-- **The life of a flow.** Whatever has been offered to a flow, its history is that of a flow in
its phase. A build that succeeds adds one phase, which it returns, and one that fails leaves the
flow as it was. There is a plan if and only if the flow is done. Once the flow is done or has
failed, nothing that is offered changes it, and every batch raises the error that says so. -/
theorem history_after (draft : Draft) (settings : Settings) (offers : List Offer) (offer : Offer) :
    let f := after draft settings offers
    let o := f.build offer
    (∃ k, f.history <+: Phase.course k ∨ ∃ h, h ≠ [] ∧ .done ∉ h ∧ h <+: Phase.course k ∧
      f.history = h ++ [.error]) ∧
    f.history.getLast? = some f.phase ∧
    (∀ p, o.result = .ok p → o.state.history = f.history ++ [p] ∧ o.state.phase = p) ∧
    (∀ e, o.result = .error e → o.state = f) ∧
    (f.stage.plan?.isSome = true ↔ f.phase = .done) ∧
    (f.phase.isTerminal = true → (∀ later, after draft settings (offers ++ later) = f) ∧
      ∀ batch, offer.toBatch = .ok batch →
        o.result = .error (.protocol (.terminal f.phase))) := by
  intro f o
  obtain ⟨given, hrun, -⟩ := run_after draft settings offers
  have hhistory : Phase.History f.history f.phase := history_of_after draft settings offers
  refine ⟨hhistory.shape, hhistory.getLast?, fun p hp => ?_, fun e => state_of_build_error,
    hrun.fair.isSome_plan?_iff, fun hend => ⟨fun later => ?_, fun batch hb => ?_⟩⟩
  · obtain ⟨hmore, hphase, -⟩ := history_of_build_ok hp
    exact ⟨hmore, hphase⟩
  · rw [after, List.foldl_append]
    exact foldl_of_terminal hrun hend later
  · exact (build_of_error hb (hrun.fair.next_of_terminal hend)).1

/-- A flow over a draft that is no tree fails at once and stays failed. -/
theorem loop_history : (after .loop {} [.nothing]).history = [.initial, .error] ∧
    ∀ later, after .loop {} ([.nothing] ++ later) = after .loop {} [.nothing] := by
  obtain ⟨-, -, -, -, -, hstays⟩ := history_after .loop {} [.nothing] .nothing
  exact ⟨rfl, (hstays rfl).1⟩

end Flow

end Scaffold
