import Scaffold.Outcome

/-! # Chained steps

A chain of steps succeeds when each of its steps does, and fails with the fault of the first one
that does not. The lemmas say so for `Except` and for the results of reports. -/

namespace Scaffold

/-! ### Steps that may fail -/

namespace Fallible

variable {ε ε' α β : Type}

theorem bind_ok {x : Except ε α} {f : α → Except ε β} {b : β} :
    (x >>= f) = .ok b ↔ ∃ a, x = .ok a ∧ f a = .ok b := by
  cases x <;> simp [bind, Except.bind]

theorem bind_error {x : Except ε α} {f : α → Except ε β} {e : ε} :
    (x >>= f) = .error e ↔ x = .error e ∨ ∃ a, x = .ok a ∧ f a = .error e := by
  cases x <;> simp [bind, Except.bind]

theorem map_ok {x : Except ε α} {f : α → β} {b : β} :
    x.map f = .ok b ↔ ∃ a, x = .ok a ∧ f a = b := by
  cases x <;> simp [Except.map]

theorem map_error {x : Except ε α} {f : α → β} {e : ε} : x.map f = .error e ↔ x = .error e := by
  cases x <;> simp [Except.map]

theorem mapError_ok {x : Except ε α} {f : ε → ε'} {a : α} : x.mapError f = .ok a ↔ x = .ok a := by
  cases x with
  | error d => exact ⟨nofun, nofun⟩
  | ok b =>
    have hf : (Except.ok b : Except ε α).mapError f = .ok b := rfl
    simp [hf]

theorem mapError_error {x : Except ε α} {f : ε → ε'} {e : ε'} :
    x.mapError f = .error e ↔ ∃ d, x = .error d ∧ f d = e := by
  cases x with
  | error d =>
    have hf : (Except.error d : Except ε α).mapError f = .error (f d) := rfl
    simp [hf]
  | ok b =>
    constructor
    · nofun
    · rintro ⟨d, hd, -⟩
      cases hd

end Fallible

/-! ### Reports -/

namespace Report

variable {α β : Type}

theorem result_bind (r : Report α) (f : α → Report β) :
    (r >>= f).result = r.result >>= fun a => (f a).result := by
  show (Report.bind r f).result = _
  rw [Report.bind]
  cases r.result <;> rfl

@[simp] theorem result_pure (a : α) : (pure a : Report α).result = .ok a := rfl

@[simp] theorem result_ofExcept (x : Except Fault α) : (ofExcept x).result = x := rfl

end Report

theorem Outcome.result_report {σ α : Type} (o : Outcome σ α) :
    o.report.result = o.result.map fun a => (o.state, a) := rfl

end Scaffold
