import Scaffold.Event

/-! # Outcomes

* `Report`: a result, or a fault, with what was reported on the way. Reports are chained with `>>=`;
  what was reported before a fault stays.
* `Outcome`: what an operation leaves behind when it works on a state: the state, whether or not it
  failed, along with the report. -/

namespace Scaffold

/-- A result and what was reported on the way to it. -/
structure Report (α : Type) where
  events : List Event
  result : Except Fault α

namespace Report

variable {α β : Type}

/-- A result with nothing to report. -/
def ofExcept (r : Except Fault α) : Report α := ⟨[], r⟩

/-- Goes on with a result; a fault ends the report. -/
def bind (r : Report α) (f : α → Report β) : Report β :=
  match r.result with
  | .ok a => ⟨r.events ++ (f a).events, (f a).result⟩
  | .error e => ⟨r.events, .error e⟩

instance : Monad Report where
  pure a := ⟨[], .ok a⟩
  bind := bind

end Report

/-- What an operation on a state leaves behind. -/
structure Outcome (σ α : Type) where
  state : σ
  events : List Event
  result : Except Fault α

namespace Outcome

variable {σ α : Type}

/-- The report of an outcome, with the state as part of the result. -/
def report (o : Outcome σ α) : Report (σ × α) := ⟨o.events, o.result.map fun a => (o.state, a)⟩

end Outcome

end Scaffold
