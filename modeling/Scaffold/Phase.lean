/-! # Phases of a flow -/

namespace Scaffold

/-- Where a flow stands: not begun, waiting for an answer, ready to finish, finished with a result,
or ended by a fault in its data. -/
inductive Phase where
  | initial
  | waiting
  | ready
  | done
  | error
deriving DecidableEq, Inhabited

namespace Phase

/-- All phases. -/
def all : List Phase := [initial, waiting, ready, done, error]

/-- The name of a phase. -/
def name : Phase → String
  | initial => "initial"
  | waiting => "waiting"
  | ready => "ready"
  | done => "done"
  | error => "error"

/-- The phase of a name. -/
def ofName? (s : String) : Option Phase := all.find? fun p => p.name == s

/-- A flow does not leave the phase. -/
def isTerminal : Phase → Bool
  | done | error => true
  | _ => false

theorem ofName?_name (p : Phase) : ofName? p.name = some p := by
  cases p <;> rfl

end Phase

end Scaffold
