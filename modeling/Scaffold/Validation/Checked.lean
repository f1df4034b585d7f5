import Scaffold.Fault
import Scaffold.Mapping

/-! # Checking the fields of a record

A field is read from a value, or rejected. `Checked.zip` reads two fields and keeps the issues of
both; a value that cannot be read at all (`unsuitable`) ends the reading at once. -/

namespace Scaffold.Validation

/-- Why a record is rejected: the issues of its fields, or a value that cannot be iterated. -/
inductive Rejection where
  | issues (list : List Issue)
  | unsuitable

/-- The fault that a rejected record raises. -/
def Rejection.toFault : Rejection → Fault
  | issues list => .invalid list
  | unsuitable => .unsuitable

/-- Two rejections of parts of one record. -/
def Rejection.both : Rejection → Rejection → Rejection
  | issues a, issues b => issues (a ++ b)
  | _, _ => unsuitable

/-- Something read from a record. -/
abbrev Checked (α : Type) := Except Rejection α

namespace Checked

variable {α β : Type}

/-- A single problem. -/
def fail (p : Problem) : Checked α := .error (.issues [⟨[], p⟩])

/-- Both of two parts, or the issues of both. -/
def zip : Checked α → Checked β → Checked (α × β)
  | .ok a, .ok b => .ok (a, b)
  | .error r, .ok _ => .error r
  | .ok _, .error r => .error r
  | .error r, .error s => .error (r.both s)

/-- What is read below one more step. -/
def under (step : Step) : Checked α → Checked α
  | .ok a => .ok a
  | .error (.issues list) => .error (.issues (list.map (Issue.under step)))
  | .error .unsuitable => .error .unsuitable

/-- The items of a list, numbered from `i`, or the issues of all of them. -/
def items (read : Value → Checked α) (i : Nat) : List Value → Checked (List α)
  | [] => .ok []
  | v :: vs => (zip (under (.item i) (read v)) (items read (i + 1) vs)).map fun p => p.1 :: p.2

/-- The value of a named field, or a default. -/
def field (fields : Mapping Value) (name : String) (default : α) (read : Value → Checked α) :
    Checked α :=
  match fields.get? name with
  | none => .ok default
  | some v => under (.field name) (read v)

/-- The value of a field that must be there. -/
def required (fields : Mapping Value) (name : String) (read : Value → Checked α) : Checked α :=
  under (.field name) <|
    match fields.get? name with
    | none => fail .missing
    | some v => read v

/-- The outcome as a fault or a record. -/
def toExcept : Checked α → Except Fault α
  | .ok a => .ok a
  | .error r => .error r.toFault

end Checked

/-! ### Readers of single fields -/

/-- A text. -/
def readString : Value → Checked String
  | .str s => .ok s
  | _ => .fail .notString

/-- A text or nothing. -/
def readString? : Value → Checked (Option String)
  | .none => .ok none
  | v => (readString v).map some

/-- A text of at least one character. -/
def readNonempty (v : Value) : Checked String := do
  let s ← readString v
  if s.isEmpty then .fail .emptyString else .ok s

/-- The items of a tuple; lists and sets pass for tuples. -/
def readTuple : Value → Checked (List Value)
  | .tuple vs | .list vs | .set vs => .ok vs
  | _ => .fail .notTuple

/-- The fields of a record: the entries of a dictionary that are named by texts. -/
def readRecord (name : String) : Value → Checked (Mapping Value)
  | .dict entries => .ok (entries.filterMap fun e =>
      match e.1 with
      | .str s => some (s, e.2)
      | _ => none)
  | _ => .fail (.notRecord name)

end Scaffold.Validation
