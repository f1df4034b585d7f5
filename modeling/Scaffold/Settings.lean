import Scaffold.Text.Integer
import Scaffold.Validation.Checked

/-! # Settings

A flow may accept declared defaults without waiting, and it bounds the number of bound paths.
Settings are read from named values or from environment variables. -/

namespace Scaffold

/-- The settings of a flow. -/
structure Settings where
  acceptDefaults : Bool := false
  maxContextSize : Int := 1000
  one_le_maxContextSize : 1 ≤ maxContextSize := by decide

instance : Inhabited Settings := ⟨{}⟩

namespace Settings

theorem maxContextSize_nonneg (s : Settings) : 0 ≤ s.maxContextSize :=
  Int.le_trans (by decide) s.one_le_maxContextSize

open Validation

/-- The words that switch a setting on, in lower case; any other text switches it off. -/
def onWords : List String := ["1", "true", "yes", "on"]

/-- The least integer that is not a machine integer. -/
def machineBound : Int := Nat.pow 2 63

/-- The integer that a binary fraction stands for, if it is a machine integer with room at both
ends. -/
def readWhole (x : Binary64) : Checked Int :=
  if !x.isFinite then .fail .infiniteInteger
  else if x.toRat.den ≠ 1 then .fail .fractionalInteger
  else if -machineBound < x.toRat.num ∧ x.toRat.num < machineBound then .ok x.toRat.num
  else .fail .hugeInteger

/-- A switch that is off at zero and on at one. -/
def switchOf (i : Int) : Checked Bool :=
  if i = 0 then .ok false else if i = 1 then .ok true else .fail .unclearBoolean

/-- A switch: a word, a truth value, or the number zero or one. Of other numbers those that are
machine integers are unclear, all the rest are no switch. -/
def readSwitch : Value → Checked Bool
  | .str s => .ok (decide ((Text.trim Text.isBlank s).toLower ∈ onWords))
  | .bool b => .ok b
  | .int i => if -machineBound ≤ i ∧ i < machineBound then switchOf i else .fail .notBoolean
  | .float x =>
    match readWhole x with
    | .ok i => switchOf i
    | .error _ => .fail .notBoolean
  | _ => .fail .notBoolean

/-- An integer in any of its spellings. -/
def readInteger : Value → Checked Int
  | .int i => .ok i
  | .bool b => .ok (if b then 1 else 0)
  | .float x => readWhole x
  | .str s =>
    match Text.spelling s with
    | .integer i => .ok i
    | .oversized => .fail .hugeInteger
    | .malformed => .fail .unreadableInteger
  | _ => .fail .notInteger

/-- A bound on the number of bound paths: an integer of at least one. -/
def readLimit (v : Value) : Checked { i : Int // 1 ≤ i } := do
  let i ← readInteger v
  if h : 1 ≤ i then .ok ⟨i, h⟩ else .fail (.below 1)

/-- The settings of named fields; fields of other names are passed over. -/
def ofFields (fields : Mapping Value) : Checked Settings :=
  ((Checked.field fields "accept_defaults" false readSwitch).zip
    (Checked.field fields "max_context_size" ⟨1000, by decide⟩ readLimit)).map fun p =>
      { acceptDefaults := p.1, maxContextSize := p.2.1, one_le_maxContextSize := p.2.2 }

/-- The environment variables that are read, with the setting that each gives. -/
def environmentNames : List (String × String) :=
  [("ARCHEFLOW_ACCEPT_DEFAULTS", "accept_defaults"),
   ("ARCHEFLOW_MAX_CONTEXT_SIZE", "max_context_size")]

/-- The settings of environment variables. -/
def ofEnvironment (env : Mapping String) : Checked Settings :=
  ofFields (environmentNames.filterMap fun v => (env.get? v.1).map fun s => (v.2, .str s))

end Settings

end Scaffold
