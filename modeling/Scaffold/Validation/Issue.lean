/-! # Issues of a record's fields

A record built from named values reports everything that is wrong with its fields: an issue says
where it was found, as the field names and item numbers that lead there, and what is wrong. -/

namespace Scaffold.Validation

/-- One step on the way to a field. -/
inductive Step where
  | field (name : String)
  | item (index : Nat)
deriving DecidableEq

/-- What is wrong with a field. -/
inductive Problem where
  | missing
  | notString
  | emptyString
  | notOutputKind
  | notTuple
  | tooLong (most found : Nat)
  | notRecord (name : String)
  | notBoolean
  | unclearBoolean
  | notInteger
  | unreadableInteger
  | fractionalInteger
  | infiniteInteger
  | hugeInteger
  | below (least : Int)
deriving DecidableEq

namespace Problem

/-- The short name of a problem. -/
def code : Problem → String
  | missing => "missing"
  | notString => "string_type"
  | emptyString => "string_too_short"
  | notOutputKind => "enum"
  | notTuple => "tuple_type"
  | tooLong .. => "too_long"
  | notRecord _ => "model_type"
  | notBoolean => "bool_type"
  | unclearBoolean => "bool_parsing"
  | notInteger => "int_type"
  | unreadableInteger => "int_parsing"
  | fractionalInteger => "int_from_float"
  | infiniteInteger => "finite_number"
  | hugeInteger => "int_parsing_size"
  | below _ => "greater_than_equal"

/-- The sentence that reports a problem. -/
def message : Problem → String
  | missing => "Field required"
  | notString => "Input should be a valid string"
  | emptyString => "String should have at least 1 character"
  | notOutputKind => "Input should be 'file', 'template', 'files' or 'templates'"
  | notTuple => "Input should be a valid tuple"
  | tooLong most found =>
    s!"Tuple should have at most {most} items after validation, not {found}"
  | notRecord name => s!"Input should be a valid dictionary or instance of {name}"
  | notBoolean => "Input should be a valid boolean"
  | unclearBoolean => "Input should be a valid boolean, unable to interpret input"
  | notInteger => "Input should be a valid integer"
  | unreadableInteger =>
    "Input should be a valid integer, unable to parse string as an integer"
  | fractionalInteger => "Input should be a valid integer, got a number with a fractional part"
  | infiniteInteger => "Input should be a finite number"
  | hugeInteger => "Unable to parse input string as an integer, exceeded maximum size"
  | below least => s!"Input should be greater than or equal to {least}"

end Problem

/-- A problem and the way to where it was found. -/
structure Issue where
  location : List Step
  problem : Problem
deriving DecidableEq

/-- The issue as seen from one step further out. -/
def Issue.under (step : Step) (i : Issue) : Issue := { i with location := step :: i.location }

end Scaffold.Validation
