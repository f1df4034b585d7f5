import Scaffold.Value

/-! # Requests

What an output node asks for: a kind of output and fields that are checked only when the output is
converted into a directive. -/

namespace Scaffold

/-- The kinds of output that a descriptor may ask for. -/
inductive OutputKind where
  | file
  | template
  | files
  | templates
deriving DecidableEq, Inhabited

namespace OutputKind

/-- All kinds of output. -/
def all : List OutputKind := [file, template, files, templates]

/-- The name of a kind of output. -/
def name : OutputKind → String
  | file => "file"
  | template => "template"
  | files => "files"
  | templates => "templates"

/-- The kind of output that a value names. -/
def ofValue? : Value → Option OutputKind
  | .str s => all.find? fun k => k.name == s
  | _ => none

/-- The output is a single one: it may do without a source if it has a target. -/
def isSingle : OutputKind → Bool
  | file | template => true
  | files | templates => false

theorem ofValue?_name (k : OutputKind) : ofValue? (.str k.name) = some k := by
  cases k <;> rfl

end OutputKind

/-- What an output asks for, before its fields are checked. -/
structure Request where
  kind : Value
  source : Value
  target : Value
  engine : Value
  includes : Value
  excludes : Value

end Scaffold
