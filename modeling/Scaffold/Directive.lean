import Scaffold.Validation.Checked
import Scaffold.Location
import Scaffold.Value.Equality

/-! # Directives

A directive is an output with checked fields, ready to be carried out. Its patterns may be given as
a text, a list, a set or a tuple, and its model as a dictionary or as pairs. -/

namespace Scaffold

/-- A unit of work for whoever generates the files. -/
structure Directive where
  kind : OutputKind
  source : Option String
  target : Option String
  directory : String
  engine : Option String
  includes : List String
  excludes : List String
  /-- Named values for a template, in order; a name may be repeated. -/
  model : List (String × Value)

namespace Directive

open Validation

/-- The kind of output. -/
def readKind (v : Value) : Checked OutputKind :=
  match OutputKind.ofValue? v with
  | some k => .ok k
  | none => .fail .notOutputKind

/-- Patterns: none, one text, or several. -/
def readPatterns : Value → Checked (List String)
  | .none => .ok []
  | .str s => .ok [s]
  | v => do
    let items ← readTuple v
    Checked.items readString 0 items

/-- A part of a pair that has to be there. -/
def readPart {α : Type} (i : Nat) (read : Value → Checked α) (part : Option Value) : Checked α :=
  .under (.item i) (match part with
    | some v => read v
    | none => .fail .missing)

/-- A named value: a tuple, list or set of a text and a value. -/
def readPair (v : Value) : Checked (String × Value) := do
  let parts ← readTuple v
  if parts.length > 2 then .fail (.tooLong 2 parts.length)
  else (readPart 0 readString parts[0]?).zip (readPart 1 .ok parts[1]?)

/-- The value as a tuple of what it offers one by one. -/
def asTuple (v : Value) : Checked Value :=
  match v.items? with
  | some items => .ok (.tuple items)
  | none => .error .unsuitable

/-- A model: nothing, the entries of a dictionary, or pairs. A member of a list passes for a pair if
its parts can be had one by one; a member of a tuple or set has to be a tuple, list or set. -/
def readModel : Value → Checked (List (String × Value))
  | .none => .ok []
  | .dict entries => Checked.items readPair 0 (entries.map fun e => .tuple [e.1, e.2])
  | .list vs => do
    let pairs ← vs.mapM asTuple
    Checked.items readPair 0 pairs
  | v => do
    let items ← readTuple v
    Checked.items readPair 0 items

/-- The directive of named fields; fields of other names are passed over. -/
def ofFields (fields : Mapping Value) : Checked Directive :=
  let read :=
    (Checked.field fields "kind" .file readKind).zip <|
    (Checked.field fields "source" none readString?).zip <|
    (Checked.field fields "target" none readString?).zip <|
    (Checked.field fields "directory" "" readString).zip <|
    (Checked.field fields "engine" none readString?).zip <|
    (Checked.field fields "includes" [] readPatterns).zip <|
    (Checked.field fields "excludes" [] readPatterns).zip <|
    Checked.field fields "model" [] readModel
  read.map fun (kind, source, target, directory, engine, includes, excludes, model) =>
    { kind, source, target, directory, engine, includes, excludes, model }

/-- The location of the source as seen from where its output was declared. -/
def sourcePath (d : Directive) : Option String := d.source.map (Location.resolve d.directory)

/-- The model as a mapping. -/
def templateModel (d : Directive) : Mapping Value := Mapping.ofPairs d.model

/-- A text or nothing as a value. -/
def optionalText : Option String → Value
  | some s => .str s
  | none => .none

/-- Texts as a tuple. -/
def textTuple (ss : List String) : Value := .tuple (ss.map .str)

/-- The directive as a dictionary of its fields. -/
def toValue (d : Directive) : Value :=
  .dict [
    (.str "kind", .str d.kind.name),
    (.str "source", optionalText d.source),
    (.str "target", optionalText d.target),
    (.str "directory", .str d.directory),
    (.str "engine", optionalText d.engine),
    (.str "includes", textTuple d.includes),
    (.str "excludes", textTuple d.excludes),
    (.str "model", .tuple (d.model.map fun p => .tuple [.str p.1, p.2]))]

/-- The directive that a dictionary of fields describes. -/
def ofValue (v : Value) : Checked Directive := do
  let fields ← readRecord "OutputDirective" v
  ofFields fields

/-- Two directives have the same fields. -/
def same (a b : Directive) : Bool :=
  a.kind == b.kind && a.source == b.source && a.target == b.target && a.directory == b.directory
    && a.engine == b.engine && a.includes == b.includes && a.excludes == b.excludes
    && Value.sameInOrder (a.model.map fun p => .tuple [.str p.1, p.2])
      (b.model.map fun p => .tuple [.str p.1, p.2])

end Directive

end Scaffold
