import Scaffold.Directive

/-! # Plans

A plan is what a finished flow hands over: the bound values as entries in the order of their paths,
and the directives of the active outputs in document order. -/

namespace Scaffold

/-- A bound value of a plan. -/
structure Entry where
  path : String
  value : Value

/-- What a finished flow hands over. -/
structure Plan where
  entries : List Entry
  outputs : List Directive

open Validation

namespace Entry

/-- The entry of named fields: a path of at least one character, and a value. -/
def ofFields (fields : Mapping Value) : Checked Entry :=
  ((Checked.required fields "path" readNonempty).zip
    (Checked.field fields "value" .none .ok)).map fun p => ⟨p.1, p.2⟩

/-- The entry as a dictionary of its fields. -/
def toValue (e : Entry) : Value :=
  .dict [(.str "path", .str e.path), (.str "value", e.value)]

/-- The entry that a dictionary of fields describes. -/
def ofValue (v : Value) : Checked Entry := do
  let fields ← readRecord "ContextEntry" v
  ofFields fields

/-- Two entries bind the same value at the same path. -/
def same (a b : Entry) : Bool := a.path == b.path && Value.same a.value b.value

end Entry

namespace Plan

/-- The plan of bound values and directives: the entries are put in the order of their paths, by
code points. -/
def snapshot (context : Mapping Value) (outputs : List Directive) : Checked Plan := do
  let sorted := context.mergeSort fun a b => decide (a.1 ≤ b.1)
  let entries ← sorted.mapM fun p => Entry.ofFields [("path", .str p.1), ("value", p.2)]
  return ⟨entries, outputs⟩

/-- The bound values under their paths. -/
def context (p : Plan) : Mapping Value := Mapping.ofPairs (p.entries.map fun e => (e.path, e.value))

/-- The plan as a dictionary of its fields. -/
def toValue (p : Plan) : Value :=
  .dict [
    (.str "entries", .tuple (p.entries.map Entry.toValue)),
    (.str "outputs", .tuple (p.outputs.map Directive.toValue))]

/-- The items of a tuple, each read on its own. -/
def readAll {α : Type} (read : Value → Checked α) (v : Value) : Checked (List α) := do
  let items ← readTuple v
  Checked.items read 0 items

/-- The plan that a dictionary of fields describes. -/
def ofValue (v : Value) : Checked Plan := do
  let fields ← readRecord "FlowResult" v
  let read := (Checked.field fields "entries" [] (readAll Entry.ofValue)).zip
    (Checked.field fields "outputs" [] (readAll Directive.ofValue))
  read.map fun p => ⟨p.1, p.2⟩

/-- Two lists are related member by member. -/
def pairwise {α : Type} (r : α → α → Bool) : List α → List α → Bool
  | [], [] => true
  | a :: as, b :: bs => r a b && pairwise r as bs
  | _, _ => false

/-- Two plans have the same entries and the same outputs, in order. -/
def same (p q : Plan) : Bool :=
  pairwise Entry.same p.entries q.entries && pairwise Directive.same p.outputs q.outputs

end Plan

end Scaffold
