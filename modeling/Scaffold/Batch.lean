import Scaffold.Mapping
import Scaffold.Node

/-! # Batches

A batch is what is supplied at once: bindings by name, each with the directory it comes from. A
preset of a descriptor is a batch, and so is a mapping that a caller offers. Members that are no
bindings are kept and refused when the batch is merged.

* `Batch.ofPairs`, `Batch.ofNode`: the batch of named values, and of the members of a node.
* `Offer.toBatch`: the batch that a caller offers, if it offers one. Names are texts: a key of a
  mapping that is none and counts as given is refused. -/

namespace Scaffold

/-- A batch of bindings: the directory it belongs to and the labels of its members, which should be
bindings. -/
structure Batch where
  directory : String
  members : List Label

namespace Batch

/-- The batch of named values. -/
def ofPairs (pairs : List (String × Value)) (directory : String) : Batch where
  directory := directory
  members := pairs.map fun p => ⟨.binding p.1 p.2, directory⟩

/-- The batch of the members of a node. -/
def ofNode (n : Node) : Batch where
  directory := Node.directory n
  members := n.children.map fun c => c.label.label

/-- The named values among the members. -/
def bindings (b : Batch) : List (String × Value) :=
  b.members.filterMap fun l =>
    match l.content with
    | .binding name value => some (name, value)
    | _ => none

end Batch

/-- What a caller offers as a batch. -/
inductive Offer where
  | nothing
  | mapping (pairs : Mapping Value)
  | batch (b : Batch)
  | node (n : Node)
  | value (v : Value)

/-- The name that a key of a mapping gives. A key that does not count as given is the empty name,
which no batch can be merged with. -/
def Offer.nameOf : Value → Except Fault String
  | .str s => .ok s
  | key => if key.truthy then .error (.notAName key.typeName) else .ok ""

/-- The batch that is offered: a mapping, the members of a preset node, or none. -/
def Offer.toBatch : Offer → Except Fault (Option Batch)
  | nothing => .ok none
  | mapping pairs => .ok (some (.ofPairs pairs ""))
  | batch b => .ok (some b)
  | node n =>
    match Node.content n with
    | .preset => .ok (some (.ofNode n))
    | _ => .error (.notABatch (Node.variant n))
  | value .none => .ok none
  | value (.dict entries) => do
    let pairs ← entries.mapM fun e => return (← nameOf e.1, e.2)
    return some (.ofPairs pairs "")
  | value v => .error (.notABatch v.typeName)

end Scaffold
