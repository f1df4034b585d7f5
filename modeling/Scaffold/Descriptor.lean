import Scaffold.Node
import Scaffold.Mapping

/-! # Descriptors

A descriptor is a draft that is a tree. Its nodes are numbered in document order, the root being
number `0`; the queries below are answered from the places that the numbering gives.

* `Descriptor.ofDraft`: a descriptor, or the fault that keeps the draft from being a tree.
* `Descriptor.inputs`: the questions under their paths, in document order; two questions of one path
  are a flaw. -/

namespace Scaffold

/-- A descriptor that is a tree. -/
structure Descriptor where
  outline : Tree Label

namespace Descriptor

/-- The descriptor that a draft stands for. -/
def ofDraft (d : Draft) : Except Fault Descriptor := d.outline.map Descriptor.mk

/-- The root, with the places of all nodes. -/
def root (d : Descriptor) : Node := Node.number 0 [] [] d.outline

/-- The nodes in document order. -/
def nodes (d : Descriptor) : List Node := d.root.subtrees

/-- The node of a number. -/
def node? (d : Descriptor) (id : Nat) : Option Node := d.nodes[id]?

/-- The number of a node, which must belong to the descriptor. -/
def nodeId (n : Node) : Except Flaw Nat := (Node.located n).map Place.id

/-- The nodes above a node, from the root down. -/
def ancestors (d : Descriptor) (n : Node) : Except Flaw (List Node) :=
  (Node.located n).map fun p => p.ancestors.filterMap d.node?

/-- The node above a node; the root has none. -/
def parent (d : Descriptor) (n : Node) : Except Flaw (Option Node) :=
  (d.ancestors n).map List.getLast?

/-- The first node lies above the second; a node outside the descriptor lies above none. -/
def isAncestor (a b : Node) : Bool :=
  match Node.place? a, Node.place? b with
  | some p, some q => q.ancestors.contains p.id
  | _, _ => false

/-- The number of nodes above a node. -/
def depth (n : Node) : Except Flaw Nat := (Node.located n).map fun p => p.ancestors.length

/-- The questions of a list of nodes under their paths, after those already found. -/
def indexInputs (found : Mapping Node) : List Node → Except Flaw (Mapping Node)
  | [] => .ok found
  | n :: ns =>
    match Node.question? n with
    | none => indexInputs found ns
    | some q => do
      let scope ← Node.scope n
      let path := Path.join scope q.name
      if (found.get? path).isSome then .error (.duplicateInput q.name scope)
      else indexInputs (found ++ [(path, n)]) ns

/-- The questions under their paths, in document order. -/
def inputs (d : Descriptor) : Except Flaw (Mapping Node) := indexInputs [] d.nodes

end Descriptor

end Scaffold
