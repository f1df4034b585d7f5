import Scaffold.Fault
import Scaffold.Tree

/-! # Drafts

A draft is a descriptor as it was put together: a finite store of cells whose child slots name other
cells, so that a node may be shared, may be listed twice, or may lie below itself, and whose slots
may also hold values that are no nodes.

* `Draft.outline`: the tree that a draft stands for, or the flaw of the first slot, in document
  order, that keeps it from being one: a value that is no node, a node below itself, or a node that
  has been met before. A value that is no node and cannot be written is a fault, but no flaw.
* `Draft.walk`: the labels met from the root in document order, a shared node as often as it is met.
* `Draft.unfold`: the tree seen from the root down to some depth, whatever the draft. -/

namespace Scaffold

/-- A child slot of a store with `n` cells: a cell, or a value that is no node. -/
inductive Slot (n : Nat) where
  | node (cell : Fin n)
  | alien (value : Value)

/-- A node of a store with `n` cells. -/
structure Cell (n : Nat) where
  label : Label
  slots : List (Slot n)

/-- A descriptor as it was put together. -/
structure Draft where
  size : Nat
  cell : Fin size → Cell size
  root : Slot size

namespace Draft

/-- Takes a step for each member of a list from left to right, handing on a state. -/
def thread {σ α β ε : Type} (step : σ → β → Except ε (α × σ)) (s : σ) :
    List β → Except ε (List α × σ)
  | [] => .ok ([], s)
  | b :: bs => do
    let (a, s) ← step s b
    let (as, s) ← thread step s bs
    return (a :: as, s)

/-- The name of the variant of a cell. -/
def variant (d : Draft) (i : Fin d.size) : String := (d.cell i).label.content.variant

/-- The name of the variant that owns a slot below a chain of cells; the root slot has no owner. -/
def owner (d : Draft) : List (Fin d.size) → String
  | [] => "NoneType"
  | i :: _ => d.variant i

/-- The tree below a slot. `chain` holds the cells from the slot's owner up to the root and `seen`
all cells met so far. Along a chain the cells differ, so `fuel` as large as the number of cells
outside the chain does not run out. -/
def grow (d : Draft) (fuel : Nat) (chain seen : List (Fin d.size)) :
    Slot d.size → Except Fault (Tree Label × List (Fin d.size))
  | .alien v => .error (.flawAbout v.repr? (.notANode (d.owner chain)))
  | .node i =>
    if i ∈ chain then .error (.flaw (.cycle (d.variant i)))
    else if i ∈ seen then .error (.flaw (.shared (d.variant i)))
    else match fuel with
      | 0 => .error (.flaw (.shared (d.variant i)))
      | fuel + 1 => do
        let (children, seen) ←
          thread (fun seen slot => d.grow fuel (i :: chain) seen slot) (i :: seen) (d.cell i).slots
        return (.node (d.cell i).label children, seen)

/-- The tree that a draft stands for. -/
def outline (d : Draft) : Except Fault (Tree Label) := (d.grow d.size [] [] d.root).map Prod.fst

/-- The tree of a slot, given those of all cells; a value that is no node is a leaf of its own
type. -/
def behind {α : Type} (f : Label → α) {n : Nat} (trees : Vector (Tree α) n) : Slot n → Tree α
  | .alien v => .node (f ⟨.other v.typeName, ""⟩) []
  | .node i => trees[i]

/-- The trees seen from the cells down to a depth. Those of a depth are put together from those of
the depth before, so that a cell that is met in many places is looked at once per depth. -/
def views {α : Type} (d : Draft) (f : Label → α) : Nat → Vector (Tree α) d.size
  | 0 => Vector.ofFn fun i => .node (f (d.cell i).label) []
  | depth + 1 =>
    let trees := d.views f depth
    Vector.ofFn fun i => .node (f (d.cell i).label) ((d.cell i).slots.map (behind f trees))

/-- The tree seen from the root down to a depth. -/
def unfold {α : Type} (d : Draft) (f : Label → α) (depth : Nat) : Tree α :=
  behind f (d.views f depth) d.root

/-- The labels met from a slot down to a depth, in document order. -/
def walkFrom (d : Draft) : Nat → Slot d.size → Except Fault (List Label)
  | _, .alien _ => .error (.absent "children")
  | 0, .node i => .ok [(d.cell i).label]
  | depth + 1, .node i => do
    let below ← (d.cell i).slots.mapM (d.walkFrom depth)
    return (d.cell i).label :: below.flatten

/-- The labels met from the root, in document order. -/
def walk (d : Draft) : Except Fault (List Label) := d.walkFrom d.size d.root

end Draft

end Scaffold
