import Scaffold.Descriptor

/-! # The shape of a descriptor

`Descriptor.shape` lists the nodes by number with their variant, parent, children and depth, and the
path of the questions. -/

namespace Scaffold

/-- One node of the shape of a descriptor. -/
structure ShapeRow where
  id : Nat
  variant : String
  parent : Option Nat
  children : List Nat
  depth : Nat
  path : Option String

/-- The shape of a descriptor. -/
structure Shape where
  rows : List ShapeRow

namespace Shape

/-- The number of nodes. -/
def nodeCount (s : Shape) : Nat := s.rows.length

/-- The number of pairs of a node and a child of it. -/
def edgeCount (s : Shape) : Nat := (s.rows.flatMap ShapeRow.children).length

/-- Every node but one is the child of exactly one node. -/
def isTree (s : Shape) : Bool := s.edgeCount + 1 == s.nodeCount

end Shape

/-- The row of a node with a place. -/
def ShapeRow.ofNode (n : Node) (p : Place) : ShapeRow where
  id := p.id
  variant := Node.variant n
  parent := p.ancestors.getLast?
  children := n.children.filterMap Node.id?
  depth := p.ancestors.length
  path := (Node.question? n).map fun q => Path.join (Path.ofScope p.scope) q.name

/-- The shape of a descriptor. -/
def Descriptor.shape (d : Descriptor) : Shape where
  rows := d.nodes.filterMap fun n => (Node.place? n).map (ShapeRow.ofNode n)

end Scaffold
