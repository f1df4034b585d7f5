import Scaffold.Draft
import Scaffold.Path

/-! # Nodes

A node is a subtree of a descriptor whose labels carry their places: the number in document order,
the numbers of the ancestors from the root down, and the names of the enclosing questions. A node of
another tree has no place; asking for its path is a flaw.

* `Node.number`: gives every node of an outline its place.
* `Node.path`: the context path of a question. -/

namespace Scaffold

/-- The place of a node in its descriptor. -/
structure Place where
  /-- The number in document order. -/
  id : Nat
  /-- The numbers of the nodes above, from the root down. -/
  ancestors : List Nat
  /-- The names of the enclosing questions, from the root down. -/
  scope : List String
deriving DecidableEq

/-- A label and its place in the descriptor, if it has one. -/
structure Site where
  label : Label
  place : Option Place
deriving Inhabited

/-- A label without a place. -/
def Site.stray (l : Label) : Site := ⟨l, none⟩

/-- A node with everything below it. -/
abbrev Node := Tree Site

namespace Node

/-- What the node says. -/
def content (n : Node) : Content := n.label.label.content

/-- The directory that the node was declared in. -/
def directory (n : Node) : String := n.label.label.directory

/-- The name of the variant of the node. -/
def variant (n : Node) : String := (content n).variant

/-- The place of the node, if it has one. -/
def place? (n : Node) : Option Place := n.label.place

/-- The number of the node, if it has one. -/
def id? (n : Node) : Option Nat := (place? n).map Place.id

/-- The question that the node asks. -/
def question? (n : Node) : Option Question := (content n).question?

/-- The scope of the nodes below a label. -/
def innerScope (scope : List String) (l : Label) : List String :=
  match l.content.question? with
  | some q => scope ++ [q.name]
  | none => scope

mutual
/-- Gives places to an outline whose root is number `id`, below `above` and inside `scope`. -/
def number (id : Nat) (above : List Nat) (scope : List String) : Tree Label → Node
  | .node l cs =>
    .node ⟨l, some ⟨id, above, scope⟩⟩ (numberAll (id + 1) (above ++ [id]) (innerScope scope l) cs)
/-- Gives places to several outlines, the first one's root being number `id`. -/
def numberAll (id : Nat) (above : List Nat) (scope : List String) : List (Tree Label) → List Node
  | [] => []
  | t :: ts => number id above scope t :: numberAll (id + t.size) above scope ts
end

/-- The root of a draft that belongs to no descriptor, with everything below it. Where the draft is
no tree it is seen down to the number of its cells, which no chain of different cells exceeds. -/
def outsider (d : Draft) : Node :=
  match d.outline with
  | .ok t => t.map Site.stray
  | .error _ => d.unfold Site.stray d.size

/-- The place of a node, which must have one. -/
def located (n : Node) : Except Flaw Place :=
  match place? n with
  | some p => .ok p
  | none => .error (.outside (variant n))

/-- The dotted names of the questions that enclose a node. -/
def scope (n : Node) : Except Flaw String := (located n).map fun p => Path.ofScope p.scope

/-- The context path of a node that has a name. -/
def path (n : Node) : Except Fault String :=
  match scope n, (content n).name? with
  | .error f, _ => .error (.flaw f)
  | .ok _, none => .error (.absent "name")
  | .ok s, some name => .ok (Path.join s name)

/-- The options among the children of a node, with their values. -/
def options (n : Node) : List (Value × Node) :=
  n.children.filterMap fun c => (content c).option?.map fun v => (v, c)

/-- The values of the options among the children of a node. -/
def choices (n : Node) : List Value := (options n).map Prod.fst

end Node

end Scaffold
