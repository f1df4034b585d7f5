/-! # Rose trees

A node carries a label and a list of children in document order.

* `labels`: the labels in document order, a node before its children.
* `subtrees`: the subtrees in document order (`labels_eq_map_subtrees`).
* `size`: the number of nodes, the length of either list. -/

namespace Scaffold

/-- A labelled tree with ordered children. -/
inductive Tree (α : Type) where
  | node (label : α) (children : List (Tree α))
deriving Inhabited

namespace Tree

variable {α : Type}

/-- The label of the root. -/
def label : Tree α → α
  | node a _ => a

/-- The children of the root. -/
def children : Tree α → List (Tree α)
  | node _ cs => cs

mutual
/-- The number of nodes. -/
def size : Tree α → Nat
  | node _ cs => sizes cs + 1
/-- The number of nodes of several trees. -/
def sizes : List (Tree α) → Nat
  | [] => 0
  | t :: ts => size t + sizes ts
end

mutual
/-- The labels in document order. -/
def labels : Tree α → List α
  | node a cs => a :: labelsAll cs
/-- The labels of several trees in document order. -/
def labelsAll : List (Tree α) → List α
  | [] => []
  | t :: ts => labels t ++ labelsAll ts
end

mutual
/-- The subtrees in document order. -/
def subtrees : Tree α → List (Tree α)
  | node a cs => node a cs :: subtreesAll cs
/-- The subtrees of several trees in document order. -/
def subtreesAll : List (Tree α) → List (Tree α)
  | [] => []
  | t :: ts => subtrees t ++ subtreesAll ts
end

mutual
/-- The tree with a function applied to every label. -/
def map {β : Type} (f : α → β) : Tree α → Tree β
  | node a cs => node (f a) (mapAll f cs)
/-- Several trees with a function applied to every label. -/
def mapAll {β : Type} (f : α → β) : List (Tree α) → List (Tree β)
  | [] => []
  | t :: ts => map f t :: mapAll f ts
end

/-- A property that passes from the children of every node to the node holds of every tree. -/
theorem induction {P : Tree α → Prop}
    (node : ∀ a cs, (∀ c ∈ cs, P c) → P (node a cs)) (t : Tree α) : P t :=
  Tree.rec (motive_1 := P) (motive_2 := fun cs => ∀ c ∈ cs, P c) node
    (by simp) (fun _ _ h hs => by simpa using ⟨h, hs⟩) t

theorem labelsAll_eq_flatMap (ts : List (Tree α)) : labelsAll ts = ts.flatMap labels := by
  induction ts with
  | nil => rfl
  | cons t ts ih => simp [labelsAll, ih]

theorem subtreesAll_eq_flatMap (ts : List (Tree α)) : subtreesAll ts = ts.flatMap subtrees := by
  induction ts with
  | nil => rfl
  | cons t ts ih => simp [subtreesAll, ih]

/-- The labels in document order are those of the subtrees in document order. -/
theorem labels_eq_map_subtrees (t : Tree α) : t.labels = t.subtrees.map label := by
  induction t using Tree.induction with
  | node a cs ih =>
    rw [labels, subtrees, labelsAll_eq_flatMap, subtreesAll_eq_flatMap, List.map_cons,
      List.map_flatMap, List.flatMap_def, List.flatMap_def, List.map_congr_left fun c hc => ih c hc]
    rfl

theorem length_subtreesAll {ts : List (Tree α)} (h : ∀ t ∈ ts, t.subtrees.length = t.size) :
    (subtreesAll ts).length = sizes ts := by
  induction ts with
  | nil => rfl
  | cons t ts ih =>
    have ht := h t (by simp)
    have hts := ih fun t' ht' => h t' (List.mem_cons_of_mem t ht')
    rw [subtreesAll, sizes, List.length_append, ht, hts]

theorem length_subtrees (t : Tree α) : t.subtrees.length = t.size := by
  induction t using Tree.induction with
  | node a cs ih => rw [subtrees, size, List.length_cons, length_subtreesAll ih]

theorem length_labels (t : Tree α) : t.labels.length = t.size := by
  rw [labels_eq_map_subtrees, List.length_map, length_subtrees]

end Tree

end Scaffold
