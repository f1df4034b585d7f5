import Scaffold.Descriptor

/-! # Places and document order

`Node.number` gives every node below it a place (`exists_number`): a child lies one level deeper, in
the scope that its parent opens (`exists_number_of_mem_children`). The numbers run through the nodes
in document order (`ids_number`), so that the node of a number is the one that has it
(`Descriptor.node?_eq_some`) and earlier nodes of a descriptor precede later ones
(`Descriptor.pairwise_nodes`). The ancestors of a child are those of its parent and the parent
(`Descriptor.ancestors_of_mem_children`). -/

namespace Scaffold.Node

/-- The first node comes before the second in document order. -/
def Precedes (m n : Node) : Prop := ∃ i j, id? m = some i ∧ id? n = some j ∧ i < j

theorem Precedes.trans {l m n : Node} (h : Precedes l m) (h' : Precedes m n) : Precedes l n := by
  obtain ⟨i, j, hi, hj, hij⟩ := h
  obtain ⟨j', k, hj', hk, hjk⟩ := h'
  obtain rfl : j = j' := Option.some.inj (hj.symm.trans hj')
  exact ⟨i, k, hi, hk, Nat.lt_trans hij hjk⟩

theorem not_precedes_self (n : Node) : ¬ Precedes n n := by
  rintro ⟨i, j, hi, hj, hij⟩
  obtain rfl : i = j := Option.some.inj (hi.symm.trans hj)
  exact Nat.lt_irrefl _ hij

/-! ### Numbering -/

theorem place?_number (id : Nat) (above : List Nat) (scope : List String) (t : Tree Label) :
    place? (number id above scope t) = some ⟨id, above, scope⟩ := by
  cases t; rfl

theorem id?_of_place? {n : Node} {p : Place} (h : place? n = some p) : id? n = some p.id := by
  rw [id?, h]
  rfl

theorem children_number (id : Nat) (above : List Nat) (scope : List String) (t : Tree Label) :
    (number id above scope t).children =
      numberAll (id + 1) (above ++ [id]) (innerScope scope t.label) t.children := by
  cases t; rfl

theorem mem_numberAll {above : List Nat} {scope : List String} {n : Node} :
    ∀ {ts : List (Tree Label)} {id : Nat}, n ∈ numberAll id above scope ts →
      ∃ id' t, t ∈ ts ∧ n = number id' above scope t
  | [], _, h => by simp [numberAll] at h
  | t :: ts, id, h => by
    rcases List.mem_cons.mp h with rfl | h
    · exact ⟨id, t, by simp, rfl⟩
    · obtain ⟨id', t', ht', rfl⟩ := mem_numberAll h
      exact ⟨id', t', by simp [ht'], rfl⟩

/-- A child of a numbered node lies below it, in the scope that it opens. -/
theorem exists_number_of_mem_children {id : Nat} {above : List Nat} {scope : List String}
    {t : Tree Label} {c : Node} (h : c ∈ (number id above scope t).children) :
    ∃ id' t', t' ∈ t.children ∧ c = number id' (above ++ [id]) (innerScope scope t.label) t' := by
  rw [children_number] at h
  exact mem_numberAll h

theorem exists_number {n : Node} (t : Tree Label) : ∀ {id : Nat} {above : List Nat}
    {scope : List String}, n ∈ (number id above scope t).subtrees →
      ∃ id' above' scope' t', t' ∈ t.subtrees ∧ n = number id' above' scope' t' := by
  induction t using Tree.induction with
  | node l cs ih =>
    intro id above scope h
    rw [number, Tree.subtrees, Tree.subtreesAll_eq_flatMap] at h
    rw [Tree.subtrees, Tree.subtreesAll_eq_flatMap]
    rcases List.mem_cons.mp h with rfl | h
    · exact ⟨id, above, scope, .node l cs, List.mem_cons_self, rfl⟩
    · obtain ⟨c, hc, hn⟩ := List.mem_flatMap.mp h
      obtain ⟨id', t', ht', rfl⟩ := mem_numberAll hc
      obtain ⟨id', above', scope', t'', ht'', rfl⟩ := ih t' ht' hn
      exact ⟨id', above', scope', t'',
        List.mem_cons_of_mem _ (List.mem_flatMap.mpr ⟨t', ht', ht''⟩), rfl⟩

/-- The labels of the nodes are those of the tree that was numbered. -/
theorem label_mem_of_mem_number {n : Node} {t : Tree Label} {id : Nat} {above : List Nat}
    {scope : List String} (h : n ∈ (number id above scope t).subtrees) :
    n.label.label ∈ t.labels := by
  obtain ⟨id', above', scope', t', ht', rfl⟩ := exists_number t h
  rw [Tree.labels_eq_map_subtrees]
  refine List.mem_map.mpr ⟨t', ht', ?_⟩
  cases t'
  rfl

theorem ids_numberAll {above : List Nat} {scope : List String} : ∀ {ts : List (Tree Label)}
    {id : Nat}, (∀ t ∈ ts, ∀ id above scope, (number id above scope t).subtrees.map id? =
      (List.range' id t.size).map some) →
    (Tree.subtreesAll (numberAll id above scope ts)).map id? =
      (List.range' id (Tree.sizes ts)).map some
  | [], _, _ => rfl
  | t :: ts, id, h => by
    rw [numberAll, Tree.subtreesAll, List.map_append, h t (by simp),
      ids_numberAll fun t' ht' => h t' (by simp [ht']), Tree.sizes, ← List.map_append,
      List.range'_append_1]

/-- The numbers run through the nodes in document order. -/
theorem ids_number (t : Tree Label) : ∀ (id : Nat) (above : List Nat) (scope : List String),
    (number id above scope t).subtrees.map id? = (List.range' id t.size).map some := by
  induction t using Tree.induction with
  | node l cs ih =>
    intro id above scope
    rw [number, Tree.subtrees, List.map_cons, ids_numberAll ih, Tree.size, List.range'_succ,
      List.map_cons]
    rfl

theorem pairwise_number (id : Nat) (above : List Nat) (scope : List String) (t : Tree Label) :
    (number id above scope t).subtrees.Pairwise Precedes := by
  have h : ((number id above scope t).subtrees.map id?).Pairwise
      fun x y => ∃ i j, x = some i ∧ y = some j ∧ i < j := by
    rw [ids_number, List.pairwise_map]
    exact (List.pairwise_lt_range' 1).imp fun {i j} hij => ⟨i, j, rfl, rfl, hij⟩
  exact (List.pairwise_map (f := id?)).mp h

end Scaffold.Node

namespace Scaffold.Tree

variable {α : Type}

/-- The first node of several trees, and the others. -/
theorem flatMap_subtrees_cons (t : Tree α) (ts : List (Tree α)) :
    (t :: ts).flatMap subtrees = t :: (subtreesAll t.children ++ ts.flatMap subtrees) := by
  rw [List.flatMap_cons]
  cases t
  rfl

theorem mem_subtrees_self (t : Tree α) : t ∈ t.subtrees := by
  cases t; simp [subtrees]

/-- What lies below a node of a tree lies in the tree. -/
theorem mem_subtrees_trans {m n : Tree α} (t : Tree α) (h : n ∈ t.subtrees)
    (hm : m ∈ n.subtrees) : m ∈ t.subtrees := by
  induction t using Tree.induction with
  | node a cs ih =>
    rw [subtrees, subtreesAll_eq_flatMap] at h ⊢
    rcases List.mem_cons.mp h with rfl | h
    · rwa [subtrees, subtreesAll_eq_flatMap] at hm
    · obtain ⟨c, hc, hn⟩ := List.mem_flatMap.mp h
      exact List.mem_cons_of_mem _ (List.mem_flatMap.mpr ⟨c, hc, ih c hc hn⟩)

theorem mem_subtrees_of_mem_children {c n t : Tree α} (h : n ∈ t.subtrees)
    (hc : c ∈ n.children) : c ∈ t.subtrees := by
  refine mem_subtrees_trans t h ?_
  obtain ⟨a, cs⟩ := n
  rw [subtrees, subtreesAll_eq_flatMap]
  exact List.mem_cons_of_mem _ (List.mem_flatMap.mpr ⟨c, hc, mem_subtrees_self c⟩)

end Scaffold.Tree

namespace Scaffold.Descriptor

open Node (Precedes)

variable {d : Descriptor}

theorem root_mem_nodes (d : Descriptor) : d.root ∈ d.nodes := Tree.mem_subtrees_self _

theorem mem_nodes_of_mem_children {c n : Node} (h : n ∈ d.nodes) (hc : c ∈ n.children) :
    c ∈ d.nodes := Tree.mem_subtrees_of_mem_children h hc

/-- Every node of a descriptor has a place. -/
theorem exists_place {n : Node} (h : n ∈ d.nodes) : ∃ p, Node.place? n = some p := by
  obtain ⟨id, above, scope, t, -, rfl⟩ := Node.exists_number _ h
  exact ⟨_, Node.place?_number id above scope t⟩

/-! ### Numbers -/

theorem ids_nodes (d : Descriptor) :
    d.nodes.map Node.id? = (List.range d.nodes.length).map some := by
  have hids := Node.ids_number d.outline 0 [] []
  have hlength := congrArg List.length hids
  rw [List.length_map, List.length_map, List.length_range'] at hlength
  rwa [← hlength, ← List.range_eq_range'] at hids

theorem id?_getElem {j : Nat} (hj : j < d.nodes.length) : Node.id? d.nodes[j] = some j := by
  have hids := List.getElem_of_eq (ids_nodes d) (i := j) (by rwa [List.length_map])
  rwa [List.getElem_map, List.getElem_map, List.getElem_range] at hids

/-- The numbers of the nodes are their positions in document order. -/
theorem node?_eq_some {n : Node} {a : Nat} :
    d.node? a = some n ↔ n ∈ d.nodes ∧ Node.id? n = some a := by
  rw [node?, List.getElem?_eq_some_iff]
  constructor
  · rintro ⟨ha, rfl⟩
    exact ⟨List.getElem_mem ha, id?_getElem ha⟩
  · rintro ⟨hn, hid⟩
    obtain ⟨j, hj, rfl⟩ := List.getElem_of_mem hn
    obtain rfl : j = a := Option.some.inj ((id?_getElem hj).symm.trans hid)
    exact ⟨hj, rfl⟩

theorem node?_of_place? {n : Node} {p : Place} (h : n ∈ d.nodes) (hp : Node.place? n = some p) :
    d.node? p.id = some n := node?_eq_some.mpr ⟨h, Node.id?_of_place? hp⟩

theorem node?_root (d : Descriptor) : d.node? 0 = some d.root :=
  node?_of_place? (root_mem_nodes d) (Node.place?_number ..)

theorem exists_node? {n : Node} (h : n ∈ d.nodes) : ∃ a, d.node? a = some n := by
  obtain ⟨p, hp⟩ := exists_place h
  exact ⟨p.id, node?_of_place? h hp⟩

theorem node?_inj {n : Node} {a b : Nat} (ha : d.node? a = some n) (hb : d.node? b = some n) :
    a = b :=
  Option.some.inj ((node?_eq_some.mp ha).2.symm.trans (node?_eq_some.mp hb).2)

theorem lt_of_precedes {m n : Node} {a b : Nat} (ha : d.node? a = some m) (hb : d.node? b = some n)
    (h : Precedes m n) : a < b := by
  obtain ⟨i, j, hi, hj, hij⟩ := h
  obtain rfl := Option.some.inj (hi.symm.trans (node?_eq_some.mp ha).2)
  obtain rfl := Option.some.inj (hj.symm.trans (node?_eq_some.mp hb).2)
  exact hij

/-! ### Document order -/

/-- The nodes of a descriptor stand in document order. -/
theorem pairwise_nodes (d : Descriptor) : d.nodes.Pairwise Precedes := Node.pairwise_number ..

theorem pairwise_subtrees {n : Node} (h : n ∈ d.nodes) : n.subtrees.Pairwise Precedes := by
  obtain ⟨id, above, scope, t, -, rfl⟩ := Node.exists_number _ h
  exact Node.pairwise_number ..

/-- A node precedes what lies below it. -/
theorem precedes_of_mem_subtrees {m n : Node} (hm : m ∈ d.nodes) (h : n ∈ m.subtrees)
    (hne : n ≠ m) : Precedes m n := by
  have hp := pairwise_subtrees hm
  obtain ⟨site, cs⟩ := m
  rw [Tree.subtrees] at h hp
  exact (List.pairwise_cons.mp hp).1 n ((List.mem_cons.mp h).resolve_left hne)

theorem precedes_of_mem_children {c n : Node} (h : n ∈ d.nodes) (hc : c ∈ n.children) :
    Precedes n c := by
  have hp := pairwise_subtrees h
  obtain ⟨site, cs⟩ := n
  rw [Tree.subtrees, Tree.subtreesAll_eq_flatMap] at hp
  exact (List.pairwise_cons.mp hp).1 c (List.mem_flatMap.mpr ⟨c, hc, Tree.mem_subtrees_self c⟩)

/-- No two nodes of a descriptor have one number. -/
theorem eq_of_id?_eq {m n : Node} (hm : m ∈ d.nodes) (hn : n ∈ d.nodes)
    (h : Node.id? m = Node.id? n) : m = n := by
  obtain ⟨a, ha⟩ := exists_node? hm
  have hid := (node?_eq_some.mp ha).2
  exact Option.some.inj (ha.symm.trans (node?_eq_some.mpr ⟨hn, h.symm.trans hid⟩))

/-- A node that is not preceded by another is this one or comes before it. -/
theorem eq_or_precedes {m n : Node} (hm : m ∈ d.nodes) (hn : n ∈ d.nodes) (h : ¬ Precedes m n) :
    n = m ∨ Precedes n m := by
  obtain ⟨p, hp⟩ := exists_place hm
  obtain ⟨q, hq⟩ := exists_place hn
  have him := Node.id?_of_place? hp
  have hin := Node.id?_of_place? hq
  rcases Nat.lt_trichotomy p.id q.id with hlt | heq | hlt
  · exact absurd ⟨_, _, him, hin, hlt⟩ h
  · exact .inl (eq_of_id?_eq hn hm (by rw [him, hin, heq]))
  · exact .inr ⟨_, _, hin, him, hlt⟩

/-- What passes to a node from the nodes before it holds of all nodes. -/
theorem order_induction {P : Node → Prop}
    (h : ∀ n ∈ d.nodes, (∀ m ∈ d.nodes, Precedes m n → P m) → P n) : ∀ n ∈ d.nodes, P n := by
  have hid : ∀ k, ∀ n ∈ d.nodes, Node.id? n = some k → P n := by
    intro k
    induction k using Nat.strongRecOn with
    | ind k ih =>
      intro n hn hk
      refine h n hn fun m hm hprec => ?_
      obtain ⟨i, j, hi, hj, hij⟩ := hprec
      obtain rfl : k = j := Option.some.inj (hk.symm.trans hj)
      exact ih i hij m hm hi
  intro n hn
  obtain ⟨p, hp⟩ := exists_place hn
  exact hid p.id n hn (Node.id?_of_place? hp)

/-! ### Ancestors -/

theorem ancestors_root (d : Descriptor) : d.ancestors d.root = .ok [] := by
  rw [ancestors, root, Node.located, Node.place?_number]
  rfl

theorem exists_ancestors {n : Node} (h : n ∈ d.nodes) : ∃ above, d.ancestors n = .ok above := by
  obtain ⟨p, hp⟩ := exists_place h
  rw [ancestors, Node.located, hp]
  exact ⟨_, rfl⟩

/-- The ancestors of a child are those of its parent and the parent. -/
theorem ancestors_of_mem_children {c n : Node} (h : n ∈ d.nodes) (hc : c ∈ n.children)
    {above : List Node} (ha : d.ancestors n = .ok above) :
    d.ancestors c = .ok (above ++ [n]) := by
  obtain ⟨id, ids, scope, t, -, rfl⟩ := Node.exists_number _ h
  obtain ⟨id', t', -, rfl⟩ := Node.exists_number_of_mem_children hc
  have hn := node?_of_place? h (Node.place?_number id ids scope t)
  rw [ancestors, Node.located, Node.place?_number] at ha ⊢
  obtain rfl := Except.ok.inj ha
  simp [Except.map, hn]

theorem parent_root (d : Descriptor) : d.parent d.root = .ok none := by
  rw [parent, ancestors_root]
  rfl

theorem parent_of_mem_children {c n : Node} (h : n ∈ d.nodes) (hc : c ∈ n.children) :
    d.parent c = .ok (some n) := by
  obtain ⟨above, ha⟩ := exists_ancestors h
  rw [parent, ancestors_of_mem_children h hc ha]
  exact congrArg Except.ok (List.getLast?_concat ..)

theorem mem_nodes_of_mem_ancestors {n : Node} {above : List Node}
    (h : d.ancestors n = .ok above) : ∀ a ∈ above, a ∈ d.nodes := by
  rw [ancestors] at h
  cases hp : Node.located n with
  | error f => rw [hp] at h; cases h
  | ok p =>
    rw [hp] at h
    obtain rfl := Except.ok.inj h
    intro a ha
    obtain ⟨i, -, hi⟩ := List.mem_filterMap.mp ha
    exact List.mem_of_getElem? hi

/-- A child lies below its parent, in the scope that the parent opens. -/
theorem place?_of_mem_children {c n : Node} (h : n ∈ d.nodes) (hc : c ∈ n.children) {p : Place}
    (hp : Node.place? n = some p) : ∃ p', Node.place? c = some p' ∧
      p'.ancestors = p.ancestors ++ [p.id] ∧
      p'.scope = Node.innerScope p.scope n.label.label := by
  obtain ⟨id, above, scope, t, -, rfl⟩ := Node.exists_number _ h
  rw [Node.place?_number, Option.some.injEq] at hp
  subst hp
  obtain ⟨id', t', -, rfl⟩ := Node.exists_number_of_mem_children hc
  exact ⟨_, Node.place?_number .., rfl, by cases t; rfl⟩

end Scaffold.Descriptor
