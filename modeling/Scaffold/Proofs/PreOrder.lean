import Mathlib.Data.List.Sort
import Scaffold.Proofs.Lineage
import Scaffold.Proofs.Spanning

/-! # Numbers in document order

The nodes of a subtree have the numbers from that of its root on (`Descriptor.ids_subtrees`). So an
interval of numbers tells what lies below a node, along the edges of the descriptor
(`Descriptor.transGen_edge_iff`) and according to its queries (`Descriptor.isAncestor_iff`). The line
of a node has all its ancestors (`Descriptor.Line.eq_filter`). `Descriptor.inPreOrder` puts this
together. -/

namespace Scaffold

open Relation (ReflTransGen TransGen)

namespace Tree

variable {α : Type} {n t : Tree α}

/-- The subtrees of a tree are reached from it through children. -/
theorem mem_subtrees_iff : n ∈ t.subtrees ↔ ReflTransGen (fun k c => c ∈ k.children) t n := by
  constructor
  · induction t using Tree.induction with
    | node a cs ih =>
      intro h
      rw [subtrees, subtreesAll_eq_flatMap] at h
      rcases List.mem_cons.mp h with rfl | h
      · exact .refl
      · obtain ⟨c, hc, hn⟩ := List.mem_flatMap.mp h
        exact .head hc (ih c hc hn)
  · intro h
    induction h with
    | refl => exact mem_subtrees_self t
    | tail _ hc ih => exact mem_subtrees_of_mem_children ih hc

/-- A subtree is the tree or the child of a subtree. -/
theorem eq_or_mem_children (h : n ∈ t.subtrees) : n = t ∨ ∃ k ∈ t.subtrees, n ∈ k.children := by
  rcases Relation.ReflTransGen.cases_tail (mem_subtrees_iff.mp h) with rfl | ⟨k, hk, hn⟩
  · exact .inl rfl
  · exact .inr ⟨k, mem_subtrees_iff.mpr hk, hn⟩

theorem sublist_subtreesAll : ∀ ts : List (Tree α), ts.Sublist (subtreesAll ts)
  | [] => .slnil
  | .node a cs :: ts => by
    rw [subtreesAll, subtrees, List.cons_append]
    exact ((sublist_subtreesAll ts).trans (List.sublist_append_right ..)).cons_cons _

/-- The children of a tree stand among its subtrees in their order. -/
theorem children_sublist (t : Tree α) : t.children.Sublist t.subtrees := by
  obtain ⟨a, cs⟩ := t
  rw [subtrees]
  exact (sublist_subtreesAll cs).cons _

end Tree

namespace Descriptor

open Node (Precedes)

variable {d : Descriptor} {a b : Nat} {c m n : Node} {above : List Node}

/-! ### Numbers and subtrees -/

/-- The numbers of a subtree run from that of its root on. -/
theorem ids_subtrees (ha : d.node? a = some n) :
    n.subtrees.map Node.id? = (List.range' a n.size).map some := by
  obtain ⟨hn, hid⟩ := node?_eq_some.mp ha
  obtain ⟨id, ids, scope, t, -, rfl⟩ := Node.exists_number _ hn
  rw [Node.id?, Node.place?_number] at hid
  obtain rfl : id = a := Option.some.inj hid
  have hids := Node.ids_number t id ids scope
  have hsize := congrArg List.length hids
  rw [List.length_map, List.length_map, List.length_range', Tree.length_subtrees] at hsize
  rw [hids, hsize]

/-- **The numbers of a subtree are an interval.** -/
theorem exists_mem_subtrees_iff (ha : d.node? a = some m) :
    (∃ n, d.node? b = some n ∧ n ∈ m.subtrees) ↔ a ≤ b ∧ b < a + m.size := by
  have hids : some b ∈ m.subtrees.map Node.id? ↔ a ≤ b ∧ b < a + m.size := by
    rw [ids_subtrees ha, ← List.mem_range'_1]
    simp
  rw [← hids, List.mem_map]
  refine exists_congr fun n => ?_
  rw [node?_eq_some, and_comm]
  refine and_congr_right fun hn => and_iff_right ?_
  exact Tree.mem_subtrees_trans d.root (node?_eq_some.mp ha).1 hn

theorem mem_subtrees_iff (ha : d.node? a = some m) (hb : d.node? b = some n) :
    n ∈ m.subtrees ↔ a ≤ b ∧ b < a + m.size := by
  rw [← exists_mem_subtrees_iff ha, hb]
  simp

/-! ### Edges -/

theorem Edge.lt (h : d.Edge a b) : a < b := by
  obtain ⟨n, c, ha, hc, hb⟩ := h
  have hn := (node?_eq_some.mp ha).1
  exact lt_of_precedes ha (node?_eq_some.mpr ⟨mem_nodes_of_mem_children hn hc, hb⟩)
    (precedes_of_mem_children hn hc)

theorem reflTransGen_edge_iff (ha : d.node? a = some m) :
    ReflTransGen d.Edge a b ↔ ∃ n, d.node? b = some n ∧ n ∈ m.subtrees := by
  constructor
  · intro h
    induction h with
    | refl => exact ⟨m, ha, Tree.mem_subtrees_self m⟩
    | @tail b b' _ hedge ih =>
      obtain ⟨n, hb, hn⟩ := ih
      obtain ⟨n', c, hb', hc, hid⟩ := hedge
      obtain rfl := Option.some.inj (hb.symm.trans hb')
      have hcd := mem_nodes_of_mem_children (node?_eq_some.mp hb).1 hc
      exact ⟨c, node?_eq_some.mpr ⟨hcd, hid⟩, Tree.mem_subtrees_of_mem_children hn hc⟩
  · rintro ⟨n, hb, hn⟩
    have hpath := Tree.mem_subtrees_iff.mp hn
    clear hn
    induction hpath generalizing b with
    | refl => rw [node?_inj ha hb]
    | @tail k c hk hc ih =>
      have hkd := Tree.mem_subtrees_trans d.root (node?_eq_some.mp ha).1 (Tree.mem_subtrees_iff.mpr hk)
      obtain ⟨i, hi⟩ := exists_node? hkd
      exact .tail (ih hi) ⟨k, c, hi, hc, (node?_eq_some.mp hb).2⟩

/-- **What lies below a node**, along one edge or more, has the numbers of its subtree after its own. -/
theorem transGen_edge_iff (ha : d.node? a = some m) :
    TransGen d.Edge a b ↔ a < b ∧ b < a + m.size := by
  constructor
  · intro h
    have hlt : a < b := by
      induction h with
      | single hedge => exact hedge.lt
      | tail _ hedge ih => exact ih.trans hedge.lt
    have hpath := (reflTransGen_edge_iff ha).mp h.to_reflTransGen
    exact ⟨hlt, ((exists_mem_subtrees_iff ha).mp hpath).2⟩
  · rintro ⟨hlt, hsize⟩
    have hpath := (reflTransGen_edge_iff ha).mpr ((exists_mem_subtrees_iff ha).mpr ⟨hlt.le, hsize⟩)
    exact (Relation.reflTransGen_iff_eq_or_transGen.mp hpath).resolve_left hlt.ne'

/-! ### Ancestors -/

theorem parent_unique (hm : m ∈ d.nodes) (hn : n ∈ d.nodes) (hcm : c ∈ m.children)
    (hcn : c ∈ n.children) : m = n := by
  have h := (parent_of_mem_children hm hcm).symm.trans (parent_of_mem_children hn hcn)
  exact Option.some.inj (Except.ok.inj h)

theorem root_not_mem_children (hn : n ∈ d.nodes) : d.root ∉ n.children := fun h => by
  have hnone := (parent_root d).symm.trans (parent_of_mem_children hn h)
  cases hnone

/-- On the line of a node are the nodes that have it below them. -/
theorem Line.mem_iff (h : d.Line above n) (hm : m ∈ d.nodes) :
    m ∈ above ↔ n ∈ m.subtrees ∧ n ≠ m := by
  induction h with
  | root =>
    refine iff_of_false List.not_mem_nil fun ⟨hroot, hne⟩ => ?_
    rcases Tree.eq_or_mem_children hroot with rfl | ⟨k, hk, hc⟩
    · exact hne rfl
    · exact root_not_mem_children (Tree.mem_subtrees_trans d.root hm hk) hc
  | @child above n c h hc ih =>
    have hn := h.mem_nodes
    rw [List.mem_append, List.mem_singleton, ih]
    constructor
    · intro hmn
      have hsub : n ∈ m.subtrees := by
        rcases hmn with ⟨hsub, -⟩ | rfl
        · exact hsub
        · exact Tree.mem_subtrees_self m
      refine ⟨Tree.mem_subtrees_of_mem_children hsub hc, ?_⟩
      rintro rfl
      -- the child would stand after its parent and before it
      obtain ⟨a, ha⟩ := exists_node? hm
      obtain ⟨b, hb⟩ := exists_node? hn
      have hle := ((mem_subtrees_iff ha hb).mp hsub).1
      exact absurd (lt_of_precedes hb ha (precedes_of_mem_children hn hc)) (Nat.not_lt.mpr hle)
    · rintro ⟨hsub, hne⟩
      rcases Tree.eq_or_mem_children hsub with rfl | ⟨k, hk, hck⟩
      · exact absurd rfl hne
      · obtain rfl := parent_unique (Tree.mem_subtrees_trans d.root hm hk) hn hck hc
        by_cases hkm : k = m
        · exact .inr hkm.symm
        · exact .inl ⟨hk, hkm⟩

theorem Line.isAncestor_iff (h : d.Line above n) (hm : m ∈ d.nodes) :
    isAncestor m n = true ↔ m ∈ above := by
  obtain ⟨p, hp⟩ := exists_place hm
  obtain ⟨q, hq, hids, -⟩ := h.place
  have hid := Node.id?_of_place? hp
  rw [isAncestor, hp, hq]
  dsimp only
  rw [List.contains_iff_mem, ← List.mem_map_of_injective (Option.some_injective _), hids]
  constructor
  · intro hmem
    obtain ⟨k, hk, hkid⟩ := List.mem_map.mp hmem
    rwa [← eq_of_id?_eq (h.mem_nodes_of_mem k hk) hm (hkid.trans hid.symm)]
  · exact fun hmem => List.mem_map.mpr ⟨m, hmem, hid⟩

/-- **Ancestors by numbers**: those of a node are the nodes whose intervals have its number. -/
theorem isAncestor_iff (ha : d.node? a = some m) (hb : d.node? b = some n) :
    isAncestor m n = true ↔ a < b ∧ b < a + m.size := by
  obtain ⟨above, h⟩ := exists_line n (node?_eq_some.mp hb).1
  have hm := (node?_eq_some.mp ha).1
  have hne : n = m ↔ a = b :=
    ⟨fun h => node?_inj ha (h ▸ hb), fun h => Option.some.inj (hb.symm.trans (h ▸ ha))⟩
  rw [h.isAncestor_iff hm, h.mem_iff hm, mem_subtrees_iff ha hb, Ne, hne]
  omega

/-- The nodes of a line stand in document order. -/
theorem Line.pairwise (h : d.Line above n) : above.Pairwise Precedes := by
  induction h with
  | root => exact .nil
  | @child above n c h hc ih =>
    refine List.pairwise_append.mpr ⟨ih, List.pairwise_singleton .., fun m hm k hk => ?_⟩
    obtain rfl := List.mem_singleton.mp hk
    have hmd := h.mem_nodes_of_mem m hm
    obtain ⟨hsub, hne⟩ := (h.mem_iff hmd).mp hm
    exact precedes_of_mem_subtrees hmd hsub hne

/-- The line of a node has all its ancestors. -/
theorem Line.eq_filter (h : d.Line above n) :
    above = d.nodes.filter fun m => isAncestor m n := by
  have hasymm : Std.Antisymm Precedes :=
    ⟨fun m n hmn hnm => absurd (hmn.trans hnm) (Node.not_precedes_self m)⟩
  have hirrefl : Std.Irrefl Precedes := ⟨Node.not_precedes_self⟩
  refine h.pairwise.eq_of_mem_iff ((pairwise_nodes d).filter _) fun m => ?_
  rw [List.mem_filter]
  exact ⟨fun hm => ⟨h.mem_nodes_of_mem m hm, (h.isAncestor_iff (h.mem_nodes_of_mem m hm)).mpr hm⟩,
    fun ⟨hmd, hm⟩ => (h.isAncestor_iff hmd).mp hm⟩

theorem Line.depth (h : d.Line above n) : Descriptor.depth n = .ok above.length := by
  obtain ⟨p, hp, hids, -⟩ := h.place
  have hlength := congrArg List.length hids
  rw [List.length_map, List.length_map] at hlength
  rw [Descriptor.depth, Node.located, hp, ← hlength]
  rfl

theorem Line.parent (h : d.Line above n) : d.parent n = .ok above.getLast? := by
  rw [Descriptor.parent, h.ancestors]
  rfl

/-- The children of a node are the nodes that have it as their parent. -/
theorem mem_children_iff (hn : n ∈ d.nodes) (hc : c ∈ d.nodes) :
    c ∈ n.children ↔ d.parent c = .ok (some n) := by
  refine ⟨parent_of_mem_children hn, fun h => ?_⟩
  obtain ⟨above, hl⟩ := exists_line c hc
  cases hl with
  | root =>
    rw [parent_root] at h
    cases h
  | child hk hck =>
    rw [parent_of_mem_children hk.mem_nodes hck] at h
    obtain rfl := Option.some.inj (Except.ok.inj h)
    exact hck

/-! ### Queries -/

/-- The queries about the nodes of a descriptor agree with their numbers. -/
structure InPreOrder (d : Descriptor) : Prop where
  ids : d.nodes.map Node.id? = (List.range d.nodes.length).map some
  /-- What lies below a node has the numbers of its subtree after its own. -/
  below : ∀ {a b m}, d.node? a = some m → (TransGen d.Edge a b ↔ a < b ∧ b < a + m.size)
  isAncestor : ∀ {a b m n}, d.node? a = some m → d.node? b = some n →
    (isAncestor m n = true ↔ a < b ∧ b < a + m.size)
  /-- The ancestors of a node are the one chain of parents from the root down to it; these are all
  that lie above it, and as many as it is deep. -/
  line : ∀ n ∈ d.nodes, ∃ above, d.ancestors n = .ok above ∧ d.Line above n ∧
    (∀ above', d.Line above' n → above' = above) ∧
      (above = d.nodes.filter fun m => Descriptor.isAncestor m n) ∧
        Descriptor.depth n = .ok above.length
  depth_child : ∀ {n c k}, n ∈ d.nodes → c ∈ n.children → Descriptor.depth n = .ok k →
    Descriptor.depth c = .ok (k + 1)
  parent : ∀ n ∈ d.nodes, ∀ c ∈ d.nodes, c ∈ n.children ↔ d.parent c = .ok (some n)

theorem inPreOrder (d : Descriptor) : d.InPreOrder where
  ids := ids_nodes d
  below := transGen_edge_iff
  isAncestor := isAncestor_iff
  line n hn := by
    obtain ⟨above, h⟩ := exists_line n hn
    exact ⟨above, h.ancestors, h, fun _ h' => h'.unique h, h.eq_filter, h.depth⟩
  depth_child {n c k} hn hc hk := by
    obtain ⟨above, h⟩ := exists_line n hn
    rw [h.depth, Except.ok.injEq] at hk
    rw [(h.child hc).depth, List.length_append, List.length_singleton, hk]
  parent _ hn _ hc := mem_children_iff hn hc

end Descriptor

end Scaffold
