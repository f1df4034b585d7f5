import Scaffold.Descriptor.Shape
import Scaffold.Proofs.PreOrder

/-! # Shapes and walks

The shape of a descriptor has a row for every number, and the rows are those of a tree
(`Descriptor.charted`). For a descriptor that was made from a draft it shows the cells of the draft, as
they are met on a walk, with the edges of the graph in the order in which the search has added them
(`Draft.Spans.charts`). `Draft.preorder_agrees` puts this together with the queries. -/

namespace Scaffold

/-- What is made of the members that are there, where all are. -/
theorem map_filterMap_eq {α β γ : Type} {f : α → Option β} {g : β → γ} {h : α → γ} :
    ∀ {as : List α}, (∀ a ∈ as, ∃ b, f a = some b ∧ g b = h a) → (as.filterMap f).map g = as.map h
  | [], _ => rfl
  | a :: as, hall => by
    obtain ⟨b, hb, hgh⟩ := hall a List.mem_cons_self
    rw [List.filterMap_cons_some hb, List.map_cons, hgh,
      map_filterMap_eq fun a' ha' => hall a' (List.mem_cons_of_mem _ ha'), List.map_cons]

/-- The numbers of the children of a node. -/
def Node.childIds (n : Node) : List Nat := n.children.filterMap Node.id?

namespace Descriptor

open Node (Precedes)

variable {d : Descriptor} {a b : Nat} {c m n : Node} {r : ShapeRow}

/-! ### Rows -/

theorem mem_rows {r : ShapeRow} : r ∈ d.shape.rows ↔
    ∃ n ∈ d.nodes, ∃ p, Node.place? n = some p ∧ r = ShapeRow.ofNode n p := by
  simp [shape, List.mem_filterMap, eq_comm]

theorem ids_rows (d : Descriptor) : d.shape.rows.map ShapeRow.id = List.range d.nodes.length := by
  have hids : d.nodes.filterMap Node.id? = List.range d.nodes.length := by
    have h := congrArg (List.filterMap id) (ids_nodes d)
    rwa [List.filterMap_map, List.filterMap_map, Function.id_comp, Function.id_comp,
      List.filterMap_some] at h
  rw [shape, List.map_filterMap, ← hids]
  congr 1
  funext n
  rw [Option.map_map]
  rfl

/-- The numbers of children increase. -/
theorem pairwise_childIds (hn : n ∈ d.nodes) : (Node.childIds n).Pairwise (· < ·) := by
  rw [Node.childIds, List.pairwise_filterMap]
  refine ((pairwise_subtrees hn).sublist (Tree.children_sublist n)).imp ?_
  rintro k c ⟨i, j, hi, hj, hij⟩ a ha b hb
  rw [hi] at ha
  rw [hj] at hb
  cases ha
  cases hb
  exact hij

theorem mem_childIds (hn : n ∈ d.nodes) :
    b ∈ Node.childIds n ↔ ∃ c ∈ n.children, d.node? b = some c := by
  rw [Node.childIds, List.mem_filterMap]
  refine exists_congr fun c => and_congr_right fun hc => ?_
  rw [node?_eq_some, and_iff_right (mem_nodes_of_mem_children hn hc)]

theorem map_node?_childIds (hn : n ∈ d.nodes) :
    (Node.childIds n).map d.node? = n.children.map some := by
  refine map_filterMap_eq fun c hc => ?_
  obtain ⟨a, ha⟩ := exists_node? (mem_nodes_of_mem_children hn hc)
  exact ⟨a, (node?_eq_some.mp ha).2, ha⟩

/-- Every number but that of the root is the number of a child. -/
theorem exists_mem_childIds_iff :
    (∃ n ∈ d.nodes, b ∈ Node.childIds n) ↔ 0 < b ∧ b < d.nodes.length := by
  constructor
  · rintro ⟨n, hn, hb⟩
    obtain ⟨c, hc, hcb⟩ := (mem_childIds hn).mp hb
    obtain ⟨a, ha⟩ := exists_node? hn
    have hlt := lt_of_precedes ha hcb (precedes_of_mem_children hn hc)
    exact ⟨Nat.zero_lt_of_lt hlt, (List.getElem?_eq_some_iff.mp hcb).1⟩
  · rintro ⟨hpos, hlt⟩
    have hb : d.node? b = some d.nodes[b] := List.getElem?_eq_getElem hlt
    obtain ⟨above, hl⟩ := exists_line _ (List.getElem_mem hlt)
    generalize d.nodes[b] = c at hb hl
    cases hl with
    | root => exact absurd (node?_inj (node?_root d) hb) (Nat.ne_of_lt hpos)
    | child hk hc => exact ⟨_, hk.mem_nodes, (mem_childIds hk.mem_nodes).mpr ⟨c, hc, hb⟩⟩

/-- No number is that of two children. -/
theorem nodup_childIds (d : Descriptor) : (d.nodes.flatMap Node.childIds).Nodup := by
  refine List.nodup_flatMap.mpr ⟨fun n hn => (pairwise_childIds hn).imp Nat.ne_of_lt, ?_⟩
  refine (pairwise_nodes d).imp_of_mem fun {m n} hm hn hmn b hbm hbn => ?_
  obtain ⟨c, hcm, hc⟩ := (mem_childIds hm).mp hbm
  obtain ⟨c', hcn, hc'⟩ := (mem_childIds hn).mp hbn
  obtain rfl := Option.some.inj (hc.symm.trans hc')
  rw [parent_unique hm hn hcm hcn] at hmn
  exact Node.not_precedes_self n hmn

theorem childIds_perm (d : Descriptor) :
    (d.nodes.flatMap Node.childIds).Perm (List.range' 1 (d.nodes.length - 1)) := by
  refine (List.perm_ext_iff_of_nodup (nodup_childIds d) List.nodup_range').mpr fun b => ?_
  rw [List.mem_flatMap, exists_mem_childIds_iff, List.mem_range'_1]
  omega

theorem flatMap_children (d : Descriptor) :
    d.shape.rows.flatMap ShapeRow.children = d.nodes.flatMap Node.childIds := by
  rw [List.flatMap_def, List.flatMap_def]
  refine congrArg List.flatten (map_filterMap_eq fun n hn => ?_)
  obtain ⟨p, hp⟩ := exists_place hn
  exact ⟨ShapeRow.ofNode n p, by rw [hp]; rfl, rfl⟩

theorem nodeCount_shape (d : Descriptor) : d.shape.nodeCount = d.nodes.length := by
  have hlength := congrArg List.length (ids_rows d)
  rwa [List.length_map, List.length_range] at hlength

/-- The parent of a row is that of its node. -/
theorem parent_iff_getLast? {q : Place} (hm : m ∈ d.nodes) (hn : d.node? a = some n)
    (hq : Node.place? m = some q) : d.parent m = .ok (some n) ↔ q.ancestors.getLast? = some a := by
  obtain ⟨above, h⟩ := exists_line m hm
  obtain ⟨q', hq', hids, -⟩ := h.place
  obtain rfl := Option.some.inj (hq.symm.trans hq')
  have hlast := congrArg List.getLast? hids
  rw [List.getLast?_map, List.getLast?_map] at hlast
  rw [h.parent, Except.ok.injEq]
  constructor
  · intro hlast'
    rw [hlast', Option.map_some, (node?_eq_some.mp hn).2] at hlast
    exact Option.map_injective (Option.some_injective _) hlast
  · intro hlast'
    rw [hlast', Option.map_some] at hlast
    obtain ⟨k, hk, hid⟩ := Option.map_eq_some_iff.mp hlast.symm
    have hkd := h.mem_nodes_of_mem k (List.mem_of_getLast? hk)
    rwa [← eq_of_id?_eq hkd (node?_eq_some.mp hn).1 (hid.trans (node?_eq_some.mp hn).2.symm)]

/-- The shape of a descriptor is that of a tree whose nodes are numbered in document order. -/
structure Charted (d : Descriptor) : Prop where
  ids : d.shape.rows.map ShapeRow.id = List.range d.nodes.length
  /-- A row lists the children of its node in their order, which is that of their numbers. -/
  row : ∀ r ∈ d.shape.rows, ∃ n, d.node? r.id = some n ∧ r.variant = Node.variant n ∧
    r.children.map d.node? = n.children.map some ∧ r.children.Pairwise (· < ·) ∧
      Descriptor.depth n = .ok r.depth
  parent : ∀ r ∈ d.shape.rows, ∀ s ∈ d.shape.rows, s.id ∈ r.children ↔ s.parent = some r.id
  /-- Every number but that of the root is listed once, and that of the root is not. -/
  children : (d.shape.rows.flatMap ShapeRow.children).Perm
    (List.range' 1 (d.shape.nodeCount - 1))
  count : d.shape.edgeCount + 1 = d.shape.nodeCount

theorem charted (d : Descriptor) : d.Charted where
  ids := ids_rows d
  row r hr := by
    obtain ⟨n, hn, p, hp, rfl⟩ := mem_rows.mp hr
    refine ⟨n, node?_of_place? hn hp, rfl, map_node?_childIds hn, pairwise_childIds hn, ?_⟩
    rw [depth, Node.located, hp]
    rfl
  parent r hr s hs := by
    obtain ⟨n, hn, p, hp, rfl⟩ := mem_rows.mp hr
    obtain ⟨m, hm, q, hq, rfl⟩ := mem_rows.mp hs
    have hq' := node?_of_place? hm hq
    calc q.id ∈ Node.childIds n
        ↔ ∃ c ∈ n.children, d.node? q.id = some c := mem_childIds hn
      _ ↔ m ∈ n.children := by simp [hq']
      _ ↔ d.parent m = .ok (some n) := mem_children_iff hn hm
      _ ↔ q.ancestors.getLast? = some p.id := parent_iff_getLast? hm (node?_of_place? hn hp) hq
  children := by
    rw [nodeCount_shape, flatMap_children]
    exact childIds_perm d
  count := by
    have hlength := (childIds_perm d).length_eq
    rw [← flatMap_children, List.length_range'] at hlength
    have hpos := List.length_pos_of_mem (root_mem_nodes d)
    rw [nodeCount_shape, Shape.edgeCount]
    exact hlength ▸ Nat.sub_add_cancel hpos

end Descriptor

/-! ### Edges in their order -/

namespace Registry

variable {d : Draft} {r r' : Registry d} {i : Fin d.size}

/-- The edges from a cell, in the order in which they have been added, and its slots ahead are the
slots of the cell. -/
def Ordered (r : Registry d) : Prop := ∀ i ∈ r.found,
  ((r.edges.filter fun e => e.1 = i).map fun e => Slot.node e.2) ++
    ((r.ahead.filter fun e => e.1 = some i).map Prod.snd) = (d.cell i).slots

theorem Ordered.step (h : r.Ordered) (hr : r.Sound) (hstep : Step r r') : r'.Ordered := by
  cases hstep with
  | @visit found edges owner k ahead hk =>
    intro i hi
    by_cases hik : i = k
    · -- nothing leads from a cell that has just been found, and all its slots are ahead
      subst hik
      have hsource : ∀ e ∈ edges ++ (owner.toList.map fun j => (j, i)), e.1 ∈ found := fun e he => by
        rcases List.mem_append.mp he with he | he
        · exact (hr.edge e he).1
        · obtain ⟨j, hj, rfl⟩ := List.mem_map.mp he
          exact (hr.owned _ List.mem_cons_self j (Option.mem_toList.mp hj)).1
      have hedges : (edges ++ owner.toList.map fun j => (j, i)).filter (fun e => e.1 = i) = [] :=
        List.filter_eq_nil_iff.mpr fun e he hei => hk (of_decide_eq_true hei ▸ hsource e he)
      have hahead : ahead.filter (fun e => e.1 = some i) = [] := by
        refine List.filter_eq_nil_iff.mpr fun e he hei => hk ?_
        exact (hr.owned e (List.mem_cons_of_mem _ he) i (of_decide_eq_true hei)).1
      rw [hedges, List.filter_append, hahead, List.append_nil, List.filter_map, List.map_map]
      simp [Function.comp_def]
    · have hif : i ∈ found := by simpa [hik] using hi
      have hslots : ((d.cell k).slots.map fun s => (some k, s)).filter (fun e => e.1 = some i) = [] :=
        List.filter_eq_nil_iff.mpr (by simp [Ne.symm hik])
      rw [← h i hif, List.filter_append, List.filter_append, hslots, List.nil_append,
        List.map_append, List.append_assoc]
      congr 1
      cases owner with
      | none => simp
      | some j =>
        by_cases hj : j = i <;> simp [hj]

theorem ordered_of_steps (h : Steps (start d) r) : r.Ordered := by
  induction h with
  | refl => exact fun i hi => absurd hi List.not_mem_nil
  | tail hsteps hstep ih => exact ih.step ((sound_start d).steps hsteps) hstep

end Registry

/-! ### Walks -/

namespace Draft

variable {d : Draft} {c : Tree (Fin d.size)} {desc : Descriptor} {ahead : List (Slot d.size)}
  {out out' : List (Fin d.size)}

/-- **The loop of a walk.** The next cell ahead is listed, and its slots come ahead of the others. -/
inductive Walks (d : Draft) : List (Slot d.size) → List (Fin d.size) → Prop
  | done : Walks d [] []
  | visit {i : Fin d.size} {ahead : List (Slot d.size)} {out : List (Fin d.size)} :
      Walks d ((d.cell i).slots ++ ahead) out → Walks d (.node i :: ahead) (i :: out)

theorem Walks.unique (h : d.Walks ahead out) : d.Walks ahead out' → out = out' := by
  induction h generalizing out' with
  | done =>
    intro h'
    cases h'
    rfl
  | visit _ ih =>
    intro h'
    cases h' with
    | visit h' => rw [ih h']

theorem walks_trees : ∀ {cs : List (Tree (Fin d.size))},
    (∀ c ∈ cs, ∀ {ahead out}, d.Walks ahead out → d.Walks (.node c.label :: ahead) (c.labels ++ out)) →
      d.Walks ahead out →
        d.Walks ((cs.map fun c => .node c.label) ++ ahead) (Tree.labelsAll cs ++ out)
  | [], _, h => h
  | c :: cs, hcs, h => by
    rw [List.map_cons, List.cons_append, Tree.labelsAll, List.append_assoc]
    exact hcs c List.mem_cons_self
      (walks_trees (fun c' hc' => hcs c' (List.mem_cons_of_mem _ hc')) h)

/-- The loop lists a tree that follows the slots before it goes on. -/
theorem walks_tree (c : Tree (Fin d.size)) : ∀ {ahead out}, d.Follows c → d.Walks ahead out →
    d.Walks (.node c.label :: ahead) (c.labels ++ out) := by
  induction c using Tree.induction with
  | node i cs ih =>
    intro ahead out hc h
    obtain ⟨hslots, hcs⟩ := follows_node_iff.mp hc
    refine .visit ?_
    rw [Tree.label, hslots]
    exact walks_trees (fun c hmem {_ _} h => ih c hmem (hcs c hmem) h) h

/-- **The walk from the root of a tree** ends, and lists its cells in document order. -/
theorem Spans.walks_iff (h : d.Spans c) : d.Walks [d.root] out ↔ out = c.labels := by
  have hwalks : d.Walks [d.root] c.labels := by
    rw [h.root, ← List.append_nil c.labels]
    exact walks_tree c h.follows .done
  exact ⟨fun h' => h'.unique hwalks, fun h' => h' ▸ hwalks⟩

/-! ### The graph and the shape -/

section Graph

variable {cells : List (Fin d.size)} {edges : List (Fin d.size × Fin d.size)} {n : Node}
  {t : Tree (Fin d.size)}

/-- The children of a node stand for the cells below its own. -/
theorem Stands.map_childIds (h : Stands cells n t) (hn : n ∈ desc.nodes) :
    (Node.childIds n).map (fun b => cells[b]?) = t.children.map fun u => some u.label := by
  have hlabels := congrArg (List.map Tree.label) h.children
  rw [List.map_map, List.map_map] at hlabels
  have hcells : (Node.childIds n).map (fun b => cells[b]?) =
      n.children.map fun c => c.label.cell? cells := by
    refine map_filterMap_eq fun c hc => ?_
    obtain ⟨p, hp⟩ := Descriptor.exists_place (Descriptor.mem_nodes_of_mem_children hn hc)
    have hplace : c.label.place = some p := hp
    exact ⟨p.id, Node.id?_of_place? hp, by rw [Site.cell?, hplace]; rfl⟩
  rw [hcells]
  simpa only [Function.comp_def, Tree.label_map] using hlabels

/-- The shape of a descriptor shows the graph that the search has built, and a walk the order of its
cells. -/
structure Charts (d : Draft) (cells : List (Fin d.size)) (edges : List (Fin d.size × Fin d.size))
    (desc : Descriptor) : Prop where
  walks : ∀ out, d.Walks [d.root] out ↔ out = cells
  /-- The edges from a cell have been added in the order of its slots. -/
  successors : ∀ i ∈ cells,
    ((edges.filter fun e => e.1 = i).map fun e => Slot.node e.2) = (d.cell i).slots
  /-- A row lists the numbers of the cells in the slots of its cell. -/
  row : ∀ r ∈ desc.shape.rows, ∃ i, cells[r.id]? = some i ∧ r.variant = d.variant i ∧
    (r.children.map fun b => (cells[b]?).map Slot.node) = (d.cell i).slots.map some
  nodeCount : desc.shape.nodeCount = cells.length
  edgeCount : desc.shape.edgeCount = edges.length

theorem Spans.charts (hc : d.Spans c) (htree : d.IsTree)
    (hsteps : Registry.Steps (.start d) ⟨c.labels, edges, []⟩) :
    d.Charts c.labels edges (d.descriptor c) := by
  have hreg := hc.registers htree hsteps
  have hnodes : (d.descriptor c).shape.nodeCount = c.labels.length := by
    have hlength := congrArg List.length hreg.labels_eq
    rwa [List.length_map, List.length_map, ← Descriptor.nodeCount_shape] at hlength
  refine ⟨fun out => hc.walks_iff, fun i hi => ?_, fun r hr => ?_, hnodes, ?_⟩
  · have hordered := Registry.ordered_of_steps hsteps i hi
    rwa [List.filter_nil, List.map_nil, List.append_nil] at hordered
  · obtain ⟨n, hn, p, hp, rfl⟩ := Descriptor.mem_rows.mp hr
    have hnode := Descriptor.node?_of_place? hn hp
    obtain ⟨t, ht, hnt⟩ := exists_subtree hnode
    have hcell := hnt.getElem?_eq (Descriptor.node?_eq_some.mp hnode).2
    refine ⟨t.label, hcell, ?_, ?_⟩
    · have hlabel := congrArg (fun ls => ls[p.id]?) hreg.labels_eq
      rw [List.getElem?_map, show (d.descriptor c).nodes[p.id]? = some n from hnode,
        List.getElem?_map, hcell] at hlabel
      exact congrArg (fun l => l.content.variant) (Option.some.inj hlabel)
    · have hchildren := congrArg (List.map (Option.map Slot.node)) (hnt.map_childIds hn)
      rw [List.map_map, List.map_map] at hchildren
      rw [hc.follows t (List.mem_of_getElem? ht), List.map_map]
      exact hchildren
  · have hcount := (Descriptor.charted (d.descriptor c)).count
    rcases Registry.begun_of_steps hsteps with hstart | ⟨root, hbegun⟩
    · cases congrArg Registry.ahead hstart
    · have hedges : edges.length + 1 = c.labels.length := hbegun.count
      omega

/-- **The graph of a descriptor agrees with the numbers of its nodes.** Descendants, ancestors and
depths are those that the intervals of the subtrees tell of; the shape is that of a tree with increasing
numbers; and both show the graph that the search of the draft has built, in the order of a walk. -/
theorem preorder_agrees (h : Descriptor.ofDraft d = .ok desc) : desc.InPreOrder ∧ desc.Charted ∧
    ∃ cells edges, d.Registers cells edges desc ∧ d.Charts cells edges desc := by
  refine ⟨desc.inPreOrder, desc.charted, ?_⟩
  rcases judged_cases d with ⟨c, edges, hc, htree, hd, hsteps⟩ | ⟨p, f, -, hd, -⟩
  · rw [Descriptor.ofDraft, hd] at h
    obtain rfl := Except.ok.inj h
    exact ⟨_, _, hc.registers htree hsteps, hc.charts htree hsteps⟩
  · rw [Descriptor.ofDraft, hd] at h
    cases h

/-- Five groups: the third has the first and the fourth below it, the first the last and the second. -/
def family : Draft where
  size := 5
  cell
    | 0 => ⟨⟨.group, ""⟩, [.node 4, .node 1]⟩
    | 1 => ⟨⟨.group, ""⟩, []⟩
    | 2 => ⟨⟨.group, ""⟩, [.node 0, .node 3]⟩
    | 3 => ⟨⟨.group, ""⟩, []⟩
    | 4 => ⟨⟨.group, ""⟩, []⟩
  root := .node 2

/-- The numbers of the nodes are not those of the cells, but the order in which these are met. -/
theorem family_preorder_agrees : ∃ desc, Descriptor.ofDraft family = .ok desc ∧
    desc.shape.rows.map ShapeRow.children = [[1, 4], [2, 3], [], [], []] ∧
    Relation.TransGen desc.Edge 0 3 ∧ ¬ Relation.TransGen desc.Edge 1 4 ∧
    ∃ edges, family.Registers ([2, 0, 4, 1, 3] : List (Fin 5)) edges desc := by
  refine ⟨_, rfl, rfl, ?_⟩
  obtain ⟨hpre, -, cells, edges, hreg, hcharts⟩ := preorder_agrees (d := family) rfl
  have hwalks : family.Walks [family.root] ([2, 0, 4, 1, 3] : List (Fin 5)) :=
    .visit (.visit (.visit (.visit (.visit .done))))
  obtain rfl := (hcharts.walks _).mp hwalks
  refine ⟨(hpre.below (a := 0) rfl).mpr (by decide), fun h => ?_, edges, hreg⟩
  exact absurd ((hpre.below (a := 1) rfl).mp h) (by decide)

end Graph

end Draft

end Scaffold
