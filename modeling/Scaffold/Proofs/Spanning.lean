import Scaffold.Proofs.Place
import Scaffold.Proofs.Registry

/-! # The tree that spans a draft

A draft is a tree or has a first fault, and both ways of checking it agree on that: the recursion
that its descriptor is made by, and the search that registers its nodes (`Draft.judged_cases`). For
a tree, the nodes of the descriptor are numbered as the cells are registered, and have the same
edges (`Draft.edge_iff`). `Draft.tree_enforced` puts this together. -/

namespace Scaffold

/-! ### Numbers and cells -/

/-- The cell that a node stands for: the one of its number. -/
def Site.cell? {α : Type} (cells : List α) (s : Site) : Option α := s.place.bind fun p => cells[p.id]?

namespace Node

theorem map_label_numberAll {above : List Nat} {scope : List String} : ∀ {ts : List (Tree Label)}
    {id : Nat}, (∀ t ∈ ts, ∀ id above scope, (number id above scope t).map Site.label = t) →
      (numberAll id above scope ts).map (Tree.map Site.label) = ts
  | [], _, _ => rfl
  | t :: ts, id, h => by
    rw [numberAll, List.map_cons, h t (by simp), map_label_numberAll fun t' ht' => h t' (by simp [ht'])]

/-- Numbering does not change the labels. -/
theorem map_label_number (t : Tree Label) : ∀ (id : Nat) (above : List Nat) (scope : List String),
    (number id above scope t).map Site.label = t := by
  induction t using Tree.induction with
  | node l cs ih =>
    intro id above scope
    rw [number, Tree.map, Tree.mapAll_eq_map, map_label_numberAll ih]

theorem labels_number (t : Tree Label) :
    (number 0 [] [] t).subtrees.map (fun n => n.label.label) = t.labels := by
  have h := congrArg Tree.labels (map_label_number t 0 [] [])
  rwa [Tree.labels_map, Tree.labels_eq_map_subtrees, List.map_map] at h

end Node

namespace Draft

variable {d : Draft} {c : Tree (Fin d.size)} {i j : Fin d.size} {a b : Nat}

theorem map_numberAll {cells : List (Fin d.size)} {above : List Nat} {scope : List String} :
    ∀ {cs : List (Tree (Fin d.size))} {id : Nat},
      (∀ c ∈ cs, ∀ {id above scope}, c.labels <+: cells.drop id →
        (Node.number id above scope (d.labelled c)).map (Site.cell? cells) = c.map some) →
      Tree.labelsAll cs <+: cells.drop id →
        (Node.numberAll id above scope (cs.map d.labelled)).map (Tree.map (Site.cell? cells)) =
          cs.map (Tree.map some)
  | [], _, _, _ => rfl
  | c :: cs, id, h, ⟨rest, hrest⟩ => by
    rw [Tree.labelsAll, List.append_assoc] at hrest
    have htail : Tree.labelsAll cs <+: cells.drop (id + (d.labelled c).size) := by
      rw [← List.drop_drop, ← hrest, labelled, Tree.size_map, ← Tree.length_labels,
        List.drop_left]
      exact List.prefix_append ..
    rw [List.map_cons, Node.numberAll, List.map_cons, h c (by simp) ⟨_, hrest⟩,
      map_numberAll (fun c' hc' => h c' (by simp [hc'])) htail, List.map_cons]

/-- Numbering the labels of a tree of cells in document order gives every node the number of its
cell in the list of all cells. -/
theorem map_number {cells : List (Fin d.size)} (c : Tree (Fin d.size)) :
    ∀ {id : Nat} {above : List Nat} {scope : List String}, c.labels <+: cells.drop id →
      (Node.number id above scope (d.labelled c)).map (Site.cell? cells) = c.map some := by
  induction c using Tree.induction with
  | node i cs ih =>
    intro id above scope ⟨rest, hrest⟩
    rw [Tree.labels, List.cons_append] at hrest
    have hi : cells[id]? = some i := by
      rw [← Nat.add_zero id, ← List.getElem?_drop, ← hrest]
      rfl
    have hcs : Tree.labelsAll cs <+: cells.drop (id + 1) := by
      rw [← List.drop_drop, ← hrest]
      exact List.prefix_append ..
    rw [labelled, Tree.map, Tree.mapAll_eq_map, Node.number, Tree.map, Tree.mapAll_eq_map,
      Tree.map, Tree.mapAll_eq_map]
    exact congrArg₂ Tree.node hi (map_numberAll ih hcs)

/-- The descriptor of a tree of cells. -/
def descriptor (d : Draft) (c : Tree (Fin d.size)) : Descriptor := ⟨d.labelled c⟩

/-- A node with everything below it stands for a tree of cells: the cells of the numbers, in the
order of the children. -/
def Stands (cells : List (Fin d.size)) (n : Node) (t : Tree (Fin d.size)) : Prop :=
  n.map (Site.cell? cells) = t.map some

variable {cells : List (Fin d.size)} {m n : Node} {t u : Tree (Fin d.size)}

theorem Stands.getElem?_eq (h : Stands cells n t) (ha : Node.id? n = some a) :
    cells[a]? = some t.label := by
  obtain ⟨p, hp, rfl⟩ := Option.map_eq_some_iff.mp ha
  have hlabel := congrArg Tree.label h
  have hplace : n.label.place = some p := hp
  rw [Tree.label_map, Tree.label_map, Site.cell?, hplace] at hlabel
  exact hlabel

theorem Stands.children (h : Stands cells n t) :
    n.children.map (Tree.map (Site.cell? cells)) = t.children.map (Tree.map some) := by
  rw [← Tree.children_map, ← Tree.children_map, h]

theorem Stands.exists_child (h : Stands cells n t) (hm : m ∈ n.children) :
    ∃ u ∈ t.children, Stands cells m u := by
  have hmem := List.mem_map_of_mem (f := Tree.map (Site.cell? cells)) hm
  rw [h.children] at hmem
  obtain ⟨u, hu, hum⟩ := List.mem_map.mp hmem
  exact ⟨u, hu, hum.symm⟩

theorem Stands.exists_node (h : Stands cells n t) (hu : u ∈ t.children) :
    ∃ m ∈ n.children, Stands cells m u := by
  have hmem := List.mem_map_of_mem (f := Tree.map some) hu
  rw [← h.children] at hmem
  obtain ⟨m, hm, hmu⟩ := List.mem_map.mp hmem
  exact ⟨m, hm, hmu⟩

/-- The nodes of the descriptor stand for the subtrees of the tree of cells. -/
theorem map_node? (d : Draft) (c : Tree (Fin d.size)) (a : Nat) :
    ((d.descriptor c).node? a).map (Tree.map (Site.cell? c.labels)) =
      (c.subtrees[a]?).map (Tree.map some) := by
  rw [Descriptor.node?, ← List.getElem?_map, ← List.getElem?_map, Descriptor.nodes,
    ← Tree.subtrees_map, ← Tree.subtrees_map]
  exact congrArg (fun t => (Tree.subtrees t)[a]?) (map_number c List.prefix_rfl)

theorem exists_subtree (hn : (d.descriptor c).node? a = some n) :
    ∃ t, c.subtrees[a]? = some t ∧ Stands c.labels n t := by
  have ha := map_node? d c a
  rw [hn, Option.map_some] at ha
  obtain ⟨t, ht, htn⟩ := Option.map_eq_some_iff.mp ha.symm
  exact ⟨t, ht, htn.symm⟩

theorem exists_node (ht : c.subtrees[a]? = some t) :
    ∃ n, (d.descriptor c).node? a = some n ∧ Stands c.labels n t := by
  have ha := map_node? d c a
  rw [ht, Option.map_some] at ha
  obtain ⟨n, hn, hnt⟩ := Option.map_eq_some_iff.mp ha
  exact ⟨n, hn, hnt⟩

end Draft

/-- The node of the second number is a child of the node of the first. -/
def Descriptor.Edge (desc : Descriptor) (a b : Nat) : Prop :=
  ∃ n m, desc.node? a = some n ∧ m ∈ n.children ∧ Node.id? m = some b

namespace Draft

variable {d : Draft} {c : Tree (Fin d.size)} {a b : Nat}

/-- **The edges of a descriptor** lead from the numbers of cells to those of the cells in their
slots. -/
theorem edge_iff (hc : d.Follows c) (hnodup : c.labels.Nodup) : (d.descriptor c).Edge a b ↔
    ∃ i j, c.labels[a]? = some i ∧ c.labels[b]? = some j ∧ .node j ∈ (d.cell i).slots := by
  have hlabels : c.labels[a]? = (c.subtrees[a]?).map Tree.label := by
    rw [Tree.labels_eq_map_subtrees, List.getElem?_map]
  constructor
  · rintro ⟨n, m, hn, hm, hb⟩
    obtain ⟨t, ht, hnt⟩ := exists_subtree hn
    obtain ⟨u, hu, hmu⟩ := hnt.exists_child hm
    refine ⟨t.label, u.label, by rw [hlabels, ht]; rfl, hmu.getElem?_eq hb, ?_⟩
    rw [hc t (List.mem_of_getElem? ht)]
    exact List.mem_map_of_mem hu
  · rintro ⟨i, j, hi, hj, hslot⟩
    rw [hlabels] at hi
    obtain ⟨t, ht, rfl⟩ := Option.map_eq_some_iff.mp hi
    rw [hc t (List.mem_of_getElem? ht)] at hslot
    obtain ⟨u, hu, huj⟩ := List.mem_map.mp hslot
    obtain ⟨n, hn, hnt⟩ := exists_node ht
    obtain ⟨m, hm, hmu⟩ := hnt.exists_node hu
    obtain ⟨p, hp⟩ := Descriptor.exists_place
      (Descriptor.mem_nodes_of_mem_children (List.mem_of_getElem? hn) hm)
    have hid := Node.id?_of_place? hp
    have hcell : c.labels[p.id]? = some j := by rw [hmu.getElem?_eq hid, Slot.node.inj huj]
    have hlt : p.id < c.labels.length := (List.getElem?_eq_some_iff.mp hcell).1
    obtain rfl : p.id = b := (List.getElem?_inj hlt hnodup).mp (hcell.trans hj.symm)
    exact ⟨n, m, hn, hm, hid⟩

/-! ### Verdicts -/

/-- The search of a draft comes to a verdict. -/
def Judged (d : Draft) (v : Registry.Verdict) : Prop :=
  ∃ r, Registry.Steps (.start d) r ∧ r.Stops v

theorem Judged.unique {v w : Registry.Verdict} (h : d.Judged v) (h' : d.Judged w) : v = w := by
  obtain ⟨r, hr, hv⟩ := h
  obtain ⟨r', hr', hw⟩ := h'
  exact hr.unique hv hr' hw

theorem not_judged_noTree (d : Draft) : ¬ d.Judged .noTree := by
  rintro ⟨r, hr, hstops⟩
  cases hstops with
  | noTree hnot => exact hnot (Registry.arborescence hr)

/-- **Both ways of checking a draft agree**: the cells of a tree are registered in document order,
and else both come to the first fault. -/
theorem judged_cases (d : Draft) :
    (∃ c edges, d.Spans c ∧ d.IsTree ∧ d.outline = .ok (d.labelled c) ∧
      Registry.Steps (.start d) ⟨c.labels, edges, []⟩) ∨
    ∃ p f, d.FirstFault p f ∧ d.outline = .error f ∧ d.Judged (.fault f) := by
  have hchained : Registry.Chained (d := d) [] [] := fun x => by simp [Registry.Above]
  have hsim : Registry.Simulates (.start d) [] (d.grow d.size [] [] d.root) :=
    @Registry.simulates_grow d d.size [] [] [] d.root [] .refl hchained .nil (Nat.zero_add d.size)
  rcases grow_cases d with ⟨c, hc, htree, hgrow⟩ | ⟨p, f, hf, hgrow⟩
  · rw [hgrow] at hsim
    cases hsim with
    | @ok _ _ edges hsteps =>
      rw [List.reverse_reverse] at hsteps
      exact .inl ⟨c, edges, hc, htree, by rw [outline, hgrow]; rfl, hsteps⟩
  · rw [hgrow] at hsim
    cases hsim with
    | error hsteps hstops => exact .inr ⟨p, f, hf, by rw [outline, hgrow]; rfl, _, hsteps, hstops⟩

theorem Spans.mem_edges_iff {edges : List (Fin d.size × Fin d.size)} {i j : Fin d.size}
    (hc : d.Spans c) (htree : d.IsTree) (hsteps : Registry.Steps (.start d) ⟨c.labels, edges, []⟩) :
    (i, j) ∈ edges ↔ d.Reachable (.node i) ∧ .node j ∈ (d.cell i).slots := by
  have hsound := (Registry.sound_start d).steps hsteps
  have hmem : ∀ {i j}, (i, j) ∈ edges → d.Reachable (.node i) ∧ .node j ∈ (d.cell i).slots :=
    fun {i j} h => ⟨(hc.mem_labels i).mp (hsound.edge _ h).1, (hsound.edge _ h).2.2⟩
  refine ⟨hmem, fun ⟨hi, hslot⟩ => ?_⟩
  obtain ⟨k, hk⟩ := List.getElem?_of_mem hslot
  have hholds : d.Holds (i, k) j := ⟨hi, hk⟩
  have hj : j ∈ c.labels := (hc.mem_labels j).mpr (.slot hi hslot)
  rcases Registry.begun_of_steps hsteps with hstart | ⟨root, hbegun⟩
  · cases congrArg Registry.ahead hstart
  · rcases Relation.ReflTransGen.cases_tail (hbegun.connected j hj) with rfl | ⟨i', -, hedge⟩
    · exact absurd hholds (htree.root _ hbegun.root _)
    · -- the node has been registered below the one cell that holds it
      obtain ⟨hi', hslot'⟩ := hmem hedge
      obtain ⟨k', hk'⟩ := List.getElem?_of_mem hslot'
      have hroot : d.root ≠ .node j := fun h => htree.root j h _ hholds
      have hsame : (i, k) = (i', k') :=
        (htree.owned j (.slot hi hslot) hroot).unique hholds ⟨hi', hk'⟩
      obtain ⟨rfl, -⟩ := Prod.mk.inj hsame
      exact hedge

/-- **A descriptor and the registry of its draft.** The registry holds all cells that are reached,
once each and in the order of a walk, and the edges between them are the child slots. The nodes of
the descriptor are numbered from `0` in the same order and have the same edges. -/
structure Registers (d : Draft) (cells : List (Fin d.size))
    (edges : List (Fin d.size × Fin d.size)) (desc : Descriptor) : Prop where
  steps : Registry.Steps (.start d) ⟨cells, edges, []⟩
  nodup : cells.Nodup
  mem_cells : ∀ i, i ∈ cells ↔ d.Reachable (.node i)
  mem_edges : ∀ i j, (i, j) ∈ edges ↔ d.Reachable (.node i) ∧ .node j ∈ (d.cell i).slots
  walk_eq : d.walk = .ok (cells.map fun i => (d.cell i).label)
  labels_eq : desc.nodes.map (fun n => n.label.label) = cells.map fun i => (d.cell i).label
  ids_eq : desc.nodes.map Node.id? = (List.range cells.length).map some
  edge_iff : ∀ a b, desc.Edge a b ↔
    ∃ i j, cells[a]? = some i ∧ cells[b]? = some j ∧ (i, j) ∈ edges

theorem Spans.registers {edges : List (Fin d.size × Fin d.size)} (hc : d.Spans c)
    (htree : d.IsTree) (hsteps : Registry.Steps (.start d) ⟨c.labels, edges, []⟩) :
    d.Registers c.labels edges (d.descriptor c) where
  steps := hsteps
  nodup := hc.nodup
  mem_cells := hc.mem_labels
  mem_edges i j := hc.mem_edges_iff htree hsteps
  walk_eq := walk_eq hc
  labels_eq := by
    rw [← Tree.labels_map]
    exact Node.labels_number (d.labelled c)
  ids_eq := by
    rw [Descriptor.nodes, Descriptor.root, Node.ids_number, ← List.range_eq_range', descriptor,
      labelled, Tree.size_map, Tree.length_labels]
  edge_iff a b := by
    rw [Draft.edge_iff hc.follows hc.nodup]
    refine exists₂_congr fun i j => and_congr_right fun hi => and_congr_right fun _ => ?_
    rw [hc.mem_edges_iff htree hsteps, ← hc.mem_labels i]
    exact (and_iff_right (List.mem_of_getElem? hi)).symm

/-- **Trees are enforced.** The search always comes to one verdict, and never to that of a finished
graph that is no tree. A draft has a descriptor if and only if it is a tree, which is when the
search says so; then the descriptor is what has been registered. Otherwise both give the fault of
the first position, in document order, at which something is wrong. This is a flaw, unless it is a
value that cannot be written. -/
theorem tree_enforced (d : Draft) :
    (WellFounded fun r' r : Registry d => r.Step r') ∧ (∃! v, d.Judged v) ∧
    ¬ d.Judged .noTree ∧ (d.Judged .tree ↔ d.IsTree) ∧
    (d.IsTree ↔ ∃ desc, Descriptor.ofDraft d = .ok desc) ∧
    (∀ desc, Descriptor.ofDraft d = .ok desc → ∃ cells edges, d.Registers cells edges desc) ∧
    ∀ f, (Descriptor.ofDraft d = .error f ↔ d.Judged (.fault f)) ∧
      (Descriptor.ofDraft d = .error f ↔ ∃ p, d.FirstFault p f) ∧
      (Descriptor.ofDraft d = .error f →
        (∃ flaw, f = .flaw flaw) ∨ (f = .oversized ∧ ¬ d.SlotsWritable)) := by
  refine ⟨Registry.wellFounded d, ?_⟩
  have herror : ∀ f, Descriptor.ofDraft d = .error f ↔ ∃ p, d.FirstFault p f := fun f => by
    rw [Descriptor.ofDraft, Fallible.map_error, outline_error_iff]
  have hkind : ∀ f, Descriptor.ofDraft d = .error f →
      (∃ flaw, f = .flaw flaw) ∨ (f = .oversized ∧ ¬ d.SlotsWritable) := fun f h => by
    obtain ⟨p, hp⟩ := (herror f).mp h
    exact hp.1.flaw_or_oversized
  rcases judged_cases d with ⟨c, edges, hc, htree, hd, hsteps⟩ | ⟨p, g, hg, hd, hjudged⟩
  · have hok : Descriptor.ofDraft d = .ok (d.descriptor c) := by rw [Descriptor.ofDraft, hd]; rfl
    have hjudged : d.Judged .tree := ⟨_, hsteps, .tree (Registry.arborescence hsteps)⟩
    refine ⟨⟨.tree, hjudged, fun v hv => hv.unique hjudged⟩, not_judged_noTree d,
      iff_of_true hjudged htree, iff_of_true htree ⟨_, hok⟩, fun desc h => ?_,
      fun f => ⟨⟨fun h => ?_, fun h => ?_⟩, herror f, hkind f⟩⟩
    · rw [hok] at h
      obtain rfl := Except.ok.inj h
      exact ⟨_, _, hc.registers htree hsteps⟩
    · rw [hok] at h
      cases h
    · cases h.unique hjudged
  · have hbad : Descriptor.ofDraft d = .error g := (herror g).mpr ⟨p, hg⟩
    have htree : ¬ d.IsTree := fun h => h.not_faultAt g hg.1
    have hnok : ∀ desc, Descriptor.ofDraft d ≠ .ok desc := fun desc h => by
      rw [hbad] at h
      cases h
    refine ⟨⟨.fault g, hjudged, fun v hv => hv.unique hjudged⟩, not_judged_noTree d,
      iff_of_false (fun h => ?_) htree, iff_of_false htree fun ⟨desc, h⟩ => hnok desc h,
      fun desc h => absurd h (hnok desc), fun f => ⟨⟨fun h => ?_, fun h => ?_⟩, herror f, hkind f⟩⟩
    · cases h.unique hjudged
    · rw [hbad] at h
      obtain rfl := Except.error.inj h
      exact hjudged
    · cases h.unique hjudged
      exact hbad

/-- A group whose only child is an integer that is too long to be written. -/
def longChild : Draft where
  size := 1
  cell _ := ⟨⟨.group, ""⟩, [.alien .long]⟩
  root := .node ⟨0, Nat.one_pos⟩

theorem ofDraft_longChild : Descriptor.ofDraft longChild = .error .oversized := by
  have hbad : Descriptor.ofDraft longChild =
      .error (.flawAbout Value.long.repr? (.notANode "GroupNode")) := rfl
  rw [hbad, Value.repr?_long]
  rfl

/-- The draft is no tree, and has no flaw either. -/
theorem longChild_not_flawed :
    ¬ longChild.IsTree ∧ ¬ ∃ flaw, Descriptor.ofDraft longChild = .error (.flaw flaw) := by
  have hbad := ofDraft_longChild
  refine ⟨fun htree => ?_, fun ⟨flaw, h⟩ => ?_⟩
  · obtain ⟨t, ht⟩ := isTree_iff_outline.mp htree
    rw [Descriptor.ofDraft, ht] at hbad
    cases hbad
  · rw [hbad] at h
    cases h

end Draft

end Scaffold
