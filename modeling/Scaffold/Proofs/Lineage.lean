import Scaffold.Proofs.Place

/-! # Lines of descent

The line of a node is the nodes above it, from the root down, each the parent of the next. Every
node has one (`Descriptor.exists_line`), which is what the descriptor gives for its ancestors
(`Descriptor.Line.ancestors`). The place of a node tells of its line: it has the numbers of the
nodes above and the names of the questions among them (`Descriptor.Line.place`). -/

namespace Scaffold

namespace Node

/-- The names of the questions among nodes. -/
def names (ns : List Node) : List String := ns.filterMap fun n => (question? n).map Question.name

theorem names_concat (ns : List Node) (n : Node) :
    names (ns ++ [n]) = innerScope (names ns) n.label.label := by
  have hq : n.label.label.content.question? = question? n := rfl
  rw [innerScope, hq, names, List.filterMap_append]
  cases hn : question? n <;> simp [hn, names]

end Node

namespace Descriptor

variable {d : Descriptor} {c m n : Node} {above : List Node}

/-- What passes from the root to the children of every node holds of all nodes. -/
theorem induction {P : Node → Prop} (root : P d.root)
    (child : ∀ n ∈ d.nodes, P n → ∀ c ∈ n.children, P c) : ∀ n ∈ d.nodes, P n := by
  have hbelow : ∀ t : Node, t ∈ d.nodes → P t → ∀ n ∈ t.subtrees, P n := by
    intro t
    induction t using Tree.induction with
    | node site cs ih =>
      intro ht hP n hn
      rw [Tree.subtrees, Tree.subtreesAll_eq_flatMap] at hn
      rcases List.mem_cons.mp hn with rfl | hn
      · exact hP
      · obtain ⟨c, hc, hn⟩ := List.mem_flatMap.mp hn
        exact ih c hc (mem_nodes_of_mem_children ht hc) (child _ ht hP c hc) n hn
  exact hbelow d.root (root_mem_nodes d) root

theorem nodup_nodes (d : Descriptor) : d.nodes.Nodup := by
  refine (pairwise_nodes d).imp fun {m n} h hmn => ?_
  subst hmn
  exact Node.not_precedes_self m h

/-- **The line of a node**: the nodes from the root down to the parent of the node. -/
inductive Line (d : Descriptor) : List Node → Node → Prop
  | root : Line d [] d.root
  | child {above : List Node} {n c : Node} : Line d above n → c ∈ n.children →
      Line d (above ++ [n]) c

namespace Line

theorem mem_nodes (h : d.Line above n) : n ∈ d.nodes := by
  induction h with
  | root => exact root_mem_nodes d
  | child _ hc ih => exact mem_nodes_of_mem_children ih hc

theorem mem_nodes_of_mem (h : d.Line above n) : ∀ a ∈ above, a ∈ d.nodes := by
  induction h with
  | root => simp
  | child h _ ih => simpa [or_imp, forall_and] using ⟨ih, h.mem_nodes⟩

theorem ancestors (h : d.Line above n) : d.ancestors n = .ok above := by
  induction h with
  | root => exact ancestors_root d
  | child h hc ih => exact ancestors_of_mem_children h.mem_nodes hc ih

/-- A node has one line. -/
theorem unique {above' : List Node} (h : d.Line above n) (h' : d.Line above' n) :
    above = above' :=
  Except.ok.inj (h.ancestors.symm.trans h'.ancestors)

end Line

theorem exists_line : ∀ n ∈ d.nodes, ∃ above, d.Line above n :=
  induction ⟨[], .root⟩ fun _ _ ⟨_, h⟩ _ hc => ⟨_, h.child hc⟩

/-- A place tells of the line of its node. -/
theorem Line.place (h : d.Line above n) : ∃ p, Node.place? n = some p ∧
    p.ancestors.map some = above.map Node.id? ∧ p.scope = Node.names above := by
  induction h with
  | root => exact ⟨_, Node.place?_number .., rfl, rfl⟩
  | @child above n c h hc ih =>
    obtain ⟨p, hp, hids, hscope⟩ := ih
    obtain ⟨p', hp', hids', hscope'⟩ := place?_of_mem_children h.mem_nodes hc hp
    have hid := Node.id?_of_place? hp
    refine ⟨p', hp', ?_, ?_⟩
    · rw [hids', List.map_append, hids, List.map_append, List.map_singleton, List.map_singleton, hid]
    · rw [hscope', hscope, Node.names_concat]

end Descriptor

end Scaffold
