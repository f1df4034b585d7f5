import Scaffold.Proofs.WellTyped

/-! # Well-formed descriptors

A descriptor is well formed (`Descriptor.WellFormed`) if its questions have different paths and
every node fits below its parent. That is what the analysis decides: a well-typed draft is accepted
if and only if it is a tree whose descriptor is well formed, and nothing but a flaw keeps it from
being accepted (`Draft.accept_iff`). -/

namespace Scaffold

namespace Descriptor

variable {d : Descriptor} {n c : Node}

/-- A question at a node has a path. -/
def Asks (n : Node) (path : String) : Prop :=
  (∃ q, Node.question? n = some q) ∧ Node.path n = .ok path

/-- The questions have different paths, and every node fits below its parent. -/
structure WellFormed (d : Descriptor) : Prop where
  paths : d.nodes.Pairwise fun m n => ∀ path, Asks m path → ¬ Asks n path
  fits : ∀ n ∈ d.nodes, ∀ parent, d.parent n = .ok parent →
    Node.Fits (parent.map Node.content) n

/-! ### Paths -/

theorem asks_iff {q : Question} (hq : Node.question? n = some q) {scope path : String}
    (hs : Node.scope n = .ok scope) : Asks n path ↔ path = Path.join scope q.name := by
  rw [Asks, Node.question_path_iff (Node.question?_eq_some.mp hq), hs]
  simp [hq, eq_comm]

/-- The questions of nodes can be put under their paths if these differ and none is taken yet. -/
theorem exists_indexInputs_iff : ∀ {ns : List Node} {found : Mapping Node},
    (∀ n ∈ ns, ∃ scope, Node.scope n = .ok scope) →
      ((∃ out, indexInputs found ns = .ok out) ↔
        (ns.Pairwise fun m n => ∀ path, Asks m path → ¬ Asks n path) ∧
          ∀ n ∈ ns, ∀ path, Asks n path → found.get? path = none)
  | [], found, _ => by simp [indexInputs]
  | n :: ns, found, hscope => by
    rw [indexInputs, List.pairwise_cons, List.forall_mem_cons]
    have hscopes : ∀ m ∈ ns, ∃ scope, Node.scope m = .ok scope := fun m hm =>
      hscope m (List.mem_cons_of_mem _ hm)
    cases hq : Node.question? n with
    | none =>
      have hasks : ∀ path, ¬ Asks n path := by simp [Asks, hq]
      simp only [exists_indexInputs_iff hscopes]
      simp [hasks]
    | some q =>
      obtain ⟨scope, hs⟩ := hscope n (by simp)
      simp only [hs, bind, Except.bind, asks_iff hq hs, forall_eq]
      split_ifs with htaken
      · refine iff_of_false (fun h => ?_) fun h => ?_
        · obtain ⟨out, h⟩ := h
          cases h
        · rw [h.2.1] at htaken
          cases htaken
      · rw [exists_indexInputs_iff hscopes]
        have hget : ∀ path, Mapping.get? (found ++ [(Path.join scope q.name, n)]) path = none ↔
            found.get? path = none ∧ path ≠ Path.join scope q.name := fun path =>
          Mapping.get?_append_single_eq_none
        have hfree : found.get? (Path.join scope q.name) = none := by simpa using htaken
        constructor
        · rintro ⟨hpairs, hfound⟩
          refine ⟨⟨fun m hm hasked => ?_, hpairs⟩, hfree, fun m hm path hasked => ?_⟩
          · exact ((hget _).mp (hfound m hm _ hasked)).2 rfl
          · exact ((hget path).mp (hfound m hm path hasked)).1
        · rintro ⟨⟨hnew, hpairs⟩, -, hfound⟩
          refine ⟨hpairs, fun m hm path hasked => (hget path).mpr ⟨hfound m hm path hasked, ?_⟩⟩
          rintro rfl
          exact hnew m hm hasked

theorem decides_inputs (d : Descriptor) : Decides (d.inputs.mapError Fault.flaw)
    (d.nodes.Pairwise fun m n => ∀ path, Asks m path → ¬ Asks n path) := by
  refine .mapError ((exists_indexInputs_iff fun n hn => exists_scope hn).trans ?_)
  exact and_iff_left fun n _ path _ => rfl

/-! ### Nodes below their parents -/

theorem decides_trees {parent : Option Content} {P : Node → Prop} : ∀ {cs : List Node},
    (∀ c ∈ cs, Decides (Analysis.checkTree parent c) (P c)) →
      Decides (Analysis.checkTrees parent cs) (∀ c ∈ cs, P c)
  | [], _ => .pass (by simp)
  | c :: cs, h => by
    rw [Analysis.checkTrees, List.forall_mem_cons]
    exact (h c (by simp)).bind fun _ _ => decides_trees fun c hc => h c (List.mem_cons_of_mem _ hc)

/-- The check of a node and of all below it decides whether they fit below their parents. -/
theorem decides_tree (hd : d.WellTyped) (t : Node) : ∀ {parent : Option Node}, t ∈ d.nodes →
    d.parent t = .ok parent → Decides (Analysis.checkTree (parent.map Node.content) t)
      (∀ n ∈ t.subtrees, ∀ parent, d.parent n = .ok parent →
        Node.Fits (parent.map Node.content) n) := by
  induction t using Tree.induction with
  | node site cs ih =>
    intro parent ht hparent
    have hcs : ∀ c ∈ cs, c ∈ d.nodes := fun c hc => mem_nodes_of_mem_children ht hc
    have hnode : Decides (Analysis.checkNode (parent.map Node.content) (.node site cs)) _ :=
      Analysis.decides_node (hd _ ht) (fun c hc => hd c (hcs c hc)) (exists_scope ht)
    have htrees := decides_trees fun c hc => ih c hc (hcs c hc) (parent_of_mem_children ht hc)
    rw [Analysis.checkTree]
    refine (hnode.bind fun _ _ => htrees).congr ?_
    rw [Tree.subtrees, Tree.subtreesAll_eq_flatMap, List.forall_mem_cons]
    refine and_congr ?_ ?_
    · rw [hparent]
      simp
    · simp only [List.mem_flatMap]
      grind

/-- The checks decide whether a descriptor of well-typed fields is well formed. -/
theorem decides_check (hd : d.WellTyped) : Decides d.check d.WellFormed := by
  have htree := decides_tree hd d.root (root_mem_nodes d) (parent_root d)
  refine (d.decides_inputs.bind fun _ _ => htree).congr ?_
  exact ⟨fun ⟨hpaths, hfits⟩ => ⟨hpaths, hfits⟩, fun h => ⟨h.paths, h.fits⟩⟩

end Descriptor

/-! ### Acceptance -/

namespace Draft

variable {draft : Draft}

/-- A draft that is no tree has a flaw, unless a value that is no node cannot be written. -/
theorem flaw_or_oversized_of_ofDraft {f : Fault} (h : Descriptor.ofDraft draft = .error f) :
    (∃ flaw, f = .flaw flaw) ∨ (f = .oversized ∧ ¬ draft.SlotsWritable) := by
  rw [Descriptor.ofDraft, Fallible.map_error, outline_error_iff] at h
  obtain ⟨p, hp⟩ := h
  exact hp.1.flaw_or_oversized

theorem isTree_iff_ofDraft : draft.IsTree ↔ ∃ desc, Descriptor.ofDraft draft = .ok desc := by
  rw [isTree_iff_outline]
  constructor
  · rintro ⟨t, ht⟩
    exact ⟨⟨t⟩, Fallible.map_ok.mpr ⟨t, ht, rfl⟩⟩
  · rintro ⟨desc, h⟩
    obtain ⟨t, ht, -⟩ := Fallible.map_ok.mp h
    exact ⟨t, ht⟩

theorem decides_ofDraft (hslots : draft.SlotsWritable) :
    Decides (Descriptor.ofDraft draft) draft.IsTree where
  ok_iff := isTree_iff_ofDraft.symm
  flaw _ h := (flaw_or_oversized_of_ofDraft h).resolve_right fun hf => hf.2 hslots

/-- The analysis decides whether a well-typed draft is a tree whose descriptor is well formed. -/
theorem decides_accept (hd : draft.WellTyped) (hslots : draft.SlotsWritable) : Decides draft.accept
    (draft.IsTree ∧ ∀ desc, Descriptor.ofDraft draft = .ok desc → desc.WellFormed) := by
  refine (decides_ofDraft hslots).bind fun desc hof => ?_
  have hcheck : Decides (do desc.check; return desc) (desc.WellFormed ∧ True) :=
    (Descriptor.decides_check (hd.descriptor hof)).bind fun _ _ => .pass trivial
  refine hcheck.congr ⟨fun h desc' hof' => ?_, fun h => ⟨h desc hof, trivial⟩⟩
  rw [hof] at hof'
  exact Except.ok.inj hof' ▸ h.1

/-- What is not a tree is not accepted, for the same reason as it has no descriptor. -/
theorem ofDraft_error_of_accept {f : Fault} (htree : ¬ draft.IsTree) (h : draft.accept = .error f) :
    Descriptor.ofDraft draft = .error f := by
  rcases Fallible.bind_error.mp h with h | ⟨desc, hof, -⟩
  · exact h
  · exact absurd (isTree_iff_ofDraft.mpr ⟨desc, hof⟩) htree

/-- **A well-typed draft is not accepted because of a flaw**, or because a value that is no node
cannot be written. -/
theorem flaw_or_oversized_of_accept (hd : draft.WellTyped) {f : Fault}
    (h : draft.accept = .error f) :
    (∃ flaw, f = .flaw flaw) ∨ (f = .oversized ∧ ¬ draft.SlotsWritable) := by
  by_cases htree : draft.IsTree
  · exact .inl ((decides_accept hd htree.slotsWritable).flaw f h)
  · exact flaw_or_oversized_of_ofDraft (ofDraft_error_of_accept htree h)

/-- **The well-formed descriptors are accepted.** A well-typed draft is accepted if and only if it
is a tree, the questions have different paths, and every node fits below its parent; what is
accepted is the descriptor of the tree. In every other case there is a flaw, and no other fault, if
the children are nodes, as their type has it; a child that is none may be too long to be written. -/
theorem accept_iff (hd : draft.WellTyped) :
    ((∃ desc, draft.accept = .ok desc) ↔
      draft.IsTree ∧ ∀ desc, Descriptor.ofDraft draft = .ok desc → desc.WellFormed) ∧
    (∀ desc, draft.accept = .ok desc → Descriptor.ofDraft draft = .ok desc) ∧
    (draft.SlotsWritable →
      (¬ (draft.IsTree ∧ ∀ desc, Descriptor.ofDraft draft = .ok desc → desc.WellFormed) ↔
        ∃ flaw, draft.accept = .error (.flaw flaw))) ∧
    ∀ f, draft.accept = .error f →
      (∃ flaw, f = .flaw flaw) ∨ (f = .oversized ∧ ¬ draft.SlotsWritable) := by
  refine ⟨?_, fun desc => ofDraft_of_accept, fun hslots => (decides_accept hd hslots).not_iff,
    fun f => flaw_or_oversized_of_accept hd⟩
  by_cases htree : draft.IsTree
  · exact (decides_accept hd htree.slotsWritable).ok_iff
  · refine iff_of_false (fun ⟨desc, h⟩ => htree ?_) fun h => htree h.1
    exact isTree_iff_ofDraft.mpr ⟨desc, ofDraft_of_accept h⟩

/-- A question that offers two options and declares a default, before an output with a model. -/
def flavors (fallback : String) : Draft where
  size := 6
  cell
    | 0 => ⟨⟨.group, ""⟩, [.node 1, .node 4]⟩
    | 1 => ⟨⟨.question ⟨.enum, "flavor", .none, .str fallback, .none, .none, .bool false⟩, ""⟩,
        [.node 2, .node 3]⟩
    | 2 => ⟨⟨.option (.str "se") .none .none, ""⟩, []⟩
    | 3 => ⟨⟨.option (.str "mp") .none .none, ""⟩, []⟩
    | 4 => ⟨⟨.output ⟨.str "templates", .str "src", .none, .none, .tuple [], .tuple []⟩, ""⟩,
        [.node 5]⟩
    | 5 => ⟨⟨.model (.str "name") .none, ""⟩, []⟩
  root := .node 0

theorem flavors_wellTyped (fallback : String) : (flavors fallback).WellTyped := fun i : Fin 6 =>
  match i with
  | 0 | 1 => trivial
  | 2 | 3 | 5 => ⟨_, rfl⟩
  | 4 => ⟨⟨.templates, rfl⟩, ⟨some "src", rfl⟩, ⟨none, rfl⟩, ⟨none, rfl⟩, ⟨[], rfl⟩, ⟨[], rfl⟩⟩

theorem flavors_slotsWritable (fallback : String) : (flavors fallback).SlotsWritable :=
  slotsWritable_of_nodes ⟨_, rfl⟩ fun i : Fin 6 =>
    match i with
    | 0 | 1 => List.forall_mem_cons.mpr ⟨⟨_, rfl⟩, List.forall_mem_singleton.mpr ⟨_, rfl⟩⟩
    | 4 => List.forall_mem_singleton.mpr ⟨_, rfl⟩
    | 2 | 3 | 5 => List.forall_mem_nil _

/-- The draft is well formed with one of the options as the default, and not with another text. -/
theorem flavors_accept_iff :
    ((flavors "mp").WellTyped ∧ (flavors "mp").IsTree ∧
      ∀ desc, Descriptor.ofDraft (flavors "mp") = .ok desc → desc.WellFormed) ∧
    ¬ ((flavors "xx").IsTree ∧
      ∀ desc, Descriptor.ofDraft (flavors "xx") = .ok desc → desc.WellFormed) := by
  obtain ⟨haccepted, -⟩ := accept_iff (flavors_wellTyped "mp")
  obtain ⟨-, -, hrejected, -⟩ := accept_iff (flavors_wellTyped "xx")
  exact ⟨⟨flavors_wellTyped "mp", haccepted.mp ⟨_, rfl⟩⟩,
    (hrejected (flavors_slotsWritable "xx")).mpr ⟨_, rfl⟩⟩

end Draft

end Scaffold
