import Scaffold.Proofs.Checks
import Scaffold.Proofs.Meeting
import Scaffold.Proofs.Outline

/-! # Drafts with well-typed fields

The fields of a node may hold any values. A draft is well typed (`Draft.WellTyped`) if those that
are looked into hold what they are declared for: options and the keys of models are texts, outputs
have a kind, texts for their sources and tuples of texts for their patterns. The texts that are only
shown may be anything, and so may the shape of the draft.

* `Draft.WellTyped.of_accept`: so are the fields of the descriptor of a well-typed draft.
* `Directive.ofFields_eq`: well-typed fields make a directive.
* `Descriptor.exists_assemble`: the outputs of an accepted well-typed draft can always be
  assembled. -/

namespace Scaffold

/-- The fields of all cells are well typed. -/
def Draft.WellTyped (d : Draft) : Prop := ∀ i, (d.cell i).label.content.WellTyped

/-- The fields of all nodes are well typed. -/
def Descriptor.WellTyped (d : Descriptor) : Prop := ∀ n ∈ d.nodes, (Node.content n).WellTyped

/-! ### From cells to nodes -/

namespace Draft

variable {d : Draft} {desc : Descriptor}

/-- What is accepted is the descriptor of the draft. -/
theorem ofDraft_of_accept (h : d.accept = .ok desc) : Descriptor.ofDraft d = .ok desc := by
  obtain ⟨desc', hof, h⟩ := Fallible.bind_ok.mp h
  obtain ⟨⟨⟩, -, h⟩ := Fallible.bind_ok.mp h
  obtain rfl := Except.ok.inj h
  exact hof

/-- The nodes of the descriptor are labelled as cells that are reached. -/
theorem exists_cell_of_mem_nodes (h : Descriptor.ofDraft d = .ok desc) {n : Node}
    (hn : n ∈ desc.nodes) : ∃ i, d.Reachable (.node i) ∧ (d.cell i).label = n.label.label := by
  obtain ⟨t, ht, rfl⟩ := Fallible.map_ok.mp h
  obtain ⟨c, hc, rfl⟩ := spans_of_outline ht
  have hl := Node.label_mem_of_mem_number hn
  rw [labelled, Tree.labels_map] at hl
  obtain ⟨i, hmem, hi⟩ := List.mem_map.mp hl
  exact ⟨i, (hc.mem_labels i).mp hmem, hi⟩

/-- The descriptor of a well-typed draft is well typed. -/
theorem WellTyped.descriptor (hd : d.WellTyped) (h : Descriptor.ofDraft d = .ok desc) :
    desc.WellTyped := by
  intro n hn
  obtain ⟨i, -, hi⟩ := exists_cell_of_mem_nodes h hn
  rw [Node.content, ← hi]
  exact hd i

/-- The descriptor of a well-typed draft is well typed. -/
theorem WellTyped.of_accept (hd : d.WellTyped) (h : d.accept = .ok desc) : desc.WellTyped :=
  hd.descriptor (ofDraft_of_accept h)

end Draft

/-! ### Directives of well-typed fields -/

section

open Validation

/-- Items of which each can be read can be read together. -/
theorem Validation.Checked.items_of_forall₂ {α : Type} {read : Value → Checked α} {as : List α}
    {vs : List Value} (h : List.Forall₂ (fun a v => read v = .ok a) as vs) (i : Nat) :
    Checked.items read i vs = .ok as := by
  induction h generalizing i with
  | nil => rfl
  | cons hv _ ih =>
    rw [Checked.items, hv, ih]
    rfl

theorem Validation.Checked.items_map {α : Type} {read : Value → Checked α}
    (f : α → Value) (h : ∀ a, read (f a) = .ok a) (as : List α) (i : Nat) :
    Checked.items read i (as.map f) = .ok as := by
  refine items_of_forall₂ ?_ i
  rw [List.forall₂_map_right_iff]
  exact List.forall₂_same.mpr fun a _ => h a

namespace Directive

theorem readString?_optionalText (s : Option String) : readString? (optionalText s) = .ok s := by
  cases s <;> rfl

theorem readPatterns_textTuple (ss : List String) : readPatterns (textTuple ss) = .ok ss := by
  show Checked.items readString 0 (ss.map .str) = .ok ss
  exact Checked.items_map .str (fun _ => rfl) ss 0

/-- The entries of a model as pairs. -/
def pairList (model : List (String × Value)) : List Value :=
  model.map fun p => .tuple [.str p.1, p.2]

/-- A list of pairs is a model, whichever way its pairs are written. -/
theorem readModel_list {model : List (String × Value)} {vs : List Value}
    (h : List.Forall₂ (fun p v => Value.items? v = some [.str p.1, p.2]) model vs) :
    readModel (.list vs) = .ok model := by
  have htuples : vs.mapM asTuple = .ok (pairList model) := by
    induction h with
    | nil => rfl
    | cons hv _ ih =>
      rw [List.mapM_cons, asTuple, hv, ih]
      rfl
  rw [readModel, htuples]
  show Checked.items readPair 0 (pairList model) = .ok model
  exact Checked.items_map (fun p : String × Value => .tuple [.str p.1, p.2]) (fun _ => rfl) model 0

theorem readModel_pairList (model : List (String × Value)) :
    readModel (.list (pairList model)) = .ok model := by
  refine readModel_list ?_
  rw [pairList, List.forall₂_map_right_iff]
  exact List.forall₂_same.mpr fun _ _ => rfl

/-- Fields of which each can be read make a directive. -/
theorem ofFields_of_read {d : Directive}
    {kind source target directory engine includes excludes model : Value}
    (hkind : readKind kind = .ok d.kind) (hsource : readString? source = .ok d.source)
    (htarget : readString? target = .ok d.target)
    (hdirectory : readString directory = .ok d.directory)
    (hengine : readString? engine = .ok d.engine)
    (hincludes : readPatterns includes = .ok d.includes)
    (hexcludes : readPatterns excludes = .ok d.excludes) (hmodel : readModel model = .ok d.model) :
    ofFields [("kind", kind), ("source", source), ("target", target), ("directory", directory),
      ("engine", engine), ("includes", includes), ("excludes", excludes), ("model", model)] =
      .ok d := by
  show Except.map _ (Checked.zip (Checked.under _ (readKind kind)) <|
    Checked.zip (Checked.under _ (readString? source)) <|
    Checked.zip (Checked.under _ (readString? target)) <|
    Checked.zip (Checked.under _ (readString directory)) <|
    Checked.zip (Checked.under _ (readString? engine)) <|
    Checked.zip (Checked.under _ (readPatterns includes)) <|
    Checked.zip (Checked.under _ (readPatterns excludes)) <|
    Checked.under _ (readModel model)) = _
  rw [hkind, hsource, htarget, hdirectory, hengine, hincludes, hexcludes, hmodel]
  rfl

theorem readKind_name (k : OutputKind) : readKind (.str k.name) = .ok k := by
  rw [readKind, OutputKind.ofValue?_name]

/-- **Well-typed fields make a directive with what they hold.** -/
theorem ofFields_eq {r : Request} {kind : OutputKind} {source target engine : Option String}
    {includes excludes : List String} (hkind : OutputKind.ofValue? r.kind = some kind)
    (hsource : r.source = optionalText source) (htarget : r.target = optionalText target)
    (hengine : r.engine = optionalText engine) (hincludes : r.includes = textTuple includes)
    (hexcludes : r.excludes = textTuple excludes) (directory : String)
    (model : List (String × Value)) :
    ofFields (Assembly.fieldsOf r directory (pairList model)) =
      .ok ⟨kind, source, target, directory, engine, includes, excludes, model⟩ := by
  refine ofFields_of_read ?_ ?_ ?_ rfl ?_ ?_ ?_ (readModel_pairList model)
  · rw [readKind, hkind]
  · rw [hsource, readString?_optionalText]
  · rw [htarget, readString?_optionalText]
  · rw [hengine, readString?_optionalText]
  · rw [hincludes, readPatterns_textTuple]
  · rw [hexcludes, readPatterns_textTuple]

end Directive

end

/-! ### Outputs of accepted descriptors -/

namespace Assembly

theorem modelPairs_eq : ∀ {cs : List Node},
    (∀ c ∈ cs, ∃ key value, Node.content c = .model (.str key) value) →
      ∃ model, modelPairs cs = .ok (Directive.pairList model)
  | [], _ => ⟨[], rfl⟩
  | c :: cs, h => by
    obtain ⟨key, value, hc⟩ := h c (by simp)
    obtain ⟨model, hcs⟩ := modelPairs_eq fun c hc => h c (List.mem_cons_of_mem _ hc)
    refine ⟨(key, value) :: model, ?_⟩
    rw [modelPairs]
    simp only [hc, hcs]
    rfl

variable {s : Setup} {context : Mapping Value}

/-- An output that a traversal comes to makes a directive. -/
theorem exists_convert (htyped : s.descriptor.WellTyped) {n : Node} (hn : s.Meets n) {r : Request}
    (hr : Node.content n = .output r) : ∃ directive, convert n = .ok directive := by
  have htype := htyped n hn.1
  rw [hr] at htype
  obtain ⟨parent, -, hcheck⟩ := hn.checkNode
  simp only [Analysis.checkNode, hr] at hcheck
  obtain ⟨⟨⟩, hmodel, -⟩ := Fallible.bind_ok.mp hcheck
  have hkeys : ∀ c ∈ n.children, ∃ key value, Node.content c = .model (.str key) value := by
    intro c hc
    obtain ⟨key, value, hcontent⟩ := Analysis.decides_model.ok_iff.mp ⟨_, hmodel⟩ c hc
    have hkey := htyped c (Descriptor.mem_nodes_of_mem_children hn.1 hc)
    rw [hcontent] at hkey
    obtain ⟨text, rfl⟩ := hkey
    exact ⟨text, value, hcontent⟩
  obtain ⟨model, hpairs⟩ := modelPairs_eq hkeys
  obtain ⟨kind, hkind⟩ := htype.kind
  obtain ⟨source, hsource⟩ := htype.source
  obtain ⟨target, htarget⟩ := htype.target
  obtain ⟨engine, hengine⟩ := htype.engine
  obtain ⟨includes, hincludes⟩ := htype.includes
  obtain ⟨excludes, hexcludes⟩ := htype.excludes
  refine ⟨⟨kind, source, target, Node.directory n, engine, includes, excludes, model⟩, ?_⟩
  unfold convert
  simp only [hr]
  rw [hpairs]
  show Validation.Checked.toExcept (Directive.ofFields _) = _
  rw [Directive.ofFields_eq hkind hsource htarget hengine hincludes hexcludes]
  rfl

theorem exists_collectAll {ns : List Node} (h : ∀ n ∈ ns, ∃ ds, collect context n = .ok ds) :
    ∃ ds, collectAll context ns = .ok ds := by
  induction ns with
  | nil => exact ⟨[], rfl⟩
  | cons n ns ih =>
    obtain ⟨ds, hds⟩ := h n (by simp)
    obtain ⟨es, hes⟩ := ih fun m hm => h m (by simp [hm])
    exact ⟨ds ++ es, by rw [collectAll, hds, hes]; rfl⟩

/-- What a traversal comes to can be collected. -/
theorem exists_collect (hs : s.Accepted) (htyped : s.descriptor.WellTyped)
    (hsel : Selects s context) (n : Node) : s.Meets n → ∃ ds, collect context n = .ok ds := by
  induction n using Tree.inner_induction with
  | h n ihc ihg =>
    intro hn
    by_cases ho : ∃ r, Node.content n = .output r
    · obtain ⟨r, hr⟩ := ho
      obtain ⟨directive, hd⟩ := exists_convert htyped hn hr
      obtain ⟨site, cs⟩ := n
      have hr' : site.label.content = .output r := hr
      exact ⟨[directive], by simp only [collect, hr', hd]; rfl⟩
    · rw [collect_eq_shown hs hsel hn fun r hr => ho ⟨r, hr⟩]
      refine exists_collectAll fun m hm => ?_
      have hmeets := meets_of_mem_shown hs hn hm
      rcases mem_children_of_mem_shown hm with hm | ⟨c, hc, -, hm⟩
      · exact ihc m hm hmeets
      · exact ihg c hc m hm hmeets

end Assembly

/-- **The outputs of an accepted well-typed descriptor can always be assembled.** -/
theorem Descriptor.exists_assemble {s : Setup} (hs : s.Accepted) (htyped : s.descriptor.WellTyped)
    {env : Env} (henv : s.Sound env) :
    ∃ outputs, s.descriptor.assemble env.values = .ok outputs :=
  Assembly.exists_collect hs htyped (henv.selects hs) _ hs.meets_root

end Scaffold
