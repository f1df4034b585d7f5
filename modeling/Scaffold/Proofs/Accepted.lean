import Scaffold.Analysis
import Scaffold.Setup
import Scaffold.Proofs.Answer
import Scaffold.Proofs.Mapping
import Scaffold.Proofs.Place

/-! # Accepted descriptors

What the analysis of a descriptor promises to those who work with it. Every node passes its own
check (`exists_checkTree`), so that a question has a concrete form and a default that is an answer
to it (`Accepted.question`), and every question is found under its own path and no other
(`Accepted.get?_iff`).

`Setup.Meets` describes the nodes that a traversal can come to: those whose parents do not keep
their children to themselves. No option, binding or model entry is among them
(`Meets.content_cases`), and what an answer selects is again among them (`Meets.of_mem_branch`). -/

namespace Scaffold

namespace Node

theorem question?_eq_some {n : Node} {q : Question} :
    question? n = some q ↔ content n = .question q := by
  unfold question? Content.question?
  cases content n <;> simp

theorem path_ok_iff {n : Node} {name : String} (hn : (content n).name? = some name)
    {path : String} :
    Node.path n = .ok path ↔ ∃ sc, scope n = .ok sc ∧ Path.join sc name = path := by
  unfold Node.path
  rw [hn]
  cases scope n <;> simp

theorem question_path_iff {n : Node} {q : Question} (hq : content n = .question q) {path : String} :
    Node.path n = .ok path ↔ ∃ sc, scope n = .ok sc ∧ Path.join sc q.name = path :=
  path_ok_iff (by rw [hq]; rfl)

theorem scope_of_place? {n : Node} {p : Place} (h : place? n = some p) :
    scope n = .ok (Path.ofScope p.scope) := by
  rw [scope, located, h]
  rfl

end Node

theorem Descriptor.exists_scope {d : Descriptor} {n : Node} (h : n ∈ d.nodes) :
    ∃ scope, Node.scope n = .ok scope := by
  obtain ⟨p, hp⟩ := exists_place h
  exact ⟨_, Node.scope_of_place? hp⟩

theorem Descriptor.scope_root (d : Descriptor) : Node.scope d.root = .ok "" :=
  Node.scope_of_place? (Node.place?_number 0 [] [] d.outline)

/-! ### What the analysis has checked -/

namespace Analysis

theorem checkTrees_ok_iff {parent : Option Content} : ∀ {cs : List Node},
    checkTrees parent cs = .ok () ↔ ∀ c ∈ cs, checkTree parent c = .ok ()
  | [] => by simp [checkTrees]
  | c :: cs => by
    rw [checkTrees, Fallible.bind_ok, List.forall_mem_cons, checkTrees_ok_iff]
    exact ⟨fun ⟨⟨⟩, h⟩ => h, fun h => ⟨(), h⟩⟩

theorem checkTree_ok_iff {parent : Option Content} {n : Node} : checkTree parent n = .ok () ↔
    checkNode parent n = .ok () ∧
      ∀ c ∈ n.children, checkTree (some (Node.content n)) c = .ok () := by
  obtain ⟨site, cs⟩ := n
  rw [checkTree, Fallible.bind_ok]
  exact ⟨fun ⟨⟨⟩, h, hcs⟩ => ⟨h, checkTrees_ok_iff.mp hcs⟩,
    fun ⟨h, hcs⟩ => ⟨(), h, checkTrees_ok_iff.mpr hcs⟩⟩

/-- Every node of a checked tree was checked below some parent. -/
theorem exists_checkTree {m : Node} (n : Node) : ∀ {parent : Option Content},
    checkTree parent n = .ok () → m ∈ n.subtrees → ∃ parent', checkTree parent' m = .ok () := by
  induction n using Tree.induction with
  | node site cs ih =>
    intro parent h hm
    rw [Tree.subtrees, Tree.subtreesAll_eq_flatMap] at hm
    rcases List.mem_cons.mp hm with rfl | hm
    · exact ⟨parent, h⟩
    · obtain ⟨c, hc, hm⟩ := List.mem_flatMap.mp hm
      exact ih c hc ((checkTree_ok_iff.mp h).2 c hc) hm

theorem content_option_of_checkOptions {path : String} : ∀ {cs : List Node} {seen : List Value},
    checkOptions path seen cs = .ok () →
      ∀ c ∈ cs, ∃ v, (Node.content c).option? = some v ∧ v.hashable = true
  | c :: cs, seen, h, c', hc' => by
    rw [checkOptions] at h
    split at h
    next => cases h
    next v hv =>
      split_ifs at h with hh
      rcases List.mem_cons.mp hc' with rfl | hc'
      · exact ⟨v, hv, by simpa using hh⟩
      · exact content_option_of_checkOptions h c' hc'

theorem content_binding_of_checkPreset : ∀ {cs : List Node}, checkPreset cs = .ok () →
    ∀ c ∈ cs, ∃ name v, Node.content c = .binding name v
  | c :: cs, h, c', hc' => by
    rw [checkPreset] at h
    split at h
    next name v hc =>
      rcases List.mem_cons.mp hc' with rfl | hc'
      · exact ⟨name, v, hc⟩
      · exact content_binding_of_checkPreset h c' hc'
    next => cases h

theorem seekable_of_hashable {v : Value} (h : v.hashable = true) : v.seekable = true := by
  cases v <;> simp_all [Value.seekable]

theorem seekable_choices_of_checkChildren {q : Question} {path : String} {n : Node}
    (h : checkChildren q path n.children = .ok ()) (hq : q.form.offersOptions = true) :
    (Node.choices n).all Value.seekable = true := by
  rw [checkChildren, if_pos hq] at h
  obtain ⟨⟨⟩, h, -⟩ := Fallible.bind_ok.mp h
  simp only [Node.choices, Node.options, List.all_map, List.all_eq_true, List.mem_filterMap,
    Option.map_eq_some_iff, Function.comp_apply]
  rintro _ ⟨c, hc, v, hv, rfl⟩
  obtain ⟨v', hv', hh⟩ := content_option_of_checkOptions h c hc
  obtain rfl : v = v' := Option.some.inj (hv.symm.trans hv')
  exact seekable_of_hashable hh

/-- What the check of a question at a path promises. -/
structure QuestionFits (n : Node) (q : Question) (path : String) : Prop where
  concrete : q.form.isConcrete = true
  name : isName q.name = true
  choices : q.form.offersOptions = true → (Node.choices n).all Value.seekable = true
  fallback : q.hasFallback = true → ∃ v, Answer.coerce n q.fallback path = .ok v

theorem questionFits_of_checkNode {parent : Option Content} {n : Node} {q : Question}
    (hq : Node.content n = .question q) (h : checkNode parent n = .ok ()) :
    ∃ path, Node.path n = .ok path ∧ QuestionFits n q path := by
  simp only [checkNode, hq] at h
  obtain ⟨sc, hsc, h⟩ := Fallible.bind_ok.mp h
  split_ifs at h with hc hn
  obtain ⟨⟨⟩, hcs, hf⟩ := Fallible.bind_ok.mp h
  refine ⟨_, (Node.question_path_iff hq).mpr ⟨sc, Fallible.mapError_ok.mp hsc, rfl⟩,
    by simpa using hc, by simpa using hn, seekable_choices_of_checkChildren hcs, fun hd => ?_⟩
  rw [checkFallback, if_pos hd] at hf
  split at hf
  next v hv => exact ⟨v, hv⟩
  all_goals cases hf

end Analysis

/-! ### The questions under their paths -/

namespace Descriptor

/-- The questions of a descriptor, in document order. -/
def questions (d : Descriptor) : List Node :=
  d.nodes.filter fun n => (Node.question? n).isSome

/-- Questions are indexed in the order in which they stand. -/
theorem map_snd_indexInputs : ∀ {ns : List Node} {found out : Mapping Node},
    indexInputs found ns = .ok out →
      out.map Prod.snd = found.map Prod.snd ++ ns.filter fun n => (Node.question? n).isSome
  | [], found, out, h => by
    rw [indexInputs, Except.ok.injEq] at h
    simp [h]
  | n :: ns, found, out, h => by
    rw [indexInputs] at h
    split at h
    next hq => rw [map_snd_indexInputs h, List.filter_cons_of_neg (by simp [hq])]
    next q hq =>
      obtain ⟨scope, -, h⟩ := Fallible.bind_ok.mp h
      dsimp only at h
      split_ifs at h
      rw [map_snd_indexInputs h, List.filter_cons_of_pos (by simp [hq]), List.map_append,
        List.append_assoc]
      rfl

theorem map_snd_inputs {d : Descriptor} {inputs : Mapping Node} (h : d.inputs = .ok inputs) :
    inputs.map Prod.snd = d.questions := map_snd_indexInputs h

theorem indexInputs_ok : ∀ {ns : List Node} {found out : Mapping Node},
    indexInputs found ns = .ok out → (Mapping.names found).Nodup → (Mapping.names out).Nodup ∧
      ∀ path n, (path, n) ∈ out ↔
        (path, n) ∈ found ∨ n ∈ ns ∧ (∃ q, Node.question? n = some q) ∧ Node.path n = .ok path
  | [], found, out, h, hnd => by
    rw [indexInputs, Except.ok.injEq] at h
    exact h ▸ ⟨hnd, by simp⟩
  | n :: ns, found, out, h, hnd => by
    rw [indexInputs] at h
    split at h
    next hq =>
      obtain ⟨hnd', hmem⟩ := indexInputs_ok h hnd
      refine ⟨hnd', fun path m => ?_⟩
      rw [hmem, List.mem_cons]
      refine or_congr_right (and_congr_left fun ⟨⟨q, hm⟩, _⟩ => (or_iff_right ?_).symm)
      rintro rfl
      rw [hq] at hm
      cases hm
    next q hq =>
      obtain ⟨sc, hsc, h⟩ := Fallible.bind_ok.mp h
      dsimp only at h
      split_ifs at h with hdup
      have hpath : Node.path n = .ok (Path.join sc q.name) :=
        (Node.question_path_iff (Node.question?_eq_some.mp hq)).mpr ⟨sc, hsc, rfl⟩
      obtain ⟨hnd', hmem⟩ := indexInputs_ok h
        (Mapping.nodup_names_append_single hnd n (by simpa using hdup))
      refine ⟨hnd', fun path m => ?_⟩
      rw [hmem, List.mem_append, List.mem_singleton, Prod.mk.injEq, List.mem_cons, or_assoc]
      refine or_congr_right ⟨?_, ?_⟩
      · rintro (⟨rfl, rfl⟩ | ⟨hm, h⟩)
        · exact ⟨.inl rfl, ⟨q, hq⟩, hpath⟩
        · exact ⟨.inr hm, h⟩
      · rintro ⟨rfl | hm, hm'⟩
        · exact .inl ⟨Except.ok.inj (hm'.2.symm.trans hpath), rfl⟩
        · exact .inr ⟨hm, hm'⟩

/-- A question is found under its own path, and nothing else is found there. -/
theorem get?_inputs_iff {d : Descriptor} {inputs : Mapping Node} (h : d.inputs = .ok inputs)
    {path : String} {n : Node} : inputs.get? path = some n ↔
      n ∈ d.nodes ∧ (∃ q, Node.question? n = some q) ∧ Node.path n = .ok path := by
  obtain ⟨hnd, hmem⟩ := indexInputs_ok h List.nodup_nil
  have hmem' := hmem path n
  simp only [List.not_mem_nil, false_or] at hmem'
  exact ⟨fun h => hmem'.mp (Mapping.mem_of_get? h),
    fun h => Mapping.get?_of_mem hnd (hmem'.mpr h)⟩

end Descriptor

namespace Setup

/-- The setup belongs to a descriptor that passes every check. -/
structure Accepted (s : Setup) : Prop where
  check : Analysis.checkTree none s.descriptor.root = .ok ()
  inputs : s.descriptor.inputs = .ok s.inputs

variable {s : Setup}

theorem accepted_of_new {draft : Draft} {d : Descriptor} {settings : Settings}
    (hd : draft.accept = .ok d) (hs : Setup.new d settings = .ok s) :
    s.Accepted ∧ s.descriptor = d ∧ s.settings = settings := by
  obtain ⟨d', -, hd⟩ := Fallible.bind_ok.mp hd
  obtain ⟨⟨⟩, hcheck, hd⟩ := Fallible.bind_ok.mp hd
  obtain rfl : d' = d := Except.ok.inj hd
  obtain ⟨inputs, hi, rfl⟩ := Fallible.map_ok.mp hs
  obtain ⟨-, -, hcheck⟩ := Fallible.bind_ok.mp hcheck
  exact ⟨⟨hcheck, hi⟩, rfl, rfl⟩

/-- The questions of an accepted draft can be indexed. -/
theorem exists_new {draft : Draft} {d : Descriptor} (hd : draft.accept = .ok d)
    (settings : Settings) : ∃ s, Setup.new d settings = .ok s := by
  obtain ⟨d', -, hd⟩ := Fallible.bind_ok.mp hd
  obtain ⟨⟨⟩, hcheck, hd⟩ := Fallible.bind_ok.mp hd
  obtain rfl : d' = d := Except.ok.inj hd
  obtain ⟨inputs, hi, -⟩ := Fallible.bind_ok.mp hcheck
  exact ⟨_, Fallible.map_ok.mpr ⟨inputs, Fallible.mapError_ok.mp hi, rfl⟩⟩

namespace Accepted

variable (hs : s.Accepted)
include hs

/-- A question is found under its own path, and nothing else is found there. -/
theorem get?_iff {path : String} {n : Node} : s.inputs.get? path = some n ↔
    n ∈ s.descriptor.nodes ∧ (∃ q, Node.question? n = some q) ∧ Node.path n = .ok path :=
  Descriptor.get?_inputs_iff hs.inputs

/-- Two questions of one path are one. -/
theorem eq_of_path_eq {m n : Node} {p q : Question} {path : String}
    (hm : m ∈ s.descriptor.nodes) (hn : n ∈ s.descriptor.nodes)
    (hp : Node.question? m = some p) (hq : Node.question? n = some q)
    (hmp : Node.path m = .ok path) (hnp : Node.path n = .ok path) : m = n :=
  Option.some.inj ((hs.get?_iff.mpr ⟨hm, ⟨p, hp⟩, hmp⟩).symm.trans
    (hs.get?_iff.mpr ⟨hn, ⟨q, hq⟩, hnp⟩))

theorem question {n : Node} {q : Question} (hn : n ∈ s.descriptor.nodes)
    (hq : Node.content n = .question q) :
    ∃ path, Node.path n = .ok path ∧ Analysis.QuestionFits n q path := by
  obtain ⟨parent, h⟩ := Analysis.exists_checkTree _ hs.check hn
  exact Analysis.questionFits_of_checkNode hq (Analysis.checkTree_ok_iff.mp h).1

/-- What is found under a path is a concrete question. -/
theorem concrete_of_get? {path : String} {n : Node} (h : s.inputs.get? path = some n) :
    ∃ q, Node.question? n = some q ∧ q.form.isConcrete = true := by
  obtain ⟨hn, ⟨q, hq⟩, -⟩ := hs.get?_iff.mp h
  obtain ⟨_, -, hfits⟩ := hs.question hn (Node.question?_eq_some.mp hq)
  exact ⟨q, hq, hfits.concrete⟩

end Accepted

/-! ### The nodes that a traversal can come to -/

/-- A parent of this content lets a traversal go on to its children. Inputs with options, presets
and outputs deal with their children themselves. -/
def letsThrough : Option Content → Bool
  | none | some .group | some (.step ..) | some (.conditional ..) | some (.option ..) => true
  | some (.question q) => !q.form.offersOptions
  | _ => false

/-- A node that a traversal can come to. -/
def Meets (s : Setup) (n : Node) : Prop :=
  n ∈ s.descriptor.nodes ∧
    ∃ parent, letsThrough parent = true ∧ Analysis.checkTree parent n = .ok ()

theorem Accepted.meets_root (hs : s.Accepted) : s.Meets s.descriptor.root :=
  ⟨Descriptor.root_mem_nodes _, none, rfl, hs.check⟩

theorem Accepted.meets_start (hs : s.Accepted) : ∀ n ∈ [s.descriptor.root], s.Meets n := by
  intro n hn
  rw [List.mem_singleton.mp hn]
  exact hs.meets_root

namespace Meets

variable {n : Node}

theorem checkNode (h : s.Meets n) : ∃ parent, letsThrough parent = true ∧
    Analysis.checkNode parent n = .ok () := by
  obtain ⟨-, parent, hp, hc⟩ := h
  exact ⟨parent, hp, (Analysis.checkTree_ok_iff.mp hc).1⟩

/-- The variants of node that a traversal has to deal with. -/
theorem content_cases (h : s.Meets n) :
    Node.content n = .preset ∨ (∃ q, Node.content n = .question q) ∨
      (∃ path v, Node.content n = .conditional path v) ∨ Node.content n = .group ∨
      (∃ l help, Node.content n = .step l help) ∨ ∃ r, Node.content n = .output r := by
  obtain ⟨parent, hp, hc⟩ := h.checkNode
  unfold Analysis.checkNode at hc
  cases hn : Node.content n <;> simp only [hn, reduceCtorEq] at hc <;> try simp
  case option =>
    split_ifs at hc with ho
    cases parent with
    | none => cases ho
    | some c => cases c <;> simp_all [letsThrough, Analysis.offersOptions]
  case binding =>
    split at hc
    · cases hp
    · cases hc
  case model =>
    split at hc
    · cases hp
    · cases hc

theorem content_binding (h : s.Meets n) (hn : Node.content n = .preset) {c : Node}
    (hc : c ∈ n.children) : ∃ name v, Node.content c = .binding name v := by
  obtain ⟨parent, -, hcheck⟩ := h.checkNode
  simp only [Analysis.checkNode, hn] at hcheck
  exact Analysis.content_binding_of_checkPreset hcheck c hc

theorem of_mem_children (h : s.Meets n) (hn : letsThrough (some (Node.content n)) = true)
    {c : Node} (hc : c ∈ n.children) : s.Meets c := by
  obtain ⟨hmem, parent, -, hcheck⟩ := h
  exact ⟨Descriptor.mem_nodes_of_mem_children hmem hc, _, hn,
    (Analysis.checkTree_ok_iff.mp hcheck).2 c hc⟩

/-- What lies below an option among the children of a node. -/
theorem of_mem_option (h : s.Meets n) {o c : Node} {v : Value} (ho : o ∈ n.children)
    (hv : (Node.content o).option? = some v) (hc : c ∈ o.children) : s.Meets c := by
  obtain ⟨hmem, parent, -, hcheck⟩ := h
  have ho' := (Analysis.checkTree_ok_iff.mp hcheck).2 o ho
  refine ⟨Descriptor.mem_nodes_of_mem_children (Descriptor.mem_nodes_of_mem_children hmem ho) hc,
    _, ?_, (Analysis.checkTree_ok_iff.mp ho').2 c hc⟩
  cases hco : Node.content o <;> simp_all [Content.option?, letsThrough]

/-- What an answer selects below a question. -/
theorem of_mem_branch (hs : s.Accepted) (h : s.Meets n) {q : Question}
    (hq : Node.content n = .question q) {v : Value} {b : Branch}
    (hb : Branch.ofAnswer n v = .ok b) {c : Node} (hc : c ∈ b.nodes n.children) : s.Meets c := by
  cases b with
  | all =>
    refine h.of_mem_children ?_ hc
    obtain ⟨_, -, hfits⟩ := hs.question h.1 hq
    have hconc := hfits.concrete
    unfold Branch.ofAnswer at hb
    rw [Node.question?_eq_some.mpr hq, Option.map_some] at hb
    rw [hq, letsThrough]
    cases hf : q.form <;> rw [hf] at hb hconc
    case enum => cases hb
    case list =>
      obtain ⟨sel, -, hb⟩ := Fallible.bind_ok.mp hb
      split_ifs at hb
      cases hb
    all_goals rfl
  | nothing => simp [Branch.nodes] at hc
  | options selected =>
    obtain ⟨o, ho, hc⟩ := List.mem_flatMap.mp hc
    split at hc
    next v hv =>
      split_ifs at hc
      · exact h.of_mem_option ho hv hc
      · simp at hc
    next => simp at hc

end Meets

end Setup

end Scaffold
