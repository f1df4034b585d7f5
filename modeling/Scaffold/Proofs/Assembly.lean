import Mathlib.Data.List.Chain
import Scaffold.Proofs.Course
import Scaffold.Proofs.WellTyped

/-! # Assembly as a filter

The assembly goes through the tree by recursion; which outputs it comes to can be told from each
output and its ancestors alone. A node lets some of its children through (`Assembly.lets`), and an
output is emitted (`Descriptor.emits`) if every node on the way to it lets the next one through.

* `Descriptor.assemble_eq_filter`: the directives are those of the emitted outputs, in document
  order and none twice.
* `Descriptor.assemble_sublist`: more bound values never remove a directive. -/

namespace Scaffold

open Setup

/-! ### Ways through the tree -/

/-- A branch selects a child, given by its value if it is an option. -/
def Branch.selects (b : Branch) (option : Option Value) : Bool :=
  match b with
  | all => true
  | nothing => false
  | options selected => option.any selected

namespace Assembly

/-- An answer to a question of a form leads on to a node below it, which may be an option of some
value: to every node below a text, to all or none below a truth value, to the option that the answer
equals or to the options that it contains. -/
def leads (form : Form) (answer : Value) (option : Option Value) : Bool :=
  match form with
  | .boolean =>
    match answer with
    | .bool true => true
    | _ => false
  | .enum => option.any fun v => v.equal answer
  | .list =>
    match answer with
    | .tuple items => option.any fun v => v.among items
    | _ => false
  | .text _ | .bare _ => true

/-- A node lets a child through: a question by its answer, a conditional if it holds. Outputs,
presets, bindings and model entries let nothing through. -/
def lets (context : Mapping Value) (n child : Node) : Bool :=
  match Node.content n with
  | .question q =>
    match Node.path n with
    | .ok path => (context.get? path).any fun answer =>
        leads q.form answer (Node.content child).option?
    | .error _ => false
  | .conditional path expected => holds context path expected
  | .group | .step .. | .option .. => true
  | .preset | .binding .. | .output _ | .model .. | .other _ => false

variable {context context' : Mapping Value} {n c : Node}

theorem lets_question {q : Question} (hq : Node.content n = .question q) {path : String}
    (hp : Node.path n = .ok path) : lets context n c =
      (context.get? path).any fun answer => leads q.form answer (Node.content c).option? := by
  simp only [lets, hq, hp]

theorem lets_of_isOutput (h : isOutput n = true) : lets context n c = false := by
  obtain ⟨r, hr⟩ := isOutput_iff.mp h
  simp only [lets, hr]

/-- More bound values let no less through. -/
theorem lets_mono (h : Mapping.Within context context') (hl : lets context n c = true) :
    lets context' n c = true := by
  unfold lets at hl ⊢
  split at hl
  next q hq =>
    split at hl
    next path hp =>
      cases hv : context.get? path with
      | none => simp [hv] at hl
      | some v =>
        rw [h path v hv]
        simpa only [hv] using hl
    next => cases hl
  next path expected _ => exact holds_mono h hl
  all_goals exact hl

end Assembly

namespace Descriptor

open Assembly

/-- Every node on the way from the root to the node lets the next one through. -/
def opens (d : Descriptor) (context : Mapping Value) (n : Node) : Bool :=
  match d.ancestors n with
  | .ok above => decide ((above ++ [n]).IsChain fun m child => lets context m child = true)
  | .error _ => false

/-- The node is an output, and every node on the way to it lets the next one through. -/
def emits (d : Descriptor) (context : Mapping Value) (n : Node) : Bool :=
  isOutput n && d.opens context n

/-- The answers to list questions in a context are tuples of texts. -/
def ListsTexts (d : Descriptor) (context : Mapping Value) : Prop :=
  ∀ n ∈ d.nodes, ∀ q path answer, Node.content n = .question q → q.form = .list →
    Node.path n = .ok path → context.get? path = some answer →
      ∃ ss : List String, answer = .tuple (ss.map .str)

variable {d : Descriptor} {context context' : Mapping Value} {n c : Node}

theorem opens_root : d.opens context d.root = true := by
  simp [opens, d.ancestors_root]

/-- The way to a child goes through its parent. -/
theorem opens_child (hn : n ∈ d.nodes) (hc : c ∈ n.children) :
    d.opens context c = (d.opens context n && lets context n c) := by
  obtain ⟨above, ha⟩ := exists_ancestors hn
  have hsplit : (above ++ [n] ++ [c]).IsChain (fun m child => lets context m child = true) ↔
      (above ++ [n]).IsChain (fun m child => lets context m child = true) ∧
        lets context n c = true := by
    rw [List.append_assoc, List.singleton_append, List.isChain_split, List.isChain_pair]
  rw [opens, opens, ancestors_of_mem_children hn hc ha, ha, Bool.eq_iff_iff]
  simp only [Bool.and_eq_true, decide_eq_true_iff]
  exact hsplit

/-- Below a node that is not opened nothing is emitted. -/
theorem emits_below (n : Node) : n ∈ d.nodes → d.opens context n = false →
    n.subtrees.filter (d.emits context) = [] := by
  induction n using Tree.induction with
  | node site cs ih =>
    intro hn hopen
    have hself : d.emits context (.node site cs) = false := by rw [emits, hopen, Bool.and_false]
    rw [Tree.subtrees, Tree.subtreesAll_eq_flatMap, List.filter_cons_of_neg (by simp [hself]),
      List.filter_flatMap, List.flatMap_eq_nil_iff]
    intro c hc
    refine ih c hc (mem_nodes_of_mem_children hn hc) ?_
    rw [opens_child hn hc, hopen, Bool.false_and]

/-- More bound values open no less. -/
theorem opens_mono (h : Mapping.Within context context') (ho : d.opens context n = true) :
    d.opens context' n = true := by
  unfold opens at ho ⊢
  split at ho
  · exact decide_eq_true ((of_decide_eq_true ho).imp fun _ _ => lets_mono h)
  · cases ho

theorem emits_mono (h : Mapping.Within context context') (he : d.emits context n = true) :
    d.emits context' n = true := by
  rw [emits, Bool.and_eq_true] at he ⊢
  exact ⟨he.1, opens_mono h he.2⟩

theorem ListsTexts.of_within (hl : d.ListsTexts context') (h : Mapping.Within context context') :
    d.ListsTexts context :=
  fun n hn q path answer hq hf hp hv => hl n hn q path answer hq hf hp (h path answer hv)

end Descriptor

/-! ### What is collected -/

namespace Assembly

variable {s : Setup} {context : Mapping Value}

/-- In a context with texts in its lists every answer selects a branch. -/
theorem selects_of_listsTexts (hs : s.Accepted) (hl : s.descriptor.ListsTexts context) :
    Selects s context := by
  intro path n v hn hv
  obtain ⟨hmem, ⟨q, hq⟩, hp⟩ := hs.get?_iff.mp hn
  have hcontent := Node.question?_eq_some.mp hq
  obtain ⟨_, -, hfits⟩ := hs.question hmem hcontent
  unfold Branch.ofAnswer
  rw [hq, Option.map_some]
  cases hf : q.form
  case list =>
    obtain ⟨ss, rfl⟩ := hl n hmem q path v hcontent hf hp hv
    rw [Branch.selection_map_str]
    exact ⟨_, if_pos (hfits.choices (by rw [hf]; rfl))⟩
  all_goals exact ⟨_, rfl⟩

theorem collect_option {o : Node} {v : Value} (ho : (Node.content o).option? = some v) :
    collect context o = collectAll context o.children := by
  obtain ⟨site, gs⟩ := o
  obtain ⟨l, h, hsite⟩ : ∃ l h, site.label.content = .option v l h := by
    cases hc : site.label.content <;> simp_all [Node.content, Tree.label, Content.option?]
  simp only [collect, hsite]
  rfl

/-- What is collected from a branch is collected from the children that it selects. -/
theorem collectAll_branch (b : Branch) (cs : List Node) :
    collectAll context (b.nodes cs) =
      collectAll context (cs.filter fun c => b.selects (Node.content c).option?) := by
  cases b with
  | all => simp only [Branch.nodes, Branch.selects, List.filter_true]
  | nothing => simp only [Branch.nodes, Branch.selects, List.filter_false]
  | options selected =>
    rw [← collectOptions_eq]
    induction cs with
    | nil => rfl
    | cons c cs ih =>
      obtain ⟨site, gs⟩ := c
      have hsite : (Node.content (.node site gs)).option? = site.label.content.option? := rfl
      rw [collectOptions, List.filter_cons, hsite, ih]
      cases hv : site.label.content.option? with
      | none => rfl
      | some v =>
        by_cases hsel : selected v = true
        · simp only [Branch.selects, Option.any_some, hsel, if_true]
          rw [collectAll, collect_option (hsite.trans hv)]
          rfl
        · simp only [Branch.selects, Option.any_some, hsel]
          rfl

/-- An answer leads on to what its branch selects. -/
theorem leads_eq_selects {n : Node} {q : Question} (hq : Node.question? n = some q) {v : Value}
    (hlist : q.form = .list → ∃ ss : List String, v = .tuple (ss.map .str)) {b : Branch}
    (hb : Branch.ofAnswer n v = .ok b) (option : Option Value) :
    leads q.form v option = b.selects option := by
  unfold Branch.ofAnswer at hb
  rw [hq, Option.map_some] at hb
  cases hf : q.form <;> simp only [hf] at hb
  case text | bare | enum =>
    obtain rfl := Except.ok.inj hb
    rfl
  case boolean =>
    obtain rfl := Except.ok.inj hb
    cases v with
    | bool b => cases b <;> rfl
    | _ => rfl
  case list =>
    obtain ⟨ss, rfl⟩ := hlist hf
    rw [Branch.selection_map_str] at hb
    obtain ⟨selected, hselected, hb⟩ := Fallible.bind_ok.mp hb
    obtain rfl := Except.ok.inj hselected
    split_ifs at hb
    obtain rfl := Except.ok.inj hb
    rfl

/-- From an answered question, what is collected is collected from the children that the answer
leads on to. -/
theorem collect_answered (hs : s.Accepted) (hl : s.descriptor.ListsTexts context) {n : Node}
    (hn : n ∈ s.descriptor.nodes) {q : Question} (hq : Node.content n = .question q)
    {path : String} (hp : Node.path n = .ok path) {v : Value} (hv : context.get? path = some v) :
    collect context n =
      collectAll context (n.children.filter fun c => leads q.form v (Node.content c).option?) := by
  have hquestion : Node.question? n = some q := Node.question?_eq_some.mpr hq
  have hinput := hs.get?_iff.mpr ⟨hn, ⟨q, hquestion⟩, hp⟩
  obtain ⟨_, -, hfits⟩ := hs.question hn hq
  obtain ⟨b, hb⟩ := selects_of_listsTexts hs hl path n v hinput hv
  have hleads : ∀ option, leads q.form v option = b.selects option :=
    leads_eq_selects hquestion (fun hf => hl n hn q path v hq hf hp hv) hb
  have hcollect : collect context n = collectAll context (b.nodes n.children) := by
    obtain ⟨site, cs⟩ := n
    have hsite : site.label.content = .question q := hq
    simp only [collect, hsite, hfits.concrete, if_true, hp, hv, hb]
    cases b with
    | all | nothing => rfl
    | options selected => exact collectOptions_eq selected cs
  simp only [hleads]
  rw [hcollect, collectAll_branch]

/-- From a node that is no output, what is collected is collected from the children let through. -/
theorem collect_eq_lets (hs : s.Accepted) (hl : s.descriptor.ListsTexts context) {n : Node}
    (hn : n ∈ s.descriptor.nodes) (ho : isOutput n = false) :
    collect context n = collectAll context (n.children.filter (lets context n)) := by
  cases hc : Node.content n
  case question q =>
    obtain ⟨path, hp, hfits⟩ := hs.question hn hc
    have hlets : lets context n = fun c =>
        (context.get? path).any fun v => leads q.form v (Node.content c).option? :=
      funext fun c => lets_question hc hp
    rw [hlets]
    cases hv : context.get? path with
    | none =>
      obtain ⟨site, cs⟩ := n
      have hsite : site.label.content = .question q := hc
      simp only [collect, hsite, hfits.concrete, if_true, hp, hv, Option.any_none]
      rw [List.filter_false]
      rfl
    | some v => exact collect_answered hs hl hn hc hp hv
  case output r => rw [isOutput_iff.mpr ⟨r, hc⟩] at ho; cases ho
  case other v =>
    obtain ⟨parent, hcheck⟩ := Analysis.exists_checkTree _ hs.check hn
    have hnode := (Analysis.checkTree_ok_iff.mp hcheck).1
    simp [Analysis.checkNode, hc] at hnode
  case conditional path expected =>
    have hlets : lets context n = fun _ => holds context path expected :=
      funext fun c => by simp only [lets, hc]
    obtain ⟨site, cs⟩ := n
    have hsite : site.label.content = .conditional path expected := hc
    rw [hlets]
    simp only [collect, hsite]
    cases holds context path expected with
    | false => rw [List.filter_false]; rfl
    | true => rw [List.filter_true]; rfl
  case group | step | option =>
    have hlets : lets context n = fun _ => true := funext fun c => by simp only [lets, hc]
    obtain ⟨site, cs⟩ := n
    have hsite : site.label.content = _ := hc
    rw [hlets, List.filter_true]
    simp only [collect, hsite]
    rfl
  case preset | binding | model =>
    have hlets : lets context n = fun _ => false := funext fun c => by simp only [lets, hc]
    obtain ⟨site, cs⟩ := n
    have hsite : site.label.content = _ := hc
    rw [hlets, List.filter_false]
    simp only [collect, hsite]
    rfl

/-- Nodes from which certain outputs are collected, apiece and in order. -/
theorem collectAll_eq_mapM {outputs : Node → List Node} {ns : List Node}
    (h : ∀ n ∈ ns, collect context n = (outputs n).mapM convert) :
    collectAll context ns = (ns.flatMap outputs).mapM convert := by
  induction ns with
  | nil => rfl
  | cons n ns ih =>
    have hrest := ih fun m hm => h m (List.mem_cons_of_mem _ hm)
    rw [collectAll, h n List.mem_cons_self, hrest, List.flatMap_cons, List.mapM_append]
    cases (outputs n).mapM convert with
    | error f => rfl
    | ok ds => cases (ns.flatMap outputs).mapM convert <;> rfl

theorem flatMap_filter_of_eq_nil {p : Node → Bool} {outputs : Node → List Node} {ns : List Node}
    (h : ∀ n ∈ ns, p n = false → outputs n = []) :
    (ns.filter p).flatMap outputs = ns.flatMap outputs := by
  induction ns with
  | nil => rfl
  | cons n ns ih =>
    have hrest := ih fun m hm => h m (List.mem_cons_of_mem _ hm)
    rw [List.filter_cons, List.flatMap_cons]
    split_ifs with hp
    · rw [List.flatMap_cons, hrest]
    · rw [hrest, h n List.mem_cons_self (Bool.eq_false_iff.mpr hp), List.nil_append]

/-- From an open node the emitted outputs below it are collected. -/
theorem collect_eq_filter (hs : s.Accepted) (hl : s.descriptor.ListsTexts context) (n : Node) :
    n ∈ s.descriptor.nodes → s.descriptor.opens context n = true →
      collect context n = (n.subtrees.filter (s.descriptor.emits context)).mapM convert := by
  induction n using Tree.induction with
  | node site cs ih =>
    intro hn hopen
    have hmem : ∀ c ∈ cs, c ∈ s.descriptor.nodes :=
      fun c hc => Descriptor.mem_nodes_of_mem_children hn hc
    have hchild : ∀ c ∈ cs, s.descriptor.opens context c = lets context (.node site cs) c := by
      intro c hc
      rw [Descriptor.opens_child hn hc, hopen, Bool.true_and]
    have hbelow : ∀ c ∈ cs, lets context (.node site cs) c = false →
        c.subtrees.filter (s.descriptor.emits context) = [] :=
      fun c hc hlet => Descriptor.emits_below c (hmem c hc) ((hchild c hc).trans hlet)
    rw [Tree.subtrees, Tree.subtreesAll_eq_flatMap, List.filter_cons, List.filter_flatMap,
      Descriptor.emits, hopen, Bool.and_true]
    by_cases ho : isOutput (.node site cs) = true
    · have hnone : cs.flatMap (fun c => c.subtrees.filter (s.descriptor.emits context)) = [] :=
        List.flatMap_eq_nil_iff.mpr fun c hc => hbelow c hc (lets_of_isOutput ho)
      obtain ⟨r, hr⟩ := isOutput_iff.mp ho
      have hsite : site.label.content = .output r := hr
      rw [if_pos ho, hnone, List.mapM_cons]
      simp only [collect, hsite]
      cases convert (.node site cs) <;> rfl
    · rw [if_neg ho, collect_eq_lets hs hl hn (Bool.eq_false_iff.mpr ho)]
      have hlets : collectAll context (cs.filter (lets context (.node site cs))) =
          ((cs.filter (lets context (.node site cs))).flatMap fun c =>
            c.subtrees.filter (s.descriptor.emits context)).mapM convert := by
        refine collectAll_eq_mapM fun c hc => ?_
        obtain ⟨hc, hlet⟩ := List.mem_filter.mp hc
        exact ih c hc (hmem c hc) ((hchild c hc).trans hlet)
      rw [Tree.children, hlets, flatMap_filter_of_eq_nil hbelow]

theorem mapM_cons_ok {n : Node} {ns : List Node} {ds : List Directive} :
    (n :: ns).mapM convert = .ok ds ↔
      ∃ d ds', convert n = .ok d ∧ ns.mapM convert = .ok ds' ∧ ds = d :: ds' := by
  rw [List.mapM_cons, Fallible.bind_ok]
  constructor
  · rintro ⟨d, hd, h⟩
    obtain ⟨ds', hds', h⟩ := Fallible.bind_ok.mp h
    exact ⟨d, ds', hd, hds', (Except.ok.inj h).symm⟩
  · rintro ⟨d, ds', hd, hds', rfl⟩
    exact ⟨d, hd, Fallible.bind_ok.mpr ⟨ds', hds', rfl⟩⟩

/-- A sublist of nodes that make directives makes a sublist of the directives. -/
theorem exists_sublist_mapM {ms ns : List Node} (h : ms.Sublist ns) {ds : List Directive}
    (hds : ns.mapM convert = .ok ds) : ∃ es, ms.mapM convert = .ok es ∧ es.Sublist ds := by
  induction h generalizing ds with
  | slnil => exact ⟨ds, hds, .refl ds⟩
  | cons n _ ih =>
    obtain ⟨d, ds', -, hds', rfl⟩ := mapM_cons_ok.mp hds
    obtain ⟨es, hes, hsub⟩ := ih hds'
    exact ⟨es, hes, hsub.cons d⟩
  | cons_cons n _ ih =>
    obtain ⟨d, ds', hd, hds', rfl⟩ := mapM_cons_ok.mp hds
    obtain ⟨es, hes, hsub⟩ := ih hds'
    exact ⟨d :: es, mapM_cons_ok.mpr ⟨d, es, hd, hes, rfl⟩, hsub.cons_cons d⟩

end Assembly

/-! ### Directives in document order -/

/-- Two list questions, one with two options and one with one, and an output below every option. -/
def Draft.twoLists : Draft where
  size := 9
  cell
    | 0 => ⟨⟨.group, ""⟩, [.node 1, .node 6]⟩
    | 1 => ⟨⟨.question ⟨.list, "tools", .none, .none, .none, .none, .bool false⟩, ""⟩,
        [.node 2, .node 4]⟩
    | 2 => ⟨⟨.option (.str "lint") .none .none, ""⟩, [.node 3]⟩
    | 3 => ⟨⟨.output ⟨.str "file", .str "a", .none, .none, .tuple [], .tuple []⟩, ""⟩, []⟩
    | 4 => ⟨⟨.option (.str "test") .none .none, ""⟩, [.node 5]⟩
    | 5 => ⟨⟨.output ⟨.str "file", .str "b", .none, .none, .tuple [], .tuple []⟩, ""⟩, []⟩
    | 6 => ⟨⟨.question ⟨.list, "docs", .none, .none, .none, .none, .bool false⟩, ""⟩, [.node 7]⟩
    | 7 => ⟨⟨.option (.str "site") .none .none, ""⟩, [.node 8]⟩
    | 8 => ⟨⟨.output ⟨.str "file", .str "c", .none, .none, .tuple [], .tuple []⟩, ""⟩, []⟩
  root := .node 0

theorem Draft.twoLists_wellTyped : Draft.twoLists.WellTyped := fun i : Fin 9 =>
  match i with
  | 0 | 1 | 6 => trivial
  | 2 | 4 | 7 => ⟨_, rfl⟩
  | 3 => ⟨⟨.file, rfl⟩, ⟨some "a", rfl⟩, ⟨none, rfl⟩, ⟨none, rfl⟩, ⟨[], rfl⟩, ⟨[], rfl⟩⟩
  | 5 => ⟨⟨.file, rfl⟩, ⟨some "b", rfl⟩, ⟨none, rfl⟩, ⟨none, rfl⟩, ⟨[], rfl⟩, ⟨[], rfl⟩⟩
  | 8 => ⟨⟨.file, rfl⟩, ⟨some "c", rfl⟩, ⟨none, rfl⟩, ⟨none, rfl⟩, ⟨[], rfl⟩, ⟨[], rfl⟩⟩

namespace Descriptor

open Assembly

variable {draft : Draft} {d : Descriptor} {context context' : Mapping Value}

theorem assemble_eq_mapM {s : Setup} (hs : s.Accepted) (hl : s.descriptor.ListsTexts context) :
    s.descriptor.assemble context =
      (s.descriptor.nodes.filter (s.descriptor.emits context)).mapM convert :=
  collect_eq_filter hs hl _ (root_mem_nodes _) opens_root

/-- A context of tuples of texts. -/
def choosing (choices : Mapping (List String)) : Mapping Value :=
  choices.map fun c => (c.1, .tuple (c.2.map .str))

theorem listsTexts_choosing (d : Descriptor) (choices : Mapping (List String)) :
    d.ListsTexts (choosing choices) := by
  intro n _ q path answer _ _ _ hv
  obtain ⟨c, -, hc⟩ := List.mem_map.mp (Mapping.mem_of_get? hv)
  exact ⟨c.2, (Prod.mk.inj hc).2.symm⟩

/-- **The assembly is a filter in document order.** Over an accepted descriptor, in any context with
tuples of texts as the answers to list questions, the directives are those of the emitted outputs,
in document order and none of them twice. -/
theorem assemble_eq_filter (hd : draft.accept = .ok d) (hl : d.ListsTexts context) :
    d.assemble context = (d.nodes.filter (d.emits context)).mapM convert ∧
      (d.nodes.filter (d.emits context)).Nodup := by
  obtain ⟨s, hs⟩ := exists_new hd {}
  obtain ⟨haccepted, rfl, -⟩ := accepted_of_new hd hs
  refine ⟨assemble_eq_mapM haccepted hl, ?_⟩
  refine (s.descriptor.pairwise_nodes.filter _).imp ?_
  rintro m _ hprec rfl
  exact Node.not_precedes_self m hprec

/-- With one of two options chosen, the output below it is the one emitted. -/
theorem twoLists_assemble_eq : ∃ d, Draft.twoLists.accept = .ok d ∧
    ∃ context, context = choosing [("tools", ["test"])] ∧ d.ListsTexts context ∧
      (d.nodes.filter (d.emits context)).map Node.id? = [some 5] ∧
      d.assemble context = (d.nodes.filter (d.emits context)).mapM convert ∧
      (d.nodes.filter (d.emits context)).Nodup := by
  obtain ⟨d, hd⟩ : ∃ d, Draft.twoLists.accept = .ok d := ⟨_, rfl⟩
  have hlists := listsTexts_choosing d [("tools", ["test"])]
  refine ⟨d, hd, _, rfl, hlists, ?_, assemble_eq_filter hd hlists⟩
  obtain rfl := Except.ok.inj hd
  rfl

/-- **More bound values never remove a directive.** Over an accepted descriptor, with tuples of
texts as the answers to list questions, the directives in a context are a sublist of those in a
context that binds as much and more: they can be assembled whenever those can be, and if the draft
is well typed then both can be. -/
theorem assemble_sublist (hd : draft.accept = .ok d) (hl : d.ListsTexts context')
    (h : Mapping.Within context context') :
    (∀ ds', d.assemble context' = .ok ds' →
      ∃ ds, d.assemble context = .ok ds ∧ ds.Sublist ds') ∧
    (draft.WellTyped → ∃ ds ds', d.assemble context = .ok ds ∧ d.assemble context' = .ok ds' ∧
      ds.Sublist ds') := by
  obtain ⟨s, hs⟩ := exists_new hd {}
  obtain ⟨haccepted, rfl, -⟩ := accepted_of_new hd hs
  have hsub : ∀ ds', s.descriptor.assemble context' = .ok ds' →
      ∃ ds, s.descriptor.assemble context = .ok ds ∧ ds.Sublist ds' := by
    intro ds' hds'
    rw [assemble_eq_mapM haccepted hl] at hds'
    rw [assemble_eq_mapM haccepted (hl.of_within h)]
    exact exists_sublist_mapM (List.monotone_filter_right _ fun n => emits_mono h) hds'
  refine ⟨hsub, fun htyped => ?_⟩
  obtain ⟨ds', hds'⟩ := exists_collect haccepted (htyped.of_accept hd)
    (selects_of_listsTexts haccepted hl) _ haccepted.meets_root
  obtain ⟨ds, hds, hsublist⟩ := hsub ds' hds'
  exact ⟨ds, ds', hds, hds', hsublist⟩

/-- An answer to the second question adds a directive to that of the first. -/
theorem twoLists_sublist : ∃ d, Draft.twoLists.accept = .ok d ∧
    ∃ ds ds', d.assemble (choosing [("tools", ["test"])]) = .ok ds ∧
      d.assemble (choosing [("tools", ["test"]), ("docs", ["site"])]) = .ok ds' ∧
      ds.Sublist ds' ∧ ds.length = 1 ∧ ds'.length = 2 := by
  obtain ⟨d, hd⟩ : ∃ d, Draft.twoLists.accept = .ok d := ⟨_, rfl⟩
  have hwithin : Mapping.Within (choosing [("tools", ["test"])])
      (choosing [("tools", ["test"]), ("docs", ["site"])]) :=
    fun _ _ hv => Mapping.get?_of_prefix (List.prefix_append _ _) hv
  obtain ⟨-, hboth⟩ := assemble_sublist hd
    (listsTexts_choosing d [("tools", ["test"]), ("docs", ["site"])]) hwithin
  obtain ⟨ds, ds', hds, hds', hsub⟩ := hboth Draft.twoLists_wellTyped
  refine ⟨d, hd, ds, ds', hds, hds', hsub, ?_⟩
  obtain rfl := Except.ok.inj hd
  obtain rfl := Except.ok.inj hds
  obtain rfl := Except.ok.inj hds'
  exact ⟨rfl, rfl⟩

end Descriptor

end Scaffold
