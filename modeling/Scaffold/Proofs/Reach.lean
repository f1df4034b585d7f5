import Scaffold.Assembly
import Scaffold.Proofs.Accepted
import Scaffold.Proofs.Env

/-! # What a traversal reaches

`Assembly.shown` gives the nodes that the traversal of the bound values goes on to from a node, and
`Assembly.Reaches` what it comes to in the end. From a node that is no output, the traversal
collects what it collects from the nodes shown there (`collect_eq_shown`); so where two contexts
show the same, it collects the same (`collect_congr`).

More bound values never hide a node (`Reaches.mono`). -/

namespace Scaffold

namespace Tree

variable {α : Type}

/-- A property that passes to a tree from its children and from their children holds of every
tree. -/
theorem inner_induction {P : Tree α → Prop}
    (h : ∀ t : Tree α, (∀ c ∈ t.children, P c) → (∀ c ∈ t.children, ∀ g ∈ c.children, P g) → P t)
    (t : Tree α) : P t := by
  suffices P t ∧ ∀ c ∈ t.children, P c from this.1
  induction t using Tree.induction with
  | node a cs ih =>
    exact ⟨h _ (fun c hc => (ih c hc).1) (fun c hc => (ih c hc).2), fun c hc => (ih c hc).1⟩

end Tree

namespace Assembly

/-- The nodes that the traversal of the bound values goes on to from a node. -/
def shown (context : Mapping Value) (n : Node) : List Node :=
  match Node.content n with
  | .question _ =>
    match Node.path n with
    | .ok path =>
      match context.get? path with
      | some answer =>
        match Branch.ofAnswer n answer with
        | .ok b => b.nodes n.children
        | .error _ => []
      | none => []
    | .error _ => []
  | .conditional path expected => if holds context path expected then n.children else []
  | .group | .step .. | .option .. => n.children
  | _ => []

/-- The traversal of the bound values comes from the first node to the second. -/
inductive Reaches (context : Mapping Value) : Node → Node → Prop
  | refl (n : Node) : Reaches context n n
  | step {l m n : Node} : m ∈ shown context l → Reaches context m n → Reaches context l n

variable {context context' : Mapping Value}

/-! ### What is shown -/

theorem shown_question {n : Node} {q : Question} (hq : Node.content n = .question q)
    {path : String} (hp : Node.path n = .ok path) : shown context n =
      match context.get? path with
      | some answer =>
        match Branch.ofAnswer n answer with
        | .ok b => b.nodes n.children
        | .error _ => []
      | none => [] := by
  rw [shown, hq]
  simp only [hp]

theorem shown_answered {n : Node} {q : Question} (hq : Node.content n = .question q)
    {path : String} (hp : Node.path n = .ok path) {v : Value} (hv : context.get? path = some v)
    {b : Branch} (hb : Branch.ofAnswer n v = .ok b) : shown context n = b.nodes n.children := by
  rw [shown_question hq hp, hv]
  simp only [hb]

theorem shown_unanswered {n : Node} {q : Question} (hq : Node.content n = .question q)
    {path : String} (hp : Node.path n = .ok path) (hv : context.get? path = none) :
    shown context n = [] := by
  rw [shown_question hq hp, hv]

theorem shown_conditional {n : Node} {path : String} {expected : Value}
    (hc : Node.content n = .conditional path expected) :
    shown context n = if holds context path expected then n.children else [] := by
  rw [shown, hc]

theorem holds_mono (h : Mapping.Within context context') {path : String}
    {expected : Value} (hh : holds context path expected = true) :
    holds context' path expected = true := by
  unfold holds at hh ⊢
  split at hh
  next v hv => rwa [h path v hv]
  next => cases hh

/-- A question that shows a node has an answer that selects the node. -/
theorem exists_answer_of_mem_shown {m n : Node} {q : Question} (hq : Node.content n = .question q)
    {path : String} (hp : Node.path n = .ok path) (h : m ∈ shown context n) :
    ∃ v b, context.get? path = some v ∧ Branch.ofAnswer n v = .ok b ∧ m ∈ b.nodes n.children := by
  rw [shown_question hq hp] at h
  split at h
  next v hv =>
    split at h
    next b hb => exact ⟨v, b, hv, hb, h⟩
    next => cases h
  next => cases h

/-- A conditional that shows a node holds. -/
theorem holds_of_mem_shown {m n : Node} {path : String} {expected : Value}
    (hc : Node.content n = .conditional path expected) (h : m ∈ shown context n) :
    ∃ v, context.get? path = some v ∧ v.equal expected = true := by
  rw [shown_conditional hc] at h
  split_ifs at h with hh
  · unfold holds at hh
    split at hh
    next v hv => exact ⟨v, hv, hh⟩
    next => cases hh
  · cases h

/-- More bound values show no less. -/
theorem mem_shown_mono (h : Mapping.Within context context')
    {m n : Node} (hm : m ∈ shown context n) : m ∈ shown context' n := by
  cases hc : Node.content n with
  | question q =>
    unfold shown at hm ⊢
    simp only [hc] at hm ⊢
    split at hm
    next path _ =>
      split at hm
      next v hv => simpa only [h path v hv] using hm
      next => simp at hm
    next => simp at hm
  | conditional path expected =>
    rw [shown_conditional hc] at hm ⊢
    split_ifs at hm with hh
    · rwa [if_pos (holds_mono h hh)]
    · simp at hm
  | _ => simpa only [shown, hc] using hm

theorem Reaches.mono (h : Mapping.Within context context')
    {m n : Node} (hr : Reaches context m n) : Reaches context' m n := by
  induction hr with
  | refl n => exact .refl n
  | step hm _ ih => exact .step (mem_shown_mono h hm) ih

theorem Reaches.trans {l m n : Node} (h : Reaches context l m) (h' : Reaches context m n) :
    Reaches context l n := by
  induction h with
  | refl => exact h'
  | step hm _ ih => exact .step hm (ih h')

/-- The last step on the way to a node. -/
theorem Reaches.eq_or_exists_shown {l n : Node} (h : Reaches context l n) :
    l = n ∨ ∃ m, Reaches context l m ∧ n ∈ shown context m := by
  induction h with
  | refl n => exact .inl rfl
  | @step l m n hm _ ih =>
    rcases ih with rfl | ⟨k, hk, hn⟩
    · exact .inr ⟨l, .refl l, hm⟩
    · exact .inr ⟨k, .step hm hk, hn⟩

/-! ### Gates -/

/-- The node is a gate that is shut: a question without an answer, or a conditional that does not
hold. -/
def shut (context : Mapping Value) (n : Node) : Bool :=
  match Node.content n with
  | .question _ =>
    match Node.path n with
    | .ok path => (context.get? path).isNone
    | .error _ => true
  | .conditional path expected => !holds context path expected
  | _ => false

theorem shut_question {n : Node} {q : Question} (hq : Node.content n = .question q)
    {path : String} (hp : Node.path n = .ok path) :
    shut context n = (context.get? path).isNone := by
  rw [shut, hq]
  simp only [hp]

theorem shut_conditional {n : Node} {path : String} {expected : Value}
    (hc : Node.content n = .conditional path expected) :
    shut context n = !holds context path expected := by
  rw [shut, hc]

theorem shown_of_shut {n : Node} (h : shut context n = true) : shown context n = [] := by
  unfold shut at h
  split at h
  next q hq =>
    split at h
    next path hp => exact shown_unanswered hq hp (Option.isNone_iff_eq_none.mp h)
    next f hp => simp only [shown, hq, hp]
  next path expected hc =>
    rw [shown_conditional hc, if_neg (by simpa using h)]
  next => cases h

/-- What an answer selects lies below its question, directly or below an option. -/
theorem mem_children_of_mem_branch {b : Branch} {cs : List Node} {m : Node}
    (h : m ∈ b.nodes cs) :
    m ∈ cs ∨ ∃ c ∈ cs, (Node.content c).option?.isSome = true ∧ m ∈ c.children := by
  cases b with
  | all => exact .inl h
  | nothing => simp [Branch.nodes] at h
  | options selected =>
    obtain ⟨c, hc, h⟩ := List.mem_flatMap.mp h
    split at h
    next v hv =>
      split_ifs at h
      · exact .inr ⟨c, hc, by rw [hv]; rfl, h⟩
      · simp at h
    next => simp at h

theorem subtrees_branch_sublist (b : Branch) (cs : List Node) :
    ((b.nodes cs).flatMap Tree.subtrees).Sublist (Tree.subtreesAll cs) := by
  cases b with
  | all => rw [Tree.subtreesAll_eq_flatMap]; exact List.Sublist.refl _
  | nothing => exact List.nil_sublist _
  | options selected =>
    induction cs with
    | nil => exact List.Sublist.refl _
    | cons c cs ih =>
      obtain ⟨site, gs⟩ := c
      simp only [Branch.nodes, List.flatMap_cons, List.flatMap_append] at ih ⊢
      refine List.Sublist.append ?_ ih
      rw [Tree.subtrees, Tree.subtreesAll_eq_flatMap]
      refine List.Sublist.cons _ ?_
      split
      · split_ifs
        · exact List.Sublist.refl _
        · exact List.nil_sublist _
      · exact List.nil_sublist _

theorem mem_children_of_mem_shown {m n : Node} (h : m ∈ shown context n) :
    m ∈ n.children ∨
      ∃ c ∈ n.children, (Node.content c).option?.isSome = true ∧ m ∈ c.children := by
  cases hc : Node.content n <;> simp only [shown, hc, List.not_mem_nil] at h
  case question =>
    split at h
    · split at h
      · split at h
        · exact mem_children_of_mem_branch h
        · simp at h
      · simp at h
    · simp at h
  case conditional =>
    split_ifs at h
    · exact .inl h
    · simp at h
  all_goals exact .inl h

/-- What is reached lies below. -/
theorem Reaches.mem_subtrees {m n : Node} (h : Reaches context m n) : n ∈ m.subtrees := by
  induction h with
  | refl n => exact Tree.mem_subtrees_self n
  | @step l m n hm _ ih =>
    have hl : m ∈ l.subtrees := by
      rcases mem_children_of_mem_shown hm with hm | ⟨c, hc, -, hm⟩
      · exact Tree.mem_subtrees_of_mem_children (Tree.mem_subtrees_self l) hm
      · exact Tree.mem_subtrees_of_mem_children
          (Tree.mem_subtrees_of_mem_children (Tree.mem_subtrees_self l) hc) hm
    exact Tree.mem_subtrees_trans l hl ih

/-! ### What is collected -/

theorem collectAll_append (xs ys : List Node) : collectAll context (xs ++ ys) =
    match collectAll context xs with
    | .error f => .error f
    | .ok ds => (collectAll context ys).map (ds ++ ·) := by
  induction xs with
  | nil => cases h : collectAll context ys <;> simp [collectAll, Except.map, h]
  | cons x xs ih =>
    rw [List.cons_append, collectAll, collectAll, ih]
    cases collect context x with
    | error f => rfl
    | ok ds =>
      cases collectAll context xs with
      | error f => rfl
      | ok es =>
        cases collectAll context ys with
        | error f => rfl
        | ok fs => simp [Except.map]

theorem collectOptions_eq (selected : Value → Bool) (cs : List Node) :
    collectOptions context selected cs =
      collectAll context ((Branch.options selected).nodes cs) := by
  induction cs with
  | nil => rfl
  | cons c cs ih =>
    obtain ⟨site, gs⟩ := c
    rw [collectOptions]
    simp only [Branch.nodes, List.flatMap_cons] at ih ⊢
    rw [collectAll_append, ← ih]
    have hsite : (Node.content (.node site gs)).option? = site.label.content.option? := rfl
    rw [hsite]
    cases site.label.content.option? with
    | none => cases collectOptions context selected cs <;> simp [collectAll, Except.map]
    | some v =>
      by_cases hv : selected v = true
      · simp only [hv, if_true]
        rfl
      · cases collectOptions context selected cs <;> simp [hv, collectAll, Except.map]

/-- The answers to questions in a context select branches. -/
def Selects (s : Setup) (context : Mapping Value) : Prop :=
  ∀ path n v, s.inputs.get? path = some n → context.get? path = some v →
    ∃ b, Branch.ofAnswer n v = .ok b

variable {s : Setup}

/-- From a node that is no output, what is collected is collected from the nodes shown. -/
theorem collect_eq_shown (hs : s.Accepted) (hsel : Selects s context) {n : Node}
    (hn : s.Meets n) (ho : ∀ r, Node.content n ≠ .output r) :
    collect context n = collectAll context (shown context n) := by
  have hcase := hn.content_cases
  obtain ⟨site, cs⟩ := n
  have hsite : site.label.content = Node.content (.node site cs) := rfl
  rcases hcase with hc | ⟨q, hc⟩ | ⟨path, v, hc⟩ | hc | ⟨l, help, hc⟩ | ⟨r, hc⟩
  · simp only [collect, shown, hsite, hc, collectAll]
  · obtain ⟨path, hp, hfits⟩ := hs.question hn.1 hc
    simp only [collect, hsite, hc, hfits.concrete, if_true, hp]
    rw [shown_question hc hp]
    cases hv : context.get? path with
    | none => rfl
    | some v =>
      have hinput := hs.get?_iff.mpr ⟨hn.1, ⟨q, Node.question?_eq_some.mpr hc⟩, hp⟩
      obtain ⟨b, hb⟩ := hsel path _ v hinput hv
      simp only [hb]
      cases b with
      | all => rfl
      | nothing => rfl
      | options selected => exact collectOptions_eq selected cs
  · rw [shown_conditional hc]
    simp only [collect, hsite, hc]
    split_ifs <;> rfl
  · simp only [collect, shown, hsite, hc]; rfl
  · simp only [collect, shown, hsite, hc]; rfl
  · exact absurd hc (ho r)

theorem meets_of_mem_shown (hs : s.Accepted) {m n : Node} (hn : s.Meets n)
    (hm : m ∈ shown context n) : s.Meets m := by
  rcases hn.content_cases with hc | ⟨q, hc⟩ | ⟨path, v, hc⟩ | hc | ⟨l, help, hc⟩ | ⟨r, hc⟩
  · simp [shown, hc] at hm
  · obtain ⟨path, hp, -⟩ := hs.question hn.1 hc
    obtain ⟨v, b, -, hb, hm⟩ := exists_answer_of_mem_shown hc hp hm
    exact hn.of_mem_branch hs hc hb hm
  · rw [shown_conditional hc] at hm
    split_ifs at hm
    · exact hn.of_mem_children (by rw [hc]; rfl) hm
    · simp at hm
  · exact hn.of_mem_children (by rw [hc]; rfl) (by simpa only [shown, hc] using hm)
  · exact hn.of_mem_children (by rw [hc]; rfl) (by simpa only [shown, hc] using hm)
  · simp [shown, hc] at hm

theorem Reaches.meets (hs : s.Accepted) {m n : Node} (h : Reaches context m n)
    (hm : s.Meets m) : s.Meets n := by
  induction h with
  | refl => exact hm
  | step hk _ ih => exact ih (meets_of_mem_shown hs hm hk)

theorem collectAll_congr {ns : List Node} (h : ∀ n ∈ ns, collect context n = collect context' n) :
    collectAll context ns = collectAll context' ns := by
  induction ns with
  | nil => rfl
  | cons n ns ih =>
    rw [collectAll, collectAll, h n (by simp), ih fun m hm => h m (by simp [hm])]

/-- Contexts that show the same from every node reached give the same directives. -/
theorem collect_congr (hs : s.Accepted) (hsel : Selects s context) (hsel' : Selects s context')
    (n : Node) : s.Meets n →
      (∀ m, Reaches context n m → shown context m = shown context' m) →
      collect context n = collect context' n := by
  induction n using Tree.inner_induction with
  | h n ihc ihg =>
    intro hn hshown
    by_cases ho : ∃ r, Node.content n = .output r
    · obtain ⟨r, hr⟩ := ho
      obtain ⟨site, cs⟩ := n
      have hr' : site.label.content = .output r := hr
      simp only [collect, hr']
    · rw [collect_eq_shown hs hsel hn fun r hr => ho ⟨r, hr⟩,
        collect_eq_shown hs hsel' hn fun r hr => ho ⟨r, hr⟩, ← hshown n (.refl n)]
      refine collectAll_congr fun m hm => ?_
      have hmeets := meets_of_mem_shown hs hn hm
      have hbelow : ∀ k, Reaches context m k → shown context k = shown context' k :=
        fun k hk => hshown k (.step hm hk)
      rcases mem_children_of_mem_shown hm with hm | ⟨c, hc, -, hm⟩
      · exact ihc m hm hmeets hbelow
      · exact ihg c hc m hm hmeets hbelow

/-- The directives depend on what is found under the paths alone. -/
theorem collect_of_get?_eq {context context' : Mapping Value}
    (h : ∀ path, context.get? path = context'.get? path) (n : Node) :
    collect context n = collect context' n := by
  have hholds : ∀ path expected, holds context path expected = holds context' path expected :=
    fun path expected => by rw [holds, holds, h]
  induction n using Tree.inner_induction with
  | h n ihc ihg =>
    obtain ⟨site, cs⟩ := n
    have hall : collectAll context cs = collectAll context' cs := collectAll_congr ihc
    have hoptions : ∀ selected,
        collectOptions context selected cs = collectOptions context' selected cs := by
      intro selected
      rw [collectOptions_eq, collectOptions_eq]
      refine collectAll_congr fun m hm => ?_
      rcases mem_children_of_mem_branch hm with hm | ⟨c, hc, -, hm⟩
      · exact ihc m hm
      · exact ihg c hc m hm
    simp only [collect, h, hall, hoptions, hholds]

end Assembly

/-! ### Sound environments as contexts -/

namespace Env

theorem get?_values (env : Env) (path : String) :
    env.values.get? path = (Mapping.get? env path).map Binding.value :=
  Mapping.get?_map Binding.value env path

theorem within_values {env env' : Env} (h : env <+: env') :
    Mapping.Within env.values env'.values := by
  intro path v hv
  rw [get?_values] at hv ⊢
  obtain ⟨b, hb, rfl⟩ := Option.map_eq_some_iff.mp hv
  rw [Mapping.get?_of_prefix h hb]
  rfl

theorem Sound.selects {s : Setup} (hs : s.Accepted) {limit : Int} {env : Env}
    (h : Sound s.inputs.get? limit env) : Assembly.Selects s env.values := by
  intro path n v hn hv
  rw [get?_values] at hv
  obtain ⟨b, hb, rfl⟩ := Option.map_eq_some_iff.mp hv
  obtain ⟨q, hq, -, hnormal⟩ := h.normal path n b hn hb
  obtain ⟨hmem, -, -⟩ := hs.get?_iff.mp hn
  obtain ⟨_, -, hfits⟩ := hs.question hmem (Node.question?_eq_some.mp hq)
  exact Branch.exists_ofAnswer hq hnormal hfits.choices

end Env

end Scaffold
