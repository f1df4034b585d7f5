import Scaffold.Scan
import Scaffold.Proofs.Reach

/-! # Meeting a node

`Setup.meet` tells what a scan does at one node: it passes the node and goes on to what is active
below it, or finds that the node is due, or fails.

* `Setup.Fate`, `Accepted.fate`: what becomes of a question, with all that may happen to it.
* `Setup.Passage`, `Accepted.passage`: what passing a node does, with the conditions for it.
* `Setup.Trips`, `Accepted.trips_of_fail`: how the scan fails where a traversal can come; it is a
  fault of binding (`Trips.ofBinding`), and one of the data where all values can be written
  (`Trips.ne_oversized`). -/

namespace Scaffold

/-- What a scan does at one node. -/
inductive Meeting where
  | pass (env : Env) (active : List Node)
  | due
  | fail (env : Env) (fault : Fault)

namespace Setup

/-- What a scan does at a node in an environment. -/
def meet (s : Setup) (env : Env) (n : Node) : Meeting :=
  match Node.content n with
  | .preset =>
    match s.supply env (.ofNode n) n with
    | .ok (env, _) => .pass env []
    | .error f => .fail env f
  | .question q =>
    if q.form.isConcrete then
      match s.resolve env n q with
      | .error f => .fail env f
      | .ok .skipped => .pass env []
      | .ok .pending => .due
      | .ok (.answered env _ value) =>
        match Branch.ofAnswer n value with
        | .error f => .fail env f
        | .ok b => .pass env (b.nodes n.children)
    else .fail env (.unhandled (.scan q.form.variant))
  | .conditional path expected =>
    .pass env (if satisfies env path expected then n.children else [])
  | .group | .step .. => .pass env n.children
  | .output _ => .pass env []
  | .option .. | .binding .. | .model .. =>
    .fail env (.unhandled (.misplaced (Node.content n).variant))
  | .other v => .fail env (.unhandled (.scan v))

variable {s : Setup} {env out : Env} {n : Node}

/-- The setup that accepts defaults, or does not. -/
def accepting (s : Setup) (accept : Bool) : Setup :=
  { s with settings := { s.settings with acceptDefaults := accept } }

theorem Accepted.accepting (hs : s.Accepted) (accept : Bool) : (s.accepting accept).Accepted :=
  ⟨hs.check, hs.inputs⟩

theorem accepting_self (s : Setup) : s.accepting s.settings.acceptDefaults = s := rfl

theorem satisfies_eq_holds (env : Env) (path : String) (expected : Value) :
    satisfies env path expected = Assembly.holds env.values path expected := by
  unfold satisfies Assembly.holds
  rw [Env.get?_values]
  cases Mapping.get? env path <;> rfl

/-- The environment is one that the setup leads to. -/
abbrev Sound (s : Setup) (env : Env) : Prop :=
  Env.Sound s.inputs.get? s.settings.maxContextSize env

theorem sound_nil (s : Setup) : s.Sound [] :=
  Env.sound_nil s.settings.maxContextSize_nonneg

/-! ### Binding -/

theorem supply_of_scope {anchor : Node} {scope : String} (h : Node.scope anchor = .ok scope)
    (env : Env) (batch : Batch) : s.supply env batch anchor =
      (env.merge batch scope s.inputs.get? s.settings.maxContextSize).map fun merged =>
        (merged, .merged (merged.length - env.length) scope) := by
  have hs : (Except.ok scope : Except Flaw String).mapError Fault.flaw = .ok scope :=
    Fallible.mapError_ok.mpr rfl
  rw [supply, h, hs]
  cases h' : env.merge batch scope s.inputs.get? s.settings.maxContextSize <;>
    simp [bind, Except.bind, Except.map, h', pure, Except.pure]

/-- At a preset the scan merges the members and goes on to nothing. -/
theorem meet_preset (hc : Node.content n = .preset) {scope : String}
    (h : Node.scope n = .ok scope) : s.meet env n =
      match env.merge (.ofNode n) scope s.inputs.get? s.settings.maxContextSize with
      | .ok merged => .pass merged []
      | .error f => .fail env f := by
  simp only [meet, hc, supply_of_scope h]
  cases env.merge (.ofNode n) scope s.inputs.get? s.settings.maxContextSize <;> rfl

theorem pass_preset_iff (hc : Node.content n = .preset) {scope : String}
    (h : Node.scope n = .ok scope) {active : List Node} : s.meet env n = .pass out active ↔
      env.merge (.ofNode n) scope s.inputs.get? s.settings.maxContextSize = .ok out ∧
        active = [] := by
  rw [meet_preset hc h]
  cases env.merge (.ofNode n) scope s.inputs.get? s.settings.maxContextSize with
  | error f => simp
  | ok merged => simp [eq_comm]

/-- The entry that the value of a question gets. -/
def entry (n : Node) (path : String) (v : Value) : String × Binding :=
  (path, ⟨path, v, Node.directory n⟩)

section Default

variable {q : Question} {path : String}

theorem get?_default (hu : env.get? path = none) {w : Value} :
    Mapping.get? (env ++ [entry n path w]) path = some ⟨path, w, Node.directory n⟩ := by
  rw [Mapping.get?_append, hu]
  simp [Mapping.get?, entry]

theorem of_get?_default {w : Value} {path' : String} {b : Binding}
    (hb : Mapping.get? (env ++ [entry n path w]) path' = some b) :
    env.get? path' = some b ∨ path' = path ∧ b.value = w := by
  rw [Mapping.get?_append] at hb
  rcases Option.or_eq_some_iff.mp hb with hb | ⟨-, hb⟩
  · exact .inl hb
  · obtain ⟨rfl, rfl⟩ : path' = path ∧ b = ⟨path, w, Node.directory n⟩ := by
      simpa [entry] using Mapping.mem_of_get? hb
    exact .inr ⟨rfl, rfl⟩

theorem Accepted.isEmpty_name (hs : s.Accepted) (hn : n ∈ s.descriptor.nodes)
    (hq : Node.content n = .question q) : q.name.isEmpty = false := by
  obtain ⟨_, -, hfits⟩ := hs.question hn hq
  have hname := hfits.name
  simp only [Analysis.isName, Bool.and_eq_true, Bool.not_eq_true'] at hname
  exact hname.1

theorem Accepted.isEmpty_path (hs : s.Accepted) (hn : n ∈ s.descriptor.nodes)
    (hq : Node.content n = .question q) (hp : Node.path n = .ok path) : path.isEmpty = false := by
  obtain ⟨scope, -, rfl⟩ := (Node.question_path_iff hq).mp hp
  exact Env.isEmpty_join (hs.isEmpty_name hn hq)

theorem Accepted.sound_default (hs : s.Accepted) (henv : s.Sound env)
    (hn : n ∈ s.descriptor.nodes) (hq : Node.content n = .question q)
    (hp : Node.path n = .ok path) (hu : env.get? path = none) {w : Value}
    (hw : Answer.coerce n q.fallback path = .ok w)
    (hroom : ¬ s.settings.maxContextSize < (env ++ [entry n path w]).length) :
    s.Sound (env ++ [entry n path w]) := by
  refine henv.append _ hu (hs.isEmpty_path hn hq hp) (fun m hm => ?_) (Int.not_lt.mp hroom)
  have hinput := hs.get?_iff.mpr ⟨hn, ⟨q, Node.question?_eq_some.mpr hq⟩, hp⟩
  obtain rfl : n = m := Option.some.inj (hinput.symm.trans hm)
  exact Answer.normal_of_coerce hw

/-- A value under the name of a question without an answer is coerced and put at the end, if there
is room for it. -/
theorem Accepted.merge_name (hs : s.Accepted) (hn : n ∈ s.descriptor.nodes) {q : Question}
    (hq : Node.content n = .question q) {scope : String} (hscope : Node.scope n = .ok scope)
    (hu : env.get? (Path.join scope q.name) = none) (v : Value) (directory : String) :
    env.merge (.ofPairs [(q.name, v)] directory) scope s.inputs.get? s.settings.maxContextSize =
      Answer.coerce n v (Path.join scope q.name) >>= fun w =>
        if s.settings.maxContextSize < (env.length + 1 : Nat) then
          .error (.data (.overflow (env.length + 1) s.settings.maxContextSize))
        else
          .ok (env ++ [(Path.join scope q.name, ⟨Path.join scope q.name, w, directory⟩)]) := by
  have hp : Node.path n = .ok (Path.join scope q.name) :=
    (Node.question_path_iff hq).mpr ⟨scope, hscope, rfl⟩
  have hinput := hs.get?_iff.mpr ⟨hn, ⟨q, Node.question?_eq_some.mpr hq⟩, hp⟩
  have hsettle : Env.settle s.inputs.get? (Path.join scope q.name) v =
      Answer.coerce n v (Path.join scope q.name) := by
    rw [Env.settle, hinput]
  have hname : q.name.isEmpty = false := hs.isEmpty_name hn hq
  rw [Env.merge_single hname hu, hsettle, Env.overflow_of_nonneg s.settings.maxContextSize_nonneg]

/-- The default of a question that is not bound is put at the end, if there is room for it. -/
theorem Accepted.acceptDefault_eq (hs : s.Accepted) (hn : n ∈ s.descriptor.nodes)
    (hq : Node.content n = .question q) (hp : Node.path n = .ok path)
    (hu : env.get? path = none) {w : Value} (hw : Answer.coerce n q.fallback path = .ok w) :
    (s.acceptDefault env n).map Prod.fst =
      if s.settings.maxContextSize < (env ++ [entry n path w]).length then
        .error (.data (.overflow (env ++ [entry n path w]).length s.settings.maxContextSize))
      else .ok (env ++ [entry n path w]) := by
  obtain ⟨scope, hscope, rfl⟩ := (Node.question_path_iff hq).mp hp
  obtain ⟨shown, hshown⟩ := Option.isSome_iff_exists.mp (Answer.writable_of_coerce hw)
  rw [acceptDefault, Node.question?_eq_some.mpr hq, List.length_append, List.length_singleton]
  simp only [answer, hq, Content.name?, supply_of_scope hscope, hs.merge_name hn hq hscope hu, hw,
    hp, hshown]
  show Except.map _ (Except.bind (Except.map _ (ite _ _ _)) _) = _
  split_ifs <;> rfl

/-- What becomes of a question at a path, and what the scan does then. -/
inductive Fate (s : Setup) (env : Env) (n : Node) (q : Question) (path : String) :
    Meeting → Prop
  | answered {b : Binding} {br : Branch} (bound : env.get? path = some b)
      (branch : Branch.ofAnswer n b.value = .ok br) :
      Fate s env n q path (.pass env (br.nodes n.children))
  | skipped (unbound : env.get? path = none) (optional : q.isOptional = true)
      (bare : q.hasFallback = false) : Fate s env n q path (.pass env [])
  | defaulted {w : Value} {br : Branch} (unbound : env.get? path = none)
      (fallback : q.hasFallback = true)
      (taken : (q.isOptional || s.settings.acceptDefaults) = true)
      (value : Answer.coerce n q.fallback path = .ok w) (branch : Branch.ofAnswer n w = .ok br)
      (room : ¬ s.settings.maxContextSize < (env ++ [entry n path w]).length) :
      Fate s env n q path (.pass (env ++ [entry n path w]) (br.nodes n.children))
  | overflows {w : Value} (unbound : env.get? path = none) (fallback : q.hasFallback = true)
      (taken : (q.isOptional || s.settings.acceptDefaults) = true)
      (value : Answer.coerce n q.fallback path = .ok w)
      (full : s.settings.maxContextSize < (env ++ [entry n path w]).length) :
      Fate s env n q path (.fail env (.data (.overflow (env ++ [entry n path w]).length
        s.settings.maxContextSize)))
  | due (unbound : env.get? path = none) (required : q.isOptional = false)
      (waits : (s.settings.acceptDefaults && q.hasFallback) = false) : Fate s env n q path .due

/-- A default that is an answer to its question selects a branch. -/
theorem Accepted.exists_default (hs : s.Accepted) (hn : n ∈ s.descriptor.nodes)
    (hq : Node.content n = .question q) (hp : Node.path n = .ok path)
    (hf : q.hasFallback = true) :
    ∃ w br, Answer.coerce n q.fallback path = .ok w ∧ Branch.ofAnswer n w = .ok br := by
  obtain ⟨path', hp', hfits⟩ := hs.question hn hq
  obtain rfl : path = path' := Except.ok.inj (hp.symm.trans hp')
  obtain ⟨w, hw⟩ := hfits.fallback hf
  obtain ⟨q', hq', -, hnormal⟩ := Answer.normal_of_coerce hw
  obtain rfl : q = q' := Content.question.inj (hq.symm.trans (Node.question?_eq_some.mp hq'))
  obtain ⟨br, hbr⟩ := Branch.exists_ofAnswer hq' hnormal hfits.choices
  exact ⟨w, br, hw, hbr⟩

/-- Accepting the default of a question either works, or there is no room for it. -/
theorem Accepted.acceptDefault_cases (hs : s.Accepted) (henv : s.Sound env)
    (hn : n ∈ s.descriptor.nodes) (hq : Node.content n = .question q)
    (hp : Node.path n = .ok path) (hu : env.get? path = none) (hf : q.hasFallback = true) :
    (∃ w events, s.acceptDefault env n = .ok (env ++ [entry n path w], events) ∧
      s.Sound (env ++ [entry n path w])) ∨ ∃ d, s.acceptDefault env n = .error (.data d) := by
  obtain ⟨w, -, hw, -⟩ := hs.exists_default hn hq hp hf
  have hdefault := hs.acceptDefault_eq hn hq hp hu hw
  split_ifs at hdefault with hroom
  · exact .inr ⟨_, Fallible.map_error.mp hdefault⟩
  · obtain ⟨⟨out, events⟩, hout, rfl⟩ := Fallible.map_ok.mp hdefault
    exact .inl ⟨w, events, hout, hs.sound_default henv hn hq hp hu hw hroom⟩

theorem resolve_bound (hp : Node.path n = .ok path) {b : Binding} (hb : env.get? path = some b) :
    s.resolve env n q = .ok (.answered env [] b.value) := by
  rw [resolve, hp]
  simp only [bind, Except.bind, hb]
  rfl

theorem resolve_skipped (hp : Node.path n = .ok path) (hu : env.get? path = none)
    (h : (q.isOptional && !q.hasFallback) = true) : s.resolve env n q = .ok .skipped := by
  rw [resolve, hp]
  simp only [bind, Except.bind, hu, h, if_true]
  rfl

theorem resolve_pending (hp : Node.path n = .ok path) (hu : env.get? path = none)
    (h : (q.isOptional && !q.hasFallback) = false)
    (h' : (q.isOptional || s.settings.acceptDefaults && q.hasFallback) = false) :
    s.resolve env n q = .ok .pending := by
  rw [resolve, hp]
  simp only [bind, Except.bind, hu, h, h', Bool.false_eq_true, if_false]
  rfl

theorem resolve_default (hp : Node.path n = .ok path) (hu : env.get? path = none)
    (h : (q.isOptional && !q.hasFallback) = false)
    (h' : (q.isOptional || s.settings.acceptDefaults && q.hasFallback) = true) {v : Value}
    (hd : (s.acceptDefault env n).map Prod.fst = .ok (env ++ [entry n path v])) :
    ∃ events, s.resolve env n q = .ok (.answered (env ++ [entry n path v]) events v) := by
  obtain ⟨⟨env', events⟩, hd, rfl⟩ := Fallible.map_ok.mp hd
  have hget : Mapping.get? (env ++ [entry n path v]) path = some ⟨path, v, Node.directory n⟩ :=
    get?_default hu
  refine ⟨events, ?_⟩
  rw [resolve, hp]
  simp only [bind, Except.bind, hu, h, h', Bool.false_eq_true, if_false, if_true, hd, hget]
  rfl

theorem resolve_default_error (hp : Node.path n = .ok path) (hu : env.get? path = none)
    (h : (q.isOptional && !q.hasFallback) = false)
    (h' : (q.isOptional || s.settings.acceptDefaults && q.hasFallback) = true) {f : Fault}
    (hd : (s.acceptDefault env n).map Prod.fst = .error f) : s.resolve env n q = .error f := by
  rw [resolve, hp]
  simp only [bind, Except.bind, hu, h, h', Bool.false_eq_true, if_false, if_true,
    Fallible.map_error.mp hd]

/-- Whatever a scan does at a question is a fate of the question. -/
theorem Accepted.fate (hs : s.Accepted) (henv : s.Sound env) (hn : n ∈ s.descriptor.nodes)
    (hq : Node.content n = .question q) (hp : Node.path n = .ok path) :
    Fate s env n q path (s.meet env n) := by
  obtain ⟨_, -, hfits⟩ := hs.question hn hq
  unfold meet
  simp only [hq, hfits.concrete, if_true]
  cases hb : Mapping.get? env path with
  | some b =>
    have hinput := hs.get?_iff.mpr ⟨hn, ⟨q, Node.question?_eq_some.mpr hq⟩, hp⟩
    obtain ⟨q', hq', -, hnormal⟩ := henv.normal path n b hinput hb
    obtain rfl : q = q' := Content.question.inj (hq.symm.trans (Node.question?_eq_some.mp hq'))
    obtain ⟨br, hbr⟩ := Branch.exists_ofAnswer hq' hnormal hfits.choices
    simp only [resolve_bound hp hb, hbr]
    exact .answered hb hbr
  | none =>
    cases hskip : (q.isOptional && !q.hasFallback) with
    | true =>
      simp only [resolve_skipped hp hb hskip]
      simp only [Bool.and_eq_true, Bool.not_eq_true'] at hskip
      exact .skipped hb hskip.1 hskip.2
    | false =>
      cases htake : (q.isOptional || s.settings.acceptDefaults && q.hasFallback) with
      | true =>
        have hf : q.hasFallback = true := by
          cases ho : q.isOptional <;> cases hf : q.hasFallback <;> simp_all
        have ht : (q.isOptional || s.settings.acceptDefaults) = true := by
          cases ho : q.isOptional <;> simp_all
        obtain ⟨w, br, hw, hbr⟩ := hs.exists_default hn hq hp hf
        have hdefault := hs.acceptDefault_eq hn hq hp hb hw
        by_cases hfull : s.settings.maxContextSize < (env ++ [entry n path w]).length
        · rw [if_pos hfull] at hdefault
          simp only [resolve_default_error hp hb hskip htake hdefault]
          exact .overflows hb hf ht hw hfull
        · rw [if_neg hfull] at hdefault
          obtain ⟨events, hr⟩ := resolve_default hp hb hskip htake hdefault
          simp only [hr, hbr]
          exact .defaulted hb hf ht hw hbr hfull
      | false =>
        simp only [resolve_pending hp hb hskip htake]
        simp only [Bool.or_eq_false_iff] at htake
        exact .due hb htake.1 htake.2

end Default

/-! ### Passing a node -/

/-- A node binds the value at the path when it is passed: a preset with such a binding, or a
question that has the path and such a default. -/
inductive Source (s : Setup) (n : Node) (path : String) (v : Value) : Prop
  | preset {scope : String} {c : Node} (content : Node.content n = .preset)
      (inside : Node.scope n = .ok scope) (mem : c ∈ n.children)
      (binds : Env.Binds scope s.inputs.get? c.label.label path v)
  | default {q : Question} (content : Node.content n = .question q)
      (fallback : q.hasFallback = true) (located : Node.path n = .ok path)
      (value : Answer.coerce n q.fallback path = .ok v)

/-- What passing a node does: the environment grows by what the node binds, and the scan goes on to
the nodes that it shows. A shut gate shows nothing and binds nothing. -/
structure Passage (s : Setup) (env : Env) (n : Node) (out : Env) (active : List Node) : Prop where
  grows : env <+: out
  sound : s.Sound out
  meets : ∀ c ∈ active, s.Meets c
  below : (active.flatMap Tree.subtrees).Sublist (Tree.subtreesAll n.children)
  turned : Assembly.shut out.values n = true → active = [] ∧ out = env
  shown : Assembly.shut out.values n = false → ∀ context, Mapping.Within out.values context →
    Assembly.shown context n = active
  source : ∀ path b, out.get? path = some b → env.get? path = some b ∨ s.Source n path b.value
  preset : Node.content n = .preset → ∀ c ∈ n.children, ∃ scope path v b,
    Node.scope n = .ok scope ∧ Env.Binds scope s.inputs.get? c.label.label path v ∧
      out.get? path = some b ∧ Value.same b.value v = true
  question : ∀ q path, Node.content n = .question q → Node.path n = .ok path →
    (∃ b, out.get? path = some b) ∨ q.isOptional = true ∧ q.hasFallback = false
  again : Node.content n ≠ .preset → Assembly.shut out.values n = false →
    ∀ accept env', s.Sound env' → out <+: env' →
      (s.accepting accept).meet env' n = .pass env' active

/-- The scan goes on to the nodes shown. -/
theorem Passage.shown_eq {active : List Node} (hp : Passage s env n out active) :
    Assembly.shown out.values n = active := by
  cases hshut : Assembly.shut out.values n with
  | true => rw [(hp.turned hshut).1, Assembly.shown_of_shut hshut]
  | false => exact hp.shown hshut _ (Mapping.Within.refl _)

theorem Passage.mem_shown {active : List Node} (hp : Passage s env n out active)
    {context : Mapping Value} (h : Mapping.Within out.values context) {m : Node}
    (hm : m ∈ active) : m ∈ Assembly.shown context n :=
  Assembly.mem_shown_mono h (by rwa [hp.shown_eq])

/-- A node that shows the same in all environments. -/
theorem passage_open (henv : s.Sound env) {active : List Node}
    (hq : ∀ q, Node.content n ≠ .question q) (hp : Node.content n ≠ .preset)
    (hshut : Assembly.shut env.values n = false)
    (hshown : ∀ context, Mapping.Within env.values context → Assembly.shown context n = active)
    (hmeets : ∀ c ∈ active, s.Meets c)
    (hbelow : (active.flatMap Tree.subtrees).Sublist (Tree.subtreesAll n.children))
    (hagain : ∀ accept env', s.Sound env' → env <+: env' →
      (s.accepting accept).meet env' n = .pass env' active) : Passage s env n env active where
  grows := List.prefix_refl _
  sound := henv
  meets := hmeets
  below := hbelow
  turned h := by rw [hshut] at h; cases h
  shown _ := hshown
  source _ _ hb := .inl hb
  preset h := absurd h hp
  question q _ h := absurd h (hq q)
  again _ _ := hagain

theorem passage_preset (henv : s.Sound env) (hn : s.Meets n)
    (hc : Node.content n = .preset) {active : List Node} (h : s.meet env n = .pass out active) :
    Passage s env n out active := by
  obtain ⟨scope, hscope⟩ := Descriptor.exists_scope hn.1
  obtain ⟨hm, rfl⟩ := (pass_preset_iff hc hscope).mp h
  refine ⟨Env.prefix_of_merge hm, henv.merge hm, by simp, by simp, ?_, ?_, ?_, ?_, ?_, ?_⟩
  · intro hshut
    simp only [Assembly.shut, hc] at hshut
    cases hshut
  · intro _ context _
    simp only [Assembly.shown, hc]
  · intro path b hb
    rcases Env.source_of_merge hm hb with hb | ⟨l, hl, hbinds⟩
    · exact .inl hb
    · obtain ⟨c, hc', rfl⟩ := List.mem_map.mp hl
      exact .inr (.preset hc hscope hc' hbinds)
  · intro _ c hc'
    obtain ⟨path, v, b, hbinds, hb, hsame⟩ :=
      Env.bound_of_merge hm c.label.label (List.mem_map_of_mem hc')
    exact ⟨scope, path, v, b, hscope, hbinds, hb, hsame⟩
  · intro q path hq
    rw [hc] at hq
    cases hq
  · exact fun h => absurd hc h

theorem Accepted.meet_bound (hs : s.Accepted) (hn : n ∈ s.descriptor.nodes) {q : Question}
    (hq : Node.content n = .question q) {path : String} (hp : Node.path n = .ok path) {b : Binding}
    (hb : env.get? path = some b) {br : Branch} (hbr : Branch.ofAnswer n b.value = .ok br) :
    s.meet env n = .pass env (br.nodes n.children) := by
  obtain ⟨_, -, hfits⟩ := hs.question hn hq
  unfold meet
  simp only [hq, hfits.concrete, if_true, resolve_bound hp hb, hbr]

/-- Once a question is bound, what its answer selects is shown from then on. -/
theorem Accepted.passage_bound (hs : s.Accepted) (hout : s.Sound out) (hn : s.Meets n)
    {q : Question} (hq : Node.content n = .question q) {path : String}
    (hp : Node.path n = .ok path) (hgrow : env <+: out) {b : Binding}
    (hb : out.get? path = some b) {br : Branch} (hbr : Branch.ofAnswer n b.value = .ok br)
    (hsource : ∀ path b, out.get? path = some b →
      env.get? path = some b ∨ s.Source n path b.value) :
    Passage s env n out (br.nodes n.children) := by
  have hshut : Assembly.shut out.values n = false := by
    rw [Assembly.shut_question hq hp, Env.get?_values, hb]
    rfl
  refine ⟨hgrow, hout, fun c hc => hn.of_mem_branch hs hq hbr hc,
    Assembly.subtrees_branch_sublist br _, ?_, ?_, hsource, ?_, ?_, ?_⟩
  · intro h
    rw [hshut] at h
    cases h
  · intro _ context hcontext
    refine Assembly.shown_answered hq hp (hcontext path b.value ?_) hbr
    rw [Env.get?_values, hb]
    rfl
  · intro h
    rw [hq] at h
    cases h
  · intro q' path' hq' hp'
    obtain rfl := Except.ok.inj (hp.symm.trans hp')
    exact .inl ⟨b, hb⟩
  · intro _ _ accept env' _ hgrow'
    exact (hs.accepting accept).meet_bound hn.1 hq hp (Mapping.get?_of_prefix hgrow' hb) hbr

theorem Accepted.passage_question (hs : s.Accepted) (henv : s.Sound env) (hn : s.Meets n)
    {q : Question} (hq : Node.content n = .question q) {active : List Node}
    (h : s.meet env n = .pass out active) : Passage s env n out active := by
  obtain ⟨path, hp, hfits⟩ := hs.question hn.1 hq
  have hfate := hs.fate henv hn.1 hq hp
  rw [h] at hfate
  cases hfate with
  | answered hb hbr =>
    exact hs.passage_bound henv hn hq hp (List.prefix_refl _) hb hbr fun _ _ hb => .inl hb
  | skipped hu ho hf =>
    have hshut : Assembly.shut env.values n = true := by
      rw [Assembly.shut_question hq hp, Env.get?_values, hu]
      rfl
    refine ⟨List.prefix_refl _, henv, by simp, by simp, fun _ => ⟨rfl, rfl⟩, ?_,
      fun _ _ hb => .inl hb, ?_, ?_, ?_⟩
    · intro h
      rw [hshut] at h
      cases h
    · intro h
      rw [hq] at h
      cases h
    · intro q' path' hq' _
      obtain rfl := Content.question.inj (hq.symm.trans hq')
      exact .inr ⟨ho, hf⟩
    · intro _ h
      rw [hshut] at h
      cases h
  | @defaulted w br hu hf _ hw hbr hroom =>
    refine hs.passage_bound (hs.sound_default henv hn.1 hq hp hu hw hroom) hn hq hp
      (List.prefix_append _ _) (get?_default hu) hbr fun path' b hb => ?_
    rcases of_get?_default hb with hb | ⟨rfl, hv⟩
    · exact .inl hb
    · exact .inr (.default hq hf hp (hv ▸ hw))

theorem passage_conditional (henv : s.Sound env) (hn : s.Meets n)
    {path : String} {expected : Value} (hc : Node.content n = .conditional path expected)
    {active : List Node} (h : s.meet env n = .pass out active) : Passage s env n out active := by
  have hmeet : ∀ (s : Setup) (env : Env), s.meet env n =
      .pass env (if Assembly.holds env.values path expected then n.children else []) := by
    intro s env
    simp only [meet, hc, satisfies_eq_holds]
  rw [hmeet, Meeting.pass.injEq] at h
  obtain ⟨rfl, rfl⟩ := h
  have hq : ∀ q, Node.content n ≠ .question q := by simp [hc]
  have hp : Node.content n ≠ .preset := by simp [hc]
  cases hh : Assembly.holds env.values path expected with
  | true =>
    have hall : ∀ context, Mapping.Within env.values context →
        Assembly.holds context path expected = true :=
      fun context hcontext => Assembly.holds_mono hcontext hh
    refine passage_open henv hq hp (by rw [Assembly.shut_conditional hc, hh]; rfl)
      (fun context hcontext => ?_) (fun c hc' => ?_) ?_ fun accept env' _ hgrow => ?_
    · rw [Assembly.shown_conditional hc, hall context hcontext]
    · exact hn.of_mem_children (by rw [hc]; rfl) hc'
    · rw [Tree.subtreesAll_eq_flatMap]
      exact List.Sublist.refl _
    · rw [hmeet, hall _ (Env.within_values hgrow)]
  | false =>
    have hshut : Assembly.shut env.values n = true := by
      rw [Assembly.shut_conditional hc, hh]
      rfl
    refine ⟨List.prefix_refl _, henv, by simp, by simp, fun _ => ⟨rfl, rfl⟩, ?_,
      fun _ _ hb => .inl hb, fun h => absurd h hp, fun q _ h => absurd h (hq q), ?_⟩
    · intro h
      rw [hshut] at h
      cases h
    · intro _ h
      rw [hshut] at h
      cases h

/-- **Whatever a scan passes, it passes like this.** -/
theorem Accepted.passage (hs : s.Accepted) (henv : s.Sound env) (hn : s.Meets n)
    {active : List Node} (h : s.meet env n = .pass out active) : Passage s env n out active := by
  have hall : (n.children.flatMap Tree.subtrees).Sublist (Tree.subtreesAll n.children) := by
    rw [Tree.subtreesAll_eq_flatMap]
  rcases hn.content_cases with hc | ⟨q, hc⟩ | ⟨path, v, hc⟩ | hc | ⟨l, help, hc⟩ | ⟨r, hc⟩
  · exact passage_preset henv hn hc h
  · exact hs.passage_question henv hn hc h
  · exact passage_conditional henv hn hc h
  all_goals
    simp only [meet, hc, Meeting.pass.injEq] at h
    obtain ⟨rfl, rfl⟩ := h
  · exact passage_open henv (by simp [hc]) (by simp [hc]) (by simp [Assembly.shut, hc])
      (by simp [Assembly.shown, hc]) (fun c => hn.of_mem_children (by rw [hc]; rfl)) hall
      (by simp [meet, hc])
  · exact passage_open henv (by simp [hc]) (by simp [hc]) (by simp [Assembly.shut, hc])
      (by simp [Assembly.shown, hc]) (fun c => hn.of_mem_children (by rw [hc]; rfl)) hall
      (by simp [meet, hc])
  · exact passage_open henv (by simp [hc]) (by simp [hc]) (by simp [Assembly.shut, hc])
      (by simp [Assembly.shown, hc]) (by simp) (List.nil_sublist _) (by simp [meet, hc])

/-! ### Halting at a node -/

/-- A scan trips at a node: at a preset whose members cannot be merged, or at a question whose
default it takes unasked when there is no room for it. -/
inductive Trips (s : Setup) (env : Env) (n : Node) : Fault → Prop
  | preset {scope : String} {f : Fault} (content : Node.content n = .preset)
      (inside : Node.scope n = .ok scope)
      (merge : env.merge (.ofNode n) scope s.inputs.get? s.settings.maxContextSize = .error f) :
      Trips s env n f
  | default {q : Question} {path : String} {w : Value} (content : Node.content n = .question q)
      (located : Node.path n = .ok path) (unbound : env.get? path = none)
      (fallback : q.hasFallback = true)
      (taken : (q.isOptional || s.settings.acceptDefaults) = true)
      (value : Answer.coerce n q.fallback path = .ok w)
      (full : s.settings.maxContextSize < (env ++ [entry n path w]).length) :
      Trips s env n (.data (.overflow (env ++ [entry n path w]).length s.settings.maxContextSize))

theorem Accepted.fault_of_preset (hs : s.Accepted) (hn : s.Meets n) (hc : Node.content n = .preset)
    {scope : String} {f : Fault}
    (h : env.merge (.ofNode n) scope s.inputs.get? s.settings.maxContextSize = .error f) :
    f.OfBinding := by
  refine Env.fault_of_merge (fun path m => hs.concrete_of_get?) (fun l hl => ?_) h
  obtain ⟨c, hc', rfl⟩ := List.mem_map.mp hl
  exact hn.content_binding hc hc'

theorem Trips.ofBinding (hs : s.Accepted) (hn : s.Meets n) {f : Fault} (h : s.Trips env n f) :
    f.OfBinding := by
  cases h with
  | preset hc _ hmerge => exact hs.fault_of_preset hn hc hmerge
  | default => exact .data (by simp [DataFault.OfBinding, DataFault.family])

/-- At a node that a traversal can come to, a scan fails only if it trips there. -/
theorem Accepted.trips_of_fail (hs : s.Accepted) (henv : s.Sound env) (hn : s.Meets n)
    {f : Fault} (h : s.meet env n = .fail out f) : s.Trips env n f := by
  rcases hn.content_cases with hc | ⟨q, hq⟩ | ⟨path, v, hc⟩ | hc | ⟨l, help, hc⟩ | ⟨r, hc⟩
  · obtain ⟨scope, hscope⟩ := Descriptor.exists_scope hn.1
    rw [meet_preset hc hscope] at h
    cases hm : env.merge (.ofNode n) scope s.inputs.get? s.settings.maxContextSize with
    | ok merged =>
      rw [hm] at h
      cases h
    | error g =>
      rw [hm] at h
      obtain ⟨-, rfl⟩ := Meeting.fail.inj h
      exact .preset hc hscope hm
  · obtain ⟨path, hp, -⟩ := hs.question hn.1 hq
    have hfate := hs.fate henv hn.1 hq hp
    rw [h] at hfate
    cases hfate with
    | overflows hu hf ht hw hfull => exact .default hq hp hu hf ht hw hfull
  all_goals simp [meet, hc] at h

/-! ### Values that can be written -/

/-- All values of the presets can be written. -/
def PresetsWritable (s : Setup) : Prop :=
  ∀ n ∈ s.descriptor.nodes, Node.content n = .preset → (Batch.ofNode n).Writable

/-- Where all values can be written, a scan trips over the data. -/
theorem Trips.ne_oversized (hs : s.PresetsWritable) (henv : env.Writable)
    (hn : n ∈ s.descriptor.nodes) {f : Fault} (h : s.Trips env n f) : f ≠ .oversized := by
  cases h with
  | preset hc _ hmerge =>
    rintro rfl
    exact Env.merge_ne_oversized henv (hs n hn hc) s.settings.maxContextSize_nonneg hmerge
  | default => exact Fault.noConfusion

theorem Source.writable (hs : s.PresetsWritable) (hn : n ∈ s.descriptor.nodes) {path : String}
    {v : Value} (h : s.Source n path v) : v.Writable := by
  cases h with
  | preset hc _ hmem hbinds => exact hbinds.writable (hs n hn hc _ (List.mem_map_of_mem hmem))
  | default _ _ _ hvalue =>
    obtain ⟨q, -, -, hnormal⟩ := Answer.normal_of_coerce hvalue
    exact hnormal.writable

/-- A node that is due is a question without an answer, neither optional nor one whose default is
accepted. -/
theorem Accepted.question_of_due (hs : s.Accepted) (henv : s.Sound env) (hn : s.Meets n)
    (h : s.meet env n = .due) : ∃ q path, Node.content n = .question q ∧ Node.path n = .ok path ∧
      env.get? path = none ∧ q.isOptional = false ∧
      (s.settings.acceptDefaults && q.hasFallback) = false := by
  rcases hn.content_cases with hc | ⟨q, hq⟩ | ⟨path, v, hc⟩ | hc | ⟨l, help, hc⟩ | ⟨r, hc⟩
  · unfold meet at h
    simp only [hc] at h
    split at h <;> cases h
  · obtain ⟨path, hp, -⟩ := hs.question hn.1 hq
    have hfate := hs.fate henv hn.1 hq hp
    rw [h] at hfate
    cases hfate with
    | due hu ho hw => exact ⟨q, path, hq, hp, hu, ho, hw⟩
  all_goals simp [meet, hc] at h

end Setup

end Scaffold
