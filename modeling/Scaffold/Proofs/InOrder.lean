import Scaffold.Proofs.Gates

/-! # Descriptors in order

In a descriptor in order nothing that binds the path of a gate comes after the gate
(`Descriptor.InOrder`), so a gate that a scan turns away from stays shut to the end of the scan
(`Course.shut_of_inOrder`). -/

namespace Scaffold

/-- What binds the path of a conditional does not come after it, and neither does a binding of a
preset with the path of a question come after the question. -/
structure Descriptor.InOrder (d : Descriptor) : Prop where
  conditional : ∀ c ∈ d.nodes, ∀ path expected, Node.content c = .conditional path expected →
    ∀ n ∈ d.nodes, Node.path n = .ok path → ¬ Node.Precedes c n
  question : ∀ n ∈ d.nodes, ∀ q path, Node.content n = .question q → Node.path n = .ok path →
    ∀ b ∈ d.nodes, ∀ name v, Node.content b = .binding name v → Node.path b = .ok path →
      ¬ Node.Precedes n b

/-- A question that wants a text. -/
def Content.textQuestion (name : String) (fallback : Value) (optional : Bool) : Content :=
  .question ⟨.text .none, name, .str "", fallback, .str "", .str "", .bool optional⟩

/-- A draft that is not in order: the default of the question `x`, which may be optional, opens the
gate before it, behind which the question `y` waits. -/
def Draft.lateGate (optional : Bool) : Draft where
  size := 4
  cell
    | 0 => ⟨⟨.group, ""⟩, [.node 1, .node 3]⟩
    | 1 => ⟨⟨.conditional "x" (.str "v"), ""⟩, [.node 2]⟩
    | 2 => ⟨⟨.textQuestion "y" .none false, ""⟩, []⟩
    | 3 => ⟨⟨.textQuestion "x" (.str "v") optional, ""⟩, []⟩
  root := .node 0

/-- A draft in order: the question `x`, which may have a default, comes before the gate that it
opens. -/
def Draft.earlyGate (fallback : Bool) : Draft where
  size := 4
  cell
    | 0 => ⟨⟨.group, ""⟩, [.node 1, .node 2]⟩
    | 1 => ⟨⟨.textQuestion "x" (if fallback then .str "v" else .none) false, ""⟩, []⟩
    | 2 => ⟨⟨.conditional "x" (.str "v"), ""⟩, [.node 3]⟩
    | 3 => ⟨⟨.textQuestion "y" .none false, ""⟩, []⟩
  root := .node 0

/-- A draft without gates: the question `p` comes before a preset for `x`. -/
def Draft.presetBehind (v : Value) : Draft where
  size := 4
  cell
    | 0 => ⟨⟨.group, ""⟩, [.node 1, .node 2]⟩
    | 1 => ⟨⟨.textQuestion "p" .none false, ""⟩, []⟩
    | 2 => ⟨⟨.preset, ""⟩, [.node 3]⟩
    | 3 => ⟨⟨.binding "x" v, ""⟩, []⟩
  root := .node 0

theorem Draft.earlyGate_inOrder (fallback : Bool) {d : Descriptor}
    (hd : (Draft.earlyGate fallback).accept = .ok d) : d.InOrder := by
  cases fallback
  all_goals
    obtain rfl := Except.ok.inj hd
    constructor
    · intro c hc path expected hcontent n hn hp ⟨i, j, hi, hj, hij⟩
      change c ∈ [_, _, _, _] at hc
      change n ∈ [_, _, _, _] at hn
      simp only [List.mem_cons, List.not_mem_nil, or_false] at hc hn
      rcases hc with rfl | rfl | rfl | rfl <;> cases hcontent
      cases hi
      rcases hn with rfl | rfl | rfl | rfl <;> cases hj
      · exact absurd hij (by decide)
      · exact absurd hij (by decide)
      · exact absurd hij (by decide)
      · have hy : (Except.ok "y" : Except Fault String) = .ok "x" := hp
        exact absurd (Except.ok.inj hy) (by decide)
    · intro n hn q path hq hp b hb name v hcontent
      change b ∈ [_, _, _, _] at hb
      simp only [List.mem_cons, List.not_mem_nil, or_false] at hb
      rcases hb with rfl | rfl | rfl | rfl <;> cases hcontent

/-- The bindings of presets compare equal to themselves. -/
def Descriptor.PlainPresets (d : Descriptor) : Prop :=
  ∀ n ∈ d.nodes, ∀ name v, Node.content n = .binding name v → v.isNaN = false

/-- Whether the node is a gate that is open depends on what is bound at the path. -/
def Node.GatedBy (n : Node) (path : String) : Prop :=
  (∃ expected, Node.content n = .conditional path expected) ∨
    (∃ q, Node.content n = .question q) ∧ Node.path n = .ok path

namespace Setup

variable {s : Setup} {n : Node} {path : String} {v : Value}

/-- The path of a binding below a preset is its name in the scope of the preset. -/
theorem path_of_binds (hn : n ∈ s.descriptor.nodes) (hc : Node.content n = .preset)
    {scope : String} (hscope : Node.scope n = .ok scope) {c : Node} (hmem : c ∈ n.children)
    (hb : Env.Binds scope s.inputs.get? c.label.label path v) :
    Node.path c = .ok path ∧ ∃ name given, Node.content c = .binding name given := by
  obtain ⟨name, given, hcontent, -, rfl, -⟩ := hb
  obtain ⟨p, hp⟩ := Descriptor.exists_place hn
  obtain ⟨p', hp', -, hinner⟩ := Descriptor.place?_of_mem_children hn hmem hp
  have hsame : p'.scope = p.scope := by
    rw [hinner, Node.innerScope, show n.label.label.content = .preset from hc]
    rfl
  rw [Node.scope_of_place? hp] at hscope
  refine ⟨(Node.path_ok_iff ?_).mpr ⟨scope, ?_, rfl⟩, name, given, hcontent⟩
  · rw [show Node.content c = .binding name given from hcontent]
    rfl
  · rw [Node.scope_of_place? hp', hsame, hscope]

/-- What binds a path is a question of the path, or a preset that has a binding of the path. -/
theorem Source.named (hn : n ∈ s.descriptor.nodes) (h : s.Source n path v) :
    ((∃ q, Node.content n = .question q) ∧ Node.path n = .ok path) ∨
      ∃ c ∈ s.descriptor.nodes, Node.Precedes n c ∧ Node.path c = .ok path ∧
        ∃ name given, Node.content c = .binding name given := by
  cases h with
  | preset hc hscope hmem hb =>
    obtain ⟨hp, hcontent⟩ := path_of_binds hn hc hscope hmem hb
    exact .inr ⟨_, Descriptor.mem_nodes_of_mem_children hn hmem,
      Descriptor.precedes_of_mem_children hn hmem, hp, hcontent⟩
  | default hq _ hp _ => exact .inl ⟨⟨_, hq⟩, hp⟩

/-- In a descriptor in order no gate comes before what binds its path. -/
theorem not_precedes_of_source (hs : s.Accepted) (hd : s.descriptor.InOrder) {g : Node}
    (hg : g ∈ s.descriptor.nodes) (hgate : g.GatedBy path) (hn : n ∈ s.descriptor.nodes)
    (h : s.Source n path v) : ¬ Node.Precedes g n := by
  intro hprec
  rcases hgate with ⟨expected, hc⟩ | ⟨⟨q, hq⟩, hp⟩
  · rcases h.named hn with ⟨-, hp⟩ | ⟨c, hc', hprec', hp, -⟩
    · exact hd.conditional g hg path expected hc n hn hp hprec
    · exact hd.conditional g hg path expected hc c hc' hp (hprec.trans hprec')
  · rcases h.named hn with ⟨⟨q', hq'⟩, hp'⟩ | ⟨c, hc', hprec', hp', name, given, hc⟩
    · obtain rfl := hs.eq_of_path_eq hg hn (Node.question?_eq_some.mpr hq)
        (Node.question?_eq_some.mpr hq') hp hp'
      exact Node.not_precedes_self g hprec
    · exact hd.question g hg q path hq hp c hc' name given hc hp' (hprec.trans hprec')

variable {env out : Env} {ahead left : List Node} {met : List Passed}

/-- **In a descriptor in order a gate that a scan turns away from stays shut.** -/
theorem Course.shut_of_inOrder (hs : s.Accepted) (hd : s.descriptor.InOrder)
    (h : s.Course env ahead met out left) (henv : s.Sound env) (ha : ∀ n ∈ ahead, s.Meets n)
    (hpw : (ahead.flatMap Tree.subtrees).Pairwise Node.Precedes) {p : Passed} (hp : p ∈ met)
    (hshut : Assembly.shut p.after.values p.node = true) :
    Assembly.shut out.values p.node = true := by
  obtain ⟨met₁, met₂, rfl⟩ := List.append_of_mem hp
  have hmeets : s.Meets p.node := (Course.passage hs h henv ha p hp).1
  have hlater : ∀ p' ∈ met₂, Node.Precedes p.node p'.node ∧ s.Meets p'.node := by
    intro p' hp'
    have horder := Course.pairwise hs h henv ha hpw
    rw [List.map_append, List.map_cons, List.pairwise_append, List.pairwise_cons] at horder
    exact ⟨horder.2.1.1 _ (List.mem_map_of_mem hp'),
      (Course.passage hs h henv ha p' (by simp [hp'])).1⟩
  obtain ⟨active, ahead', h₁, hmeet, h₂⟩ := h.split
  have hbefore := h₁.sound henv
  have hahead := Course.meets hs h₁ henv ha
  have hpass := hs.passage hbefore hmeets hmeet
  have hactive : ∀ n ∈ active ++ ahead', s.Meets n := fun n hn =>
    (List.mem_append.mp hn).elim (hpass.meets n) fun hn => hahead n (by simp [hn])
  -- A path of the gate that is bound at the end was bound when the gate was met.
  have hbound : ∀ path, p.node.GatedBy path → ∀ b, out.get? path = some b →
      p.after.get? path = some b := by
    intro path hgate b hb
    rcases Course.source hs h₂ hpass.sound hactive hb with hb | ⟨p', hp', hsource⟩
    · exact hb
    · obtain ⟨hprec, hmeets'⟩ := hlater p' hp'
      exact absurd hprec (not_precedes_of_source hs hd hmeets.1 hgate hmeets'.1 hsource)
  rcases hmeets.content_cases with hc | ⟨q, hq⟩ | ⟨path, v, hc⟩ | hc | ⟨l, help, hc⟩ | ⟨r, hc⟩
  · simp [Assembly.shut, hc] at hshut
  · obtain ⟨path, hpath, -⟩ := hs.question hmeets.1 hq
    rw [Assembly.shut_question hq hpath, Env.get?_values, Option.isNone_map,
      Option.isNone_iff_eq_none] at hshut ⊢
    cases hb : Mapping.get? out path with
    | none => rfl
    | some b =>
      rw [hbound path (.inr ⟨⟨q, hq⟩, hpath⟩) b hb] at hshut
      cases hshut
  · rw [Assembly.shut_conditional hc, Bool.not_eq_true', Assembly.holds, Env.get?_values]
      at hshut ⊢
    cases hb : Mapping.get? out path with
    | none => rfl
    | some b => rwa [hbound path (.inl ⟨v, hc⟩) b hb] at hshut
  all_goals simp [Assembly.shut, hc] at hshut

/-- In a descriptor in order a scan passes all that the bound values reach. -/
theorem Course.passed_of_inOrder (hs : s.Accepted) (hd : s.descriptor.InOrder)
    (h : s.Course env ahead met out []) (henv : s.Sound env) (ha : ∀ n ∈ ahead, s.Meets n)
    (hpw : (ahead.flatMap Tree.subtrees).Pairwise Node.Precedes) {a : Node} (hmem : a ∈ ahead)
    (hr : Assembly.Reaches out.values a n) : ∃ p ∈ met, p.node = n := by
  rcases Course.complete hs h henv ha (Mapping.Within.refl _) a hmem n hr with
    hp | ⟨p, hp, hshut, hr⟩
  · exact hp
  · have hshown := Assembly.shown_of_shut (Course.shut_of_inOrder hs hd h henv ha hpw hp hshut)
    cases hr with
    | refl => exact ⟨p, hp, rfl⟩
    | step hm => rw [hshown] at hm; cases hm

/-- In a descriptor in order a scan leaves nothing behind for a second one. -/
theorem Course.inert_of_inOrder (hs : s.Accepted) (hd : s.descriptor.InOrder)
    (hplain : s.descriptor.PlainPresets) (h : s.Course env ahead met out left)
    (henv : s.Sound env) (ha : ∀ n ∈ ahead, s.Meets n)
    (hpw : (ahead.flatMap Tree.subtrees).Pairwise Node.Precedes) (accept : Bool) :
    ∀ g ∈ unsettled met, (s.accepting accept).Inert out g := by
  intro g hg
  obtain ⟨p, hp, rfl, hunsettled⟩ := mem_unsettled.mp hg
  obtain ⟨hmeets, -, hgrow, active, hpass⟩ := Course.passage hs h henv ha p hp
  have hout := h.sound henv
  rcases hunsettled with hc | hshut
  · exact inert_of_preset hmeets hc (fun c hc' => hplain c
      (Descriptor.mem_nodes_of_mem_children hmeets.1 hc')) hpass hout hgrow accept
  · exact hs.inert_of_shut hmeets hpass hshut hout
      (Course.shut_of_inOrder hs hd h henv ha hpw hp hshut) accept

theorem pairwise_root (s : Setup) :
    ([s.descriptor.root].flatMap Tree.subtrees).Pairwise Node.Precedes := by
  rw [List.flatMap_cons, List.flatMap_nil, List.append_nil]
  exact s.descriptor.pairwise_nodes

end Setup

end Scaffold
