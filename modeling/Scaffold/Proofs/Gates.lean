import Scaffold.Proofs.Growth

/-! # Gates on the course of a scan

On its course a scan turns away from the gates that it finds shut: conditionals that do not hold and
optional questions without an answer. A gate may open later, when the scan has bound more values.

* `Course.complete`: what the bound values reach was passed, or lies behind a gate turned away from.
* `Course.rescan`: a second scan does what a scan of the unsettled nodes does, the presets and the
  gates turned away from. -/

namespace Scaffold.Setup

open Assembly

variable {s : Setup} {env out : Env} {ahead left : List Node} {met : List Passed}

/-- The course of a scan in an accepted setup, step by step: each node is passed in a sound
environment, and all nodes ahead are such that a traversal can come to them. -/
theorem Course.induction (hs : s.Accepted) {P : Env → List Node → List Passed → Prop}
    (refl : s.Sound out → (∀ n ∈ left, s.Meets n) → P out left [])
    (step : ∀ env mid n active ahead met, s.Sound env → s.Meets n → Passage s env n mid active →
      (∀ m ∈ active ++ ahead, s.Meets m) → s.Course mid (active ++ ahead) met out left →
      P mid (active ++ ahead) met → P env (n :: ahead) (⟨n, env, mid⟩ :: met))
    (h : s.Course env ahead met out left) (henv : s.Sound env) (ha : ∀ n ∈ ahead, s.Meets n) :
    P env ahead met := by
  induction h with
  | refl => exact refl henv ha
  | @step env mid out n active ahead left met hmeet hc ih =>
    have hp := hs.passage henv (ha n (by simp)) hmeet
    have hmid : ∀ m ∈ active ++ ahead, s.Meets m := fun m hm =>
      (List.mem_append.mp hm).elim (hp.meets m) fun hm => ha m (by simp [hm])
    exact step env mid n active ahead met henv (ha n (by simp)) hp hmid hc
      (ih refl step hp.sound hmid)

section

variable (hs : s.Accepted) (h : s.Course env ahead met out left) (henv : s.Sound env)
  (ha : ∀ n ∈ ahead, s.Meets n)
include hs h henv ha

theorem Course.meets : ∀ n ∈ left, s.Meets n :=
  Course.induction hs (P := fun _ _ _ => ∀ n ∈ left, s.Meets n) (fun _ hl => hl)
    (fun _ _ _ _ _ _ _ _ _ _ _ ih => ih) h henv ha

/-- Every node on the course was passed in a sound environment, which the scan has left growing. -/
theorem Course.passage : ∀ p ∈ met, s.Meets p.node ∧ s.Sound p.before ∧ p.after <+: out ∧
    ∃ active, Passage s p.before p.node p.after active := by
  refine Course.induction hs (P := fun _ _ met => ∀ p ∈ met, s.Meets p.node ∧ s.Sound p.before ∧
    p.after <+: out ∧ ∃ active, Passage s p.before p.node p.after active) (by simp)
    (fun env mid n active ahead met henv hn hp ha hc ih p hmem => ?_) h henv ha
  rcases List.mem_cons.mp hmem with rfl | hmem
  · exact ⟨hn, henv, hc.grows, active, hp⟩
  · exact ih p hmem

/-- A scan comes to no nodes but those that the bound values reach. -/
theorem Course.reaches {start : Node} (hr : ∀ n ∈ ahead, Reaches env.values start n) :
    (∀ n ∈ left, Reaches out.values start n) ∧ ∀ p ∈ met, Reaches out.values start p.node := by
  refine Course.induction hs (P := fun env ahead met => (∀ n ∈ ahead, Reaches env.values start n) →
    (∀ n ∈ left, Reaches out.values start n) ∧ ∀ p ∈ met, Reaches out.values start p.node)
    (fun _ _ hr => ⟨hr, by simp⟩)
    (fun env mid n active ahead met _ hn hp ha hc ih hr => ?_) h henv ha hr
  have hmid := Env.within_values hp.grows
  have hout := Env.within_values hc.grows
  obtain ⟨hleft, hmet⟩ := ih fun m hm => by
    rcases List.mem_append.mp hm with hm | hm
    · exact ((hr n (by simp)).mono hmid).trans
        (.step (hp.mem_shown (Mapping.Within.refl _) hm) (.refl m))
    · exact (hr m (by simp [hm])).mono hmid
  refine ⟨hleft, fun p hmem => ?_⟩
  rcases List.mem_cons.mp hmem with rfl | hmem
  · exact ((hr _ (by simp)).mono hmid).mono hout
  · exact hmet p hmem

/-- What is bound on the course was bound by a node passed on it. -/
theorem Course.source {path : String} {b : Binding} (hb : out.get? path = some b) :
    env.get? path = some b ∨ ∃ p ∈ met, s.Source p.node path b.value := by
  refine Course.induction hs (P := fun env _ met => env.get? path = some b ∨
    ∃ p ∈ met, s.Source p.node path b.value) (fun _ _ => .inl hb)
    (fun env mid n active ahead met _ _ hp _ _ ih => ?_) h henv ha
  rcases ih with hb | ⟨p, hmem, hsource⟩
  · rcases hp.source path b hb with hb | hsource
    · exact .inl hb
    · exact .inr ⟨_, List.mem_cons_self, hsource⟩
  · exact .inr ⟨p, by simp [hmem], hsource⟩

end

theorem Course.reaches_start {start : Node} (hs : s.Accepted)
    (h : s.Course env [start] met out left) (henv : s.Sound env) (ha : ∀ n ∈ [start], s.Meets n) :
    (∀ n ∈ left, Reaches out.values start n) ∧ ∀ p ∈ met, Reaches out.values start p.node := by
  have hstart : ∀ n ∈ [start], Reaches env.values start n := by
    intro n hn
    rw [List.mem_singleton.mp hn]
    exact .refl start
  exact Course.reaches hs h henv ha hstart

/-- A scan fails at a node that it trips over. -/
theorem Ends.exists_trips (hs : s.Accepted) (henv : s.Sound env) (ha : ∀ n ∈ ahead, s.Meets n)
    {f : Fault} (h : s.Ends env ahead out (.error f)) : ∃ met mid n left,
      s.Course env ahead met mid (n :: left) ∧ s.Meets n ∧ s.Trips mid n f := by
  obtain ⟨met, mid, left, hc, hstop⟩ := h
  cases hstop with
  | fail hm =>
    have hn := Course.meets hs hc henv ha _ List.mem_cons_self
    exact ⟨_, _, _, _, hc, hn, hs.trips_of_fail (hc.sound henv) hn hm⟩

/-- A scan fails with a fault of binding. -/
theorem Ends.ofBinding_of_error (hs : s.Accepted) (henv : s.Sound env)
    (ha : ∀ n ∈ ahead, s.Meets n) {f : Fault} (h : s.Ends env ahead out (.error f)) :
    f.OfBinding := by
  obtain ⟨_, _, n, _, -, hn, htrips⟩ := Ends.exists_trips hs henv ha h
  exact htrips.ofBinding hs hn

/-- Where the presets can be written, a scan binds nothing that cannot be. -/
theorem Course.writable (hs : s.Accepted) (hpresets : s.PresetsWritable)
    (h : s.Course env ahead met out left) (henv : s.Sound env) (ha : ∀ n ∈ ahead, s.Meets n)
    (hw : env.Writable) : out.Writable := fun path b hb => by
  rcases Course.source hs h henv ha hb with hb | ⟨p, hp, hsource⟩
  · exact hw path b hb
  · exact hsource.writable hpresets (Course.passage hs h henv ha p hp).1.1

/-- Where all values can be written, a scan fails because of the data. -/
theorem Ends.ne_oversized (hs : s.Accepted) (hpresets : s.PresetsWritable) (henv : s.Sound env)
    (ha : ∀ n ∈ ahead, s.Meets n) (hw : env.Writable) :
    ¬ s.Ends env ahead out (.error .oversized) := fun h => by
  obtain ⟨met, mid, n, left, hc, hn, htrips⟩ := Ends.exists_trips hs henv ha h
  exact htrips.ne_oversized hpresets (Course.writable hs hpresets hc henv ha hw) hn.1 rfl

/-! ### Complete courses -/

/-- What the bound values reach was passed, or lies behind a gate turned away from, or is still
ahead. -/
theorem Course.passed_or_ahead (hs : s.Accepted) (h : s.Course env ahead met out left)
    (henv : s.Sound env) (ha : ∀ n ∈ ahead, s.Meets n) {context : Mapping Value}
    (hcontext : Mapping.Within out.values context) :
    ∀ a ∈ ahead, ∀ m, Reaches context a m → (∃ p ∈ met, p.node = m) ∨
      (∃ p ∈ met, shut p.after.values p.node = true ∧ Reaches context p.node m) ∨
        ∃ l ∈ left, Reaches context l m := by
  refine Course.induction hs (P := fun _ ahead met => ∀ a ∈ ahead, ∀ m, Reaches context a m →
    (∃ p ∈ met, p.node = m) ∨ (∃ p ∈ met, shut p.after.values p.node = true ∧
      Reaches context p.node m) ∨ ∃ l ∈ left, Reaches context l m)
    (fun _ _ a hmem m hr => .inr (.inr ⟨a, hmem, hr⟩))
    (fun env mid n active ahead met _ _ hp ha hc ih a hmem m hr => ?_) h henv ha
  have hlater : ∀ a ∈ active ++ ahead, Reaches context a m →
      (∃ p ∈ ⟨n, env, mid⟩ :: met, p.node = m) ∨
        (∃ p ∈ ⟨n, env, mid⟩ :: met, shut p.after.values p.node = true ∧
          Reaches context p.node m) ∨ ∃ l ∈ left, Reaches context l m := by
    intro a hmem hr
    rcases ih a hmem m hr with ⟨p, hp, h⟩ | ⟨p, hp, h⟩ | h
    · exact .inl ⟨p, by simp [hp], h⟩
    · exact .inr (.inl ⟨p, by simp [hp], h⟩)
    · exact .inr (.inr h)
  rcases List.mem_cons.mp hmem with rfl | hmem
  · cases hshut : shut mid.values a with
    | true => exact .inr (.inl ⟨_, List.mem_cons_self, hshut, hr⟩)
    | false =>
      cases hr with
      | refl => exact .inl ⟨_, List.mem_cons_self, rfl⟩
      | step hk hr =>
        rw [hp.shown hshut context ((Env.within_values hc.grows).trans hcontext)] at hk
        exact hlater _ (by simp [hk]) hr
  · exact hlater a (by simp [hmem]) hr

/-- **What the bound values reach was passed, or lies behind a gate turned away from.** -/
theorem Course.complete (hs : s.Accepted) (h : s.Course env ahead met out []) (henv : s.Sound env)
    (ha : ∀ n ∈ ahead, s.Meets n) {context : Mapping Value}
    (hcontext : Mapping.Within out.values context) :
    ∀ a ∈ ahead, ∀ m, Reaches context a m → (∃ p ∈ met, p.node = m) ∨
      ∃ p ∈ met, shut p.after.values p.node = true ∧ Reaches context p.node m := by
  intro a hmem m hr
  rcases Course.passed_or_ahead hs h henv ha hcontext a hmem m hr with hp | hp | ⟨l, hl, -⟩
  · exact .inl hp
  · exact .inr hp
  · simp at hl

/-! ### Second scans -/

/-- Passing the node again does nothing, whatever has been bound since: it is no preset, and no gate
that the scan turned away from. -/
def isSettled (p : Passed) : Bool :=
  match Node.content p.node with
  | .preset => false
  | _ => !shut p.after.values p.node

/-- The nodes at which a second scan may do something. -/
def unsettled (met : List Passed) : List Node := (met.filter fun p => !isSettled p).map Passed.node

theorem isSettled_iff {p : Passed} : isSettled p = true ↔
    Node.content p.node ≠ .preset ∧ shut p.after.values p.node = false := by
  unfold isSettled
  split
  next hc => simp [hc]
  next hc => simp only [Bool.not_eq_true', ne_eq, iff_and_self]; exact fun _ => hc

theorem mem_unsettled {met : List Passed} {n : Node} : n ∈ unsettled met ↔ ∃ p ∈ met, p.node = n ∧
    (Node.content n = .preset ∨ shut p.after.values n = true) := by
  simp only [unsettled, List.mem_map, List.mem_filter, Bool.not_eq_true', ← Bool.not_eq_true,
    isSettled_iff]
  constructor
  · rintro ⟨p, ⟨hp, h⟩, rfl⟩
    refine ⟨p, hp, rfl, ?_⟩
    by_cases hc : Node.content p.node = .preset
    · exact .inl hc
    · exact .inr (by simpa [hc] using h)
  · rintro ⟨p, hp, rfl, h⟩
    refine ⟨p, ⟨hp, fun ⟨hc, hshut⟩ => ?_⟩, rfl⟩
    rcases h with h | h
    · exact hc h
    · exact hshut h

theorem Passage.active_of_unsettled {n : Node} {active : List Node}
    (hp : Passage s env n out active)
    (h : ¬ (Node.content n ≠ .preset ∧ shut out.values n = false)) : active = [] := by
  cases hshut : shut out.values n with
  | true => exact (hp.turned hshut).1
  | false =>
    have hc : Node.content n = .preset := by
      by_contra hc
      exact h ⟨hc, hshut⟩
    rw [← hp.shown_eq, Assembly.shown, hc]

/-- Scans that agree behind some nodes agree from these nodes on. -/
theorem ends_congr (henv : s.Sound env) (xs : List Node) {ys zs : List Node}
    (h : ∀ mid, s.Sound mid → env <+: mid → ∀ out r, s.Ends mid ys out r ↔ s.Ends mid zs out r)
    (out : Env) (r : Except Fault (Option Node)) :
    s.Ends env (xs ++ ys) out r ↔ s.Ends env (xs ++ zs) out r := by
  have hends := scanAll_ends (s := s) xs env
  by_cases hr : (s.scanAll env xs).found = .ok none
  · rw [hr] at hends
    obtain ⟨met, hc⟩ := hends.course
    rw [hends.append_iff, hends.append_iff]
    exact h _ (hc.sound henv) hc.grows out r
  · have hys : s.Ends env (xs ++ ys) _ _ := hends.append_of_ne hr
    have hzs : s.Ends env (xs ++ zs) _ _ := hends.append_of_ne hr
    constructor
    · intro hout
      obtain ⟨rfl, rfl⟩ := hout.unique hys
      exact hzs
    · intro hout
      obtain ⟨rfl, rfl⟩ := hout.unique hzs
      exact hys

/-- **A second scan does what a scan of the unsettled nodes does.** -/
theorem Course.rescan (hs : s.Accepted) (h : s.Course env ahead met out left)
    (henv : s.Sound env) (ha : ∀ n ∈ ahead, s.Meets n) (accept : Bool) :
    ∀ env', s.Sound env' → out <+: env' → ∀ x r, (s.accepting accept).Ends env' ahead x r ↔
      (s.accepting accept).Ends env' (unsettled met ++ left) x r := by
  refine Course.induction hs (P := fun _ ahead met => ∀ env', s.Sound env' → out <+: env' →
    ∀ x r, (s.accepting accept).Ends env' ahead x r ↔
      (s.accepting accept).Ends env' (unsettled met ++ left) x r)
    (fun _ _ _ _ _ _ _ => Iff.rfl)
    (fun env mid n active ahead met _ hn hp ha hc ih env' henv' hgrow x r => ?_) h henv ha
  cases hset : isSettled ⟨n, env, mid⟩ with
  | true =>
    have hskip : unsettled (⟨n, env, mid⟩ :: met) = unsettled met := by simp [unsettled, hset]
    obtain ⟨hpre, hshut⟩ := isSettled_iff.mp hset
    have hagain := hp.again hpre hshut accept env' henv'
      (hc.grows.trans hgrow)
    rw [ends_of_pass hagain, ih env' henv' hgrow, hskip]
  | false =>
    have hkeep : unsettled (⟨n, env, mid⟩ :: met) = n :: unsettled met := by
      simp [unsettled, hset]
    have hactive : active = [] := hp.active_of_unsettled fun h => by
      rw [isSettled_iff.mpr h] at hset
      cases hset
    rw [hactive, List.nil_append] at ih
    have hbehind : ∀ mid', s.Sound mid' → env' <+: mid' → ∀ x r,
        (s.accepting accept).Ends mid' ahead x r ↔
          (s.accepting accept).Ends mid' (unsettled met ++ left) x r :=
      fun mid' hmid' hgrow' => ih mid' hmid' (hgrow.trans hgrow')
    rw [hkeep]
    exact ends_congr (s := s.accepting accept) henv' [n] hbehind x r

/-- The scan of a node changes nothing and finds nothing. -/
def Inert (s : Setup) (env : Env) (n : Node) : Prop := s.Ends env [n] env (.ok none)

theorem inert_of_pass {n : Node} (h : s.meet env n = .pass env []) : s.Inert env n :=
  (ends_of_pass h).mpr (ends_nil_iff.mpr ⟨rfl, rfl⟩)

theorem ends_of_inert {r : Except Fault (Option Node)} : ∀ {ns : List Node},
    (∀ n ∈ ns, s.Inert env n) → (s.Ends env (ns ++ ahead) out r ↔ s.Ends env ahead out r)
  | [], _ => Iff.rfl
  | n :: ns, h => by
    rw [List.cons_append, ← List.singleton_append, Ends.append_iff (h n (by simp)),
      ends_of_inert fun m hm => h m (by simp [hm])]

/-- A gate that a scan turned away from is inert as long as it stays shut. -/
theorem Accepted.inert_of_shut (hs : s.Accepted) {n : Node} (hn : s.Meets n) {active : List Node}
    {env' : Env} (hp : Passage s env n out active) (hshut : shut out.values n = true)
    (henv' : s.Sound env') (hlater : shut env'.values n = true) (accept : Bool) :
    (s.accepting accept).Inert env' n := by
  have hmeet : (s.accepting accept).meet env' n = .pass env' [] := by
    rcases hn.content_cases with hc | ⟨q, hq⟩ | ⟨path, v, hc⟩ | hc | ⟨l, help, hc⟩ | ⟨r, hc⟩
    · simp [shut, hc] at hshut
    · obtain ⟨path, hpath, -⟩ := hs.question hn.1 hq
      rw [shut_question hq hpath, Env.get?_values, Option.isNone_map] at hshut hlater
      rcases hp.question q path hq hpath with ⟨b, hb⟩ | ⟨ho, hf⟩
      · rw [hb] at hshut
        cases hshut
      · have hfate := (hs.accepting accept).fate henv' hn.1 hq hpath
        generalize (s.accepting accept).meet env' n = m at hfate
        cases hfate with
        | answered hb => rw [hb] at hlater; cases hlater
        | skipped => rfl
        | defaulted _ hf' => rw [hf] at hf'; cases hf'
        | overflows _ hf' => rw [hf] at hf'; cases hf'
        | due _ ho' => rw [ho] at ho'; cases ho'
    · rw [shut_conditional hc, Bool.not_eq_true'] at hlater
      simp [meet, hc, satisfies_eq_holds, hlater]
    all_goals simp [shut, hc] at hshut
  exact inert_of_pass hmeet

/-- A preset whose values compare equal to themselves is inert once it was passed. -/
theorem inert_of_preset {n : Node} (hn : s.Meets n)
    (hc : Node.content n = .preset)
    (hnan : ∀ c ∈ n.children, ∀ name v, Node.content c = .binding name v → v.isNaN = false)
    {active : List Node} {env' : Env} (hp : Passage s env n out active) (henv' : s.Sound env')
    (hgrow : out <+: env') (accept : Bool) : (s.accepting accept).Inert env' n := by
  obtain ⟨scope, hscope⟩ := Descriptor.exists_scope hn.1
  have hmerge : Env.merge env' (.ofNode n) scope s.inputs.get? s.settings.maxContextSize =
      .ok env' := by
    refine Env.merge_bound henv'.bounded fun l hl => ?_
    obtain ⟨c, hmem, rfl⟩ := List.mem_map.mp hl
    obtain ⟨scope', path, v, b, hscope', hbinds, hb, hsame⟩ := hp.preset hc c hmem
    obtain rfl := Except.ok.inj (hscope.symm.trans hscope')
    refine ⟨path, v, b, hbinds, Mapping.get?_of_prefix hgrow hb, Value.equal_iff.mpr ⟨?_, hsame⟩⟩
    rw [Value.isNaN_eq_of_same hsame]
    obtain ⟨name, given, hcontent, -, -, hsettle⟩ := hbinds
    rw [Env.settle] at hsettle
    split at hsettle
    next m hm =>
      obtain ⟨_, -, -, hnormal⟩ := Answer.normal_of_coerce hsettle
      exact hnormal.not_isNaN
    next =>
      rw [← Except.ok.inj hsettle]
      exact hnan c hmem name given hcontent
  have hmeet : (s.accepting accept).meet env' n = .pass env' [] :=
    (pass_preset_iff hc hscope).mpr ⟨hmerge, rfl⟩
  exact inert_of_pass hmeet

/-! ### Document order -/

/-- A scan passes nodes, and leaves nodes ahead, in the order in which they lay below the nodes that
were ahead of it. -/
theorem Course.sublist (hs : s.Accepted) (h : s.Course env ahead met out left) (henv : s.Sound env)
    (ha : ∀ n ∈ ahead, s.Meets n) :
    (met.map Passed.node ++ left.flatMap Tree.subtrees).Sublist (ahead.flatMap Tree.subtrees) := by
  refine Course.induction hs (P := fun _ ahead met =>
    (met.map Passed.node ++ left.flatMap Tree.subtrees).Sublist (ahead.flatMap Tree.subtrees))
    (fun _ _ => List.Sublist.refl _)
    (fun env mid n active ahead met _ _ hp _ _ ih => ?_) h henv ha
  rw [List.flatMap_append] at ih
  rw [Tree.flatMap_subtrees_cons]
  exact (ih.trans (hp.below.append (List.Sublist.refl _))).cons_cons n

/-- The nodes of a course follow each other in document order. -/
theorem Course.pairwise (hs : s.Accepted) (h : s.Course env ahead met out left)
    (henv : s.Sound env) (ha : ∀ n ∈ ahead, s.Meets n)
    (hpw : (ahead.flatMap Tree.subtrees).Pairwise Node.Precedes) :
    (met.map Passed.node).Pairwise Node.Precedes :=
  (List.pairwise_append.mp (hpw.sublist (Course.sublist hs h henv ha))).1

end Scaffold.Setup
