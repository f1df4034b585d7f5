import Scaffold.Proofs.Complete

/-! # Searches that bind nothing

A scan that leaves the environment as it found it sees the tree that the assembly of the bound
values sees: what it has passed and what it has left ahead is what the traversal reaches
(`Course.reaches_iff`), its outputs are those that are assembled (`Course.collectAll_eq`), and the
question that it finds is the first one, in document order, that the session lacks
(`Session.seek_first`). -/

namespace Scaffold

open Assembly

namespace Setup

variable {s : Setup} {env out : Env} {ahead left : List Node} {met : List Passed} {n : Node}

/-- A course that binds nothing passes every node in the same environment. -/
theorem Course.still (h : s.Course env ahead met env left) {p : Passed} (hp : p ∈ met) :
    p.after = env := by
  obtain ⟨met₁, met₂, rfl⟩ := List.append_of_mem hp
  obtain ⟨active, ahead', h₁, hmeet, h₂⟩ := h.split
  have hgrow := h₁.grows.trans (growth_of_pass hmeet).grows
  exact h₂.grows.eq_of_length_le hgrow.length_le

/-- A course that binds nothing passes, or leaves ahead, what the bound values reach. -/
theorem Course.reaches_iff (hs : s.Accepted) {start : Node}
    (h : s.Course env [start] met env left) (henv : s.Sound env)
    (ha : ∀ n ∈ [start], s.Meets n) : Reaches env.values start n ↔
      (∃ p ∈ met, p.node = n) ∨ ∃ l ∈ left, Reaches env.values l n := by
  have hreaches := Course.reaches_start hs h henv ha
  constructor
  · intro hn
    rcases Course.passed_or_ahead hs h henv ha (Mapping.Within.refl _) start
      (List.mem_singleton_self _) n hn with hp | ⟨p, hp, hshut, hn⟩ | hl
    · exact .inl hp
    · rw [Course.still h hp] at hshut
      cases hn with
      | refl => exact .inl ⟨p, hp, rfl⟩
      | step hm =>
        rw [shown_of_shut hshut] at hm
        cases hm
    · exact .inr hl
  · rintro (⟨p, hp, rfl⟩ | ⟨l, hl, hn⟩)
    · exact hreaches.2 p hp
    · exact (hreaches.1 l hl).trans hn

/-- The first node ahead precedes all that the others lead to. -/
theorem Course.precedes_of_ahead (hs : s.Accepted)
    (h : s.Course env ahead met out (n :: left)) (henv : s.Sound env)
    (ha : ∀ n ∈ ahead, s.Meets n)
    (hpw : (ahead.flatMap Tree.subtrees).Pairwise Node.Precedes) {context : Mapping Value}
    {l m : Node} (hl : l ∈ n :: left) (hm : Reaches context l m) :
    m = n ∨ Node.Precedes n m := by
  have hsub := (List.sublist_append_right _ _).trans (Course.sublist hs h henv ha)
  have hmem : m ∈ (n :: left).flatMap Tree.subtrees :=
    List.mem_flatMap.mpr ⟨l, hl, hm.mem_subtrees⟩
  have horder := hpw.sublist hsub
  rw [Tree.flatMap_subtrees_cons] at hmem horder
  exact (List.mem_cons.mp hmem).imp_right ((List.pairwise_cons.mp horder).1 m)

/-- **A complete course that binds nothing passes the outputs that are assembled.** -/
theorem Course.collectAll_eq (hs : s.Accepted) (h : s.Course env ahead met out [])
    (henv : s.Sound env) (ha : ∀ n ∈ ahead, s.Meets n) (hstill : out = env) :
    collectAll out.values ahead = ((met.map Passed.node).filter isOutput).mapM convert := by
  have hsel := (h.sound henv).selects hs
  refine Course.induction hs (P := fun env ahead met => out = env →
    collectAll out.values ahead = ((met.map Passed.node).filter isOutput).mapM convert)
    (fun _ _ _ => rfl)
    (fun env mid n active ahead met _ hn hp _ hc ih hstill => ?_) h henv ha hstill
  subst hstill
  obtain rfl : mid = out := hc.grows.eq_of_length_le hp.grows.length_le
  have hactive := hp.shown_eq
  rw [collectAll, List.map_cons, List.filter_cons]
  by_cases ho : isOutput n = true
  · obtain ⟨r, hr⟩ := isOutput_iff.mp ho
    obtain rfl : [] = active := by simpa [shown, hr] using hactive
    have hcollect : collect mid.values n = (convert n).map fun d => [d] := by
      obtain ⟨site, cs⟩ := n
      have hsite : site.label.content = .output r := hr
      simp only [collect, hsite]
    have hrest := ih rfl
    rw [List.nil_append] at hrest
    rw [if_pos ho, List.mapM_cons, hcollect, hrest]
    cases convert n with
    | error f => rfl
    | ok d =>
      cases List.mapM convert ((met.map Passed.node).filter isOutput) <;> rfl
  · have hcollect := collect_eq_shown hs hsel hn fun r hr => ho (isOutput_iff.mpr ⟨r, hr⟩)
    have hrest := ih rfl
    rw [collectAll_append] at hrest
    rw [if_neg ho, hcollect, hactive]
    exact hrest

end Setup

namespace Session

open Setup

variable {s : Session}

/-- The node is the first in document order that the bound values reach and the session lacks. -/
structure LacksFirst (s : Session) (n : Node) : Prop where
  reached : Reaches s.env.values s.setup.descriptor.root n
  lacks : s.Lacks n
  first : ∀ m, Reaches s.env.values s.setup.descriptor.root m → s.Lacks m →
    m = n ∨ Node.Precedes n m

theorem LacksFirst.unique {m n : Node} (h : s.LacksFirst m) (h' : s.LacksFirst n) : m = n := by
  rcases h.first n h'.reached h'.lacks with rfl | hprec
  · rfl
  rcases h'.first m h.reached h.lacks with rfl | hprec'
  · rfl
  · exact absurd (hprec.trans hprec') (Node.not_precedes_self m)

/-- A search that binds nothing and finds no question leaves none lacking. -/
theorem complete_of_still (hs : s.setup.Accepted) (henv : s.setup.Sound s.env)
    {met : List Passed} (hc : s.setup.Course s.env [s.setup.descriptor.root] met s.env []) :
    s.Complete := by
  intro n hn
  rcases (Course.reaches_iff hs hc henv hs.meets_start).mp hn with ⟨p, hp, rfl⟩ | ⟨l, hl, -⟩
  · exact not_lacks_of_passed hs henv hc hp
  · cases hl

/-- A search that binds nothing and finds a question finds the first one lacking. -/
theorem lacksFirst_of_still (hs : s.setup.Accepted) (henv : s.setup.Sound s.env)
    {met : List Passed} {n : Node} {left : List Node}
    (hc : s.setup.Course s.env [s.setup.descriptor.root] met s.env (n :: left))
    (hdue : s.setup.meet s.env n = .due) : s.LacksFirst n := by
  have hn := Course.meets hs hc henv hs.meets_start n (by simp)
  obtain ⟨q, path, hq, hpath, hu, ho, -⟩ := hs.question_of_due henv hn hdue
  have hreaches := Course.reaches_start hs hc henv hs.meets_start
  refine ⟨hreaches.1 n (by simp), ⟨q, path, hq, hpath, hu, by simp [ho]⟩, fun m hm hlacks => ?_⟩
  rcases (Course.reaches_iff hs hc henv hs.meets_start).mp hm with ⟨p, hp, rfl⟩ | ⟨l, hl, hm⟩
  · exact absurd hlacks (not_lacks_of_passed hs henv hc hp)
  · exact Course.precedes_of_ahead hs hc henv hs.meets_start s.setup.pairwise_root hl hm

variable {draft : Draft} {settings : Settings} {d : Descriptor} {setup : Setup}

/-- **A search and the assembly see the same tree.** Whatever a session over an accepted descriptor
was asked to do before, if it has entered the root and seeks without a fault and without binding
anything, then it finds the first question, in document order, that the bound values reach and that
is neither bound nor optional without a default, and it finds none if and only if there is none. In
that case the outputs that the scan has passed are the active ones in document order, and the
directives assembled are theirs. -/
theorem seek_first (hd : draft.accept = .ok d) (hsetup : Setup.new d settings = .ok setup)
    (ops : List Operation) (hs : (new setup).after ops = s)
    (hroot : s.stack.items.head? = some d.root) {r : Option Node} (hr : s.seek.result = .ok r)
    (hstill : s.seek.state.env = s.env) :
    (∀ n, r = some n ↔ s.LacksFirst n) ∧ (r = none ↔ s.Complete) ∧
      (r = none → ∃ passed, (setup.scan s.env d.root).passed = passed ∧
        passed.Pairwise Node.Precedes ∧
        (∀ n, n ∈ passed ↔ Reaches s.env.values d.root n ∧ isOutput n = true) ∧
        s.assemble = passed.mapM convert) := by
  obtain ⟨hsame, henv⟩ := sound_after setup ops
  rw [hs] at hsame henv
  subst hsame
  obtain ⟨haccepted, rfl, -⟩ := accepted_of_new hd hsetup
  have hends := (sought_seek hroot).ends
  rw [hr, hstill] at hends
  obtain ⟨met, mid, left, hc, hstop⟩ := hends
  cases hstop with
  | done =>
    have hcomplete := complete_of_still haccepted henv hc
    refine ⟨fun n => ⟨by simp, fun h => absurd h.lacks (hcomplete n h.reached)⟩,
      by simpa using hcomplete, fun _ => ⟨_, rfl, ?_⟩⟩
    have hpassed := hc.passed_eq
    rw [scanAll_singleton, scanAll] at hpassed
    have hpw := Course.pairwise haccepted hc henv haccepted.meets_start s.setup.pairwise_root
    have hcollect := Course.collectAll_eq haccepted hc henv haccepted.meets_start rfl
    rw [hpassed]
    simp only [Scan.halt, List.append_nil]
    refine ⟨hpw.filter _, fun n => ?_, ?_⟩
    · rw [List.mem_filter, List.mem_map, Course.reaches_iff haccepted hc henv haccepted.meets_start]
      simp
    · rw [← hcollect, collectAll, assemble, Descriptor.assemble]
      cases collect s.env.values s.setup.descriptor.root with
      | error f => rfl
      | ok ds => simp [collectAll, Except.map]
  | @due n left hdue =>
    have hfirst := lacksFirst_of_still haccepted henv hc hdue
    refine ⟨fun m => ⟨fun h => ?_, fun h => by rw [hfirst.unique h]⟩, ?_, by simp⟩
    · obtain rfl := Option.some.inj h
      exact hfirst
    · simpa using fun hcomplete : s.Complete => hcomplete n hfirst.reached hfirst.lacks

/-- Once the first question has an answer, the one behind the gate is found. -/
theorem earlyGate_seek_first : ∃ d setup n, (Draft.earlyGate false).accept = .ok d ∧
    Setup.new d {} = .ok setup ∧ Node.path n = .ok "y" ∧
      ((new setup).after [.enter d.root, .supply (.mapping [("x", .str "v")]) d.root]).LacksFirst
        n := by
  obtain ⟨d, hd⟩ : ∃ d, (Draft.earlyGate false).accept = .ok d := ⟨_, rfl⟩
  obtain ⟨setup, hsetup⟩ := exists_new hd {}
  obtain ⟨n, hpath, s, hs, hroot, hr, hstill⟩ : ∃ n, Node.path n = .ok "y" ∧ ∃ s,
      (new setup).after [.enter d.root, .supply (.mapping [("x", .str "v")]) d.root] = s ∧
        s.stack.items.head? = some d.root ∧ s.seek.result = .ok (some n) ∧
          s.seek.state.env = s.env := by
    obtain rfl := Except.ok.inj hd
    obtain rfl := Except.ok.inj hsetup
    exact ⟨_, rfl, _, rfl, rfl, rfl, rfl⟩
  obtain ⟨hfirst, -⟩ := seek_first hd hsetup _ hs hroot hr hstill
  exact ⟨d, setup, n, hd, hsetup, hpath, hs ▸ (hfirst n).mp rfl⟩

end Session

end Scaffold
