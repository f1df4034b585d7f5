import Scaffold.Proofs.Acceptance
import Scaffold.Proofs.InOrder

/-! # Scans that accept defaults

A setup that accepts defaults binds them in a single scan; one that does not starts over from the
root with each. The scan that starts over gets back to where the other one goes on if it meets
nothing on its way that it did not meet before (`Setup.Steady`), and then both end alike
(`Steady.accepts`). In a descriptor in order this is always so (`steady_of_inOrder`). -/

namespace Scaffold.Setup

variable {s : Setup} {env mid out : Env} {n : Node} {r : Except Fault (Option Node)}

/-- A default is accepted at the node: it is a question that is not bound, is not optional and has
a default. -/
def TakesDefault (env : Env) (n : Node) : Prop :=
  ∃ q path, Node.content n = .question q ∧ Node.path n = .ok path ∧ env.get? path = none ∧
    q.isOptional = false ∧ q.hasFallback = true

/-- Whenever a scan accepts a default, the nodes that it left unsettled before are inert. -/
def Steady (s : Setup) (env : Env) : Prop :=
  ∀ met p out left, (s.accepting true).Course env [s.descriptor.root] (met ++ [p]) out left →
    TakesDefault p.before p.node → ∀ g ∈ unsettled met, (s.accepting false).Inert p.after g

theorem meet_accepting (h : ¬ TakesDefault env n) :
    (s.accepting true).meet env n = (s.accepting false).meet env n := by
  cases hc : Node.content n with
  | question q =>
    have hresolve : (s.accepting true).resolve env n q = (s.accepting false).resolve env n q := by
      cases hp : Node.path n with
      | error f => simp only [resolve, hp]; rfl
      | ok path =>
        cases hu : Mapping.get? env path with
        | some b => rw [resolve_bound hp hu, resolve_bound hp hu]
        | none =>
          have hq : (q.isOptional || true && q.hasFallback) =
              (q.isOptional || false && q.hasFallback) := by
            cases ho : q.isOptional <;> cases hf : q.hasFallback <;> try rfl
            exact absurd ⟨q, path, hc, hp, hu, ho, hf⟩ h
          simp only [resolve, hp, bind, Except.bind, hu, accepting, hq]
          rfl
    simp only [meet, hc, hresolve]
  | preset => simp only [meet, hc]; rfl
  | _ => simp only [meet, hc]

/-- Where a default is taken by the one setup, the question is due in the other. -/
theorem Accepted.due_of_takesDefault (hs : s.Accepted) (henv : s.Sound env)
    (hn : n ∈ s.descriptor.nodes) (h : TakesDefault env n) :
    (s.accepting false).meet env n = .due := by
  obtain ⟨q, path, hq, hp, hu, ho, hf⟩ := h
  have hfate := (hs.accepting false).fate henv hn hq hp
  generalize (s.accepting false).meet env n = m at hfate ⊢
  cases hfate with
  | answered hb => rw [hu] at hb; cases hb
  | skipped _ ho' => rw [ho] at ho'; cases ho'
  | defaulted _ _ ht => rw [ho] at ht; cases ht
  | overflows _ _ ht => rw [ho] at ht; cases ht
  | due => rfl

/-- The setup that takes a default binds what the other one binds when the default is accepted. -/
theorem Accepted.acceptDefault_of_pass (hs : s.Accepted) (henv : s.Sound env)
    (hn : n ∈ s.descriptor.nodes) (h : TakesDefault env n) {active : List Node}
    (hm : (s.accepting true).meet env n = .pass mid active) :
    ∃ events, s.acceptDefault env n = .ok (mid, events) := by
  obtain ⟨q, path, hq, hp, hu, ho, hf⟩ := h
  have hfate := (hs.accepting true).fate henv hn hq hp
  rw [hm] at hfate
  cases hfate with
  | answered hb => rw [hu] at hb; cases hb
  | skipped _ ho' => rw [ho] at ho'; cases ho'
  | defaulted _ _ _ hw _ hroom =>
    have hdefault := hs.acceptDefault_eq hn hq hp hu hw
    have hroom' : ¬ s.settings.maxContextSize < (env ++ [entry n path _]).length := hroom
    rw [if_neg hroom'] at hdefault
    obtain ⟨⟨out, events⟩, hout, rfl⟩ := Fallible.map_ok.mp hdefault
    exact ⟨events, hout⟩

theorem Accepted.acceptDefault_of_fail (hs : s.Accepted) (henv : s.Sound env)
    (hn : n ∈ s.descriptor.nodes) (h : TakesDefault env n) {f : Fault}
    (hm : (s.accepting true).meet env n = .fail out f) :
    out = env ∧ s.acceptDefault env n = .error f := by
  obtain ⟨q, path, hq, hp, hu, ho, hf⟩ := h
  have hfate := (hs.accepting true).fate henv hn hq hp
  rw [hm] at hfate
  cases hfate with
  | overflows _ _ _ hw hfull =>
    have hdefault := hs.acceptDefault_eq hn hq hp hu hw
    have hfull' : s.settings.maxContextSize < (env ++ [entry n path _]).length := hfull
    rw [if_pos hfull'] at hdefault
    exact ⟨rfl, Fallible.map_error.mp hdefault⟩

/-! ### Both ways end alike -/

section

variable (hs : s.Accepted)
include hs

/-- Where the scan that accepts defaults stops, the other one stops, unless the default of the next
node finds no room. -/
theorem Accepted.accepts_of_stops {e : Env} {left : List Node} (hsound : s.Sound e)
    (hmeets : ∀ n ∈ left, s.Meets n) (hstop : (s.accepting true).Stops e left out r)
    (hback : ∀ x y, (s.accepting false).Ends env [s.descriptor.root] x y ↔
      (s.accepting false).Ends e left x y) : (s.accepting false).Accepts env out r := by
  cases hstop with
  | done =>
    have hend := (hback _ _).mpr (ends_nil_iff.mpr ⟨rfl, rfl⟩)
    exact .stop hend (by simp)
  | @due n ahead hdue =>
    have hn := hmeets n (by simp)
    obtain ⟨q, path, hq, hp, hu, ho, hw⟩ := (hs.accepting true).question_of_due hsound hn hdue
    have hbare : q.hasFallback = false := by simpa [Setup.accepting] using hw
    have htakes : ¬ TakesDefault out n := by
      rintro ⟨q', -, hq', -, -, -, hf⟩
      obtain rfl := Content.question.inj (hq.symm.trans hq')
      rw [hbare] at hf
      cases hf
    have hdue' : (s.accepting false).meet out n = .due := by
      rw [← meet_accepting htakes, hdue]
    have hend := (hback _ _).mpr (ends_of_due hdue')
    refine .stop hend fun n' hn' => ?_
    obtain rfl := Option.some.inj (Except.ok.inj hn')
    rw [hasFallback_eq hq, hbare]
  | @fail n ahead out f hfail =>
    have hn := hmeets n (by simp)
    by_cases hd : TakesDefault e n
    · obtain ⟨rfl, hf⟩ := hs.acceptDefault_of_fail hsound hn.1 hd hfail
      have hdue := hs.due_of_takesDefault hsound hn.1 hd
      have hend := (hback _ _).mpr (ends_of_due hdue)
      obtain ⟨q, path, hq, -, -, -, hfallback⟩ := hd
      refine .fail hend ?_ hf
      rw [hasFallback_eq hq, hfallback]
    · rw [meet_accepting hd] at hfail
      have hend := (hback _ _).mpr (ends_of_fail hfail)
      exact .stop hend (by simp)

variable {start e e' : Env} {met : List Passed} {active ahead : List Node}
  (hstart : s.Sound start) (hsteady : s.Steady start)
include hstart hsteady

/-- Once a default is accepted, the scan from the root gets back to where it was. -/
theorem Steady.back (hmet : (s.accepting true).Course start [s.descriptor.root] met e (n :: ahead))
    (hpass : (s.accepting true).meet e n = .pass e' active) (hd : TakesDefault e n)
    (x : Env) (y : Except Fault (Option Node)) :
    (s.accepting false).Ends e' [s.descriptor.root] x y ↔
      (s.accepting false).Ends e' (active ++ ahead) x y := by
  have hs' := hs.accepting true
  have hroot := hs.meets_start
  have hn := Course.meets hs' hmet hstart hroot n (by simp)
  have hp := hs'.passage (hmet.sound hstart) hn hpass
  have hinert := hsteady _ _ _ _ (hmet.trans (.step hpass (.refl e' (active ++ ahead)))) hd
  obtain ⟨q, path, hq, hpath, hu, ho, hf⟩ := hd
  have hopen : Assembly.shut e'.values n = false := by
    rw [Assembly.shut_question hq hpath, Env.get?_values]
    rcases hp.question q path hq hpath with ⟨b, hb⟩ | ⟨ho', -⟩
    · rw [hb]
      rfl
    · rw [ho] at ho'
      cases ho'
  have hagain : (s.accepting false).meet e' n = .pass e' active :=
    hp.again (by simp [hq]) hopen false e' hp.sound (List.prefix_refl _)
  have hrescan := Course.rescan hs' hmet hstart hroot false e' hp.sound hp.grows x y
  have hself : (s.accepting true).accepting false = s.accepting false := rfl
  rw [hself] at hrescan
  rw [hrescan, ends_of_inert hinert, ends_of_pass hagain]

/-- With the nodes met behind it, the scan that accepts no defaults goes on like the one that
accepts them: it has started over from the root at the last default and is back. -/
theorem Steady.accepts_of_course {left : List Node} {rest : List Passed}
    (hrest : (s.accepting true).Course e ahead rest mid left)
    (hstop : (s.accepting true).Stops mid left out r) :
    ∀ {met : List Passed} {env : Env},
      (s.accepting true).Course start [s.descriptor.root] met e ahead →
      (∀ x y, (s.accepting false).Ends env [s.descriptor.root] x y ↔
        (s.accepting false).Ends e ahead x y) →
      (s.accepting false).Accepts env out r := by
  have hs' := hs.accepting true
  have hroot := hs.meets_start
  induction hrest with
  | refl e ahead =>
    intro met env hmet hback
    have hsound := hmet.sound hstart
    have hmeets := Course.meets hs' hmet hstart hroot
    exact hs.accepts_of_stops hsound hmeets hstop hback
  | @step e e' mid n active ahead left rest hpass hrest ih =>
    intro met env hmet hback
    have hsound := hmet.sound hstart
    have hn := Course.meets hs' hmet hstart hroot n (by simp)
    have hnext := hmet.trans (.step hpass (.refl e' (active ++ ahead)))
    by_cases hd : TakesDefault e n
    · obtain ⟨events, hdefault⟩ := hs.acceptDefault_of_pass hsound hn.1 hd hpass
      have hdue := hs.due_of_takesDefault hsound hn.1 hd
      have hend := (hback _ _).mpr (ends_of_due hdue)
      have hagain := hsteady.back hs hstart hmet hpass hd
      obtain ⟨q, path, hq, -, -, -, hf⟩ := hd
      have hfallback : hasFallback n = true := by rw [hasFallback_eq hq, hf]
      exact .next hend hfallback hdefault (ih hstop hnext hagain)
    · rw [meet_accepting hd] at hpass
      exact ih hstop hnext fun x y => by rw [hback, ends_of_pass hpass]

end

/-- **Accepting defaults one by one ends like accepting them in one scan.** -/
theorem Steady.accepts (hs : s.Accepted) (henv : s.Sound env) (hsteady : s.Steady env)
    (h : (s.accepting true).Ends env [s.descriptor.root] out r) :
    (s.accepting false).Accepts env out r := by
  obtain ⟨met, mid, left, hc, hstop⟩ := h
  exact hsteady.accepts_of_course hs henv hc hstop (.refl _ _) fun _ _ => Iff.rfl

end Scaffold.Setup
