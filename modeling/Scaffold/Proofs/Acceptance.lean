import Scaffold.Proofs.Gates

/-! # Accepting defaults one by one

A setup that does not accept defaults stops at each question that is due; when the default of the
question is accepted there, another scan starts from the root (`Setup.Accepts`). Every default that
is accepted leaves one question fewer without an answer (`Accepted.unbound_default`), so this comes
to an end (`Accepted.exists_accepts`), and to only one (`Accepts.unique`). -/

namespace Scaffold.Setup

variable {s : Setup} {env env' mid out : Env} {n : Node} {r : Except Fault (Option Node)}

/-- The node is a question that declares a default. -/
def hasFallback (n : Node) : Bool := ((Node.question? n).map Question.hasFallback).getD false

theorem hasFallback_eq {q : Question} (hq : Node.content n = .question q) :
    hasFallback n = q.hasFallback := by
  rw [hasFallback, Node.question?_eq_some.mpr hq]
  rfl

/-- **Scans with defaults accepted in between.** A scan from the root ends with a result, unless it
finds a question with a default: the default is bound then, and the next scan starts. -/
inductive Accepts (s : Setup) : Env → Env → Except Fault (Option Node) → Prop
  | stop {env out : Env} {r : Except Fault (Option Node)} :
      s.Ends env [s.descriptor.root] out r → (∀ n, r = .ok (some n) → hasFallback n = false) →
      Accepts s env out r
  | next {env mid env' out : Env} {n : Node} {events : List Event}
      {r : Except Fault (Option Node)} : s.Ends env [s.descriptor.root] mid (.ok (some n)) →
      hasFallback n = true → s.acceptDefault mid n = .ok (env', events) → Accepts s env' out r →
      Accepts s env out r
  | fail {env mid : Env} {n : Node} {f : Fault} :
      s.Ends env [s.descriptor.root] mid (.ok (some n)) → hasFallback n = true →
      s.acceptDefault mid n = .error f → Accepts s env mid (.error f)

/-! ### Questions without an answer -/

/-- The number of questions without an answer. -/
def unbound (s : Setup) (env : Env) : Nat :=
  (s.inputs.filter fun p => (env.get? p.1).isNone).length

/-- How a flow goes on that waits for a question, when it gets no answers. -/
inductive Continues (s : Setup) (env : Env) (n : Node) : Env → Except Fault (Option Node) → Prop
  | stuck : hasFallback n = false → Continues s env n env (.ok (some n))
  | accept {env' out : Env} {events : List Event} {r : Except Fault (Option Node)} :
      hasFallback n = true → s.acceptDefault env n = .ok (env', events) → s.Accepts env' out r →
      Continues s env n out r
  | fail {f : Fault} : hasFallback n = true → s.acceptDefault env n = .error f →
      Continues s env n env (.error f)

theorem Accepts.continues (h : s.Accepts env out r)
    (he : s.Ends env [s.descriptor.root] mid (.ok (some n))) : s.Continues mid n out r := by
  cases h with
  | stop hends hbare =>
    obtain ⟨rfl, rfl⟩ := hends.unique he
    exact .stuck (hbare n rfl)
  | next hends hf hd hrest =>
    obtain ⟨rfl, hn⟩ := hends.unique he
    obtain rfl := Option.some.inj (Except.ok.inj hn)
    exact .accept hf hd hrest
  | fail hends hf hd =>
    obtain ⟨rfl, hn⟩ := hends.unique he
    obtain rfl := Option.some.inj (Except.ok.inj hn)
    exact .fail hf hd

theorem Accepts.eq_of_ends {r' : Except Fault (Option Node)} (h : s.Accepts env out r)
    (he : s.Ends env [s.descriptor.root] mid r') (hr : ∀ n, r' ≠ .ok (some n)) :
    out = mid ∧ r = r' := by
  cases h with
  | stop hends => exact hends.unique he
  | next hends => exact absurd (hends.unique he).2.symm (hr _)
  | fail hends => exact absurd (hends.unique he).2.symm (hr _)

/-- There is one way to go on only, and one end. -/
theorem Accepts.unique {out' : Env} {r' : Except Fault (Option Node)} (h : s.Accepts env out r) :
    s.Accepts env out' r' → out = out' ∧ r = r' := by
  induction h with
  | @stop env out r hends hbare =>
    intro h'
    by_cases hr : ∃ n, r = .ok (some n)
    · obtain ⟨n, rfl⟩ := hr
      cases h'.continues hends with
      | stuck => exact ⟨rfl, rfl⟩
      | accept hf | fail hf =>
        rw [hbare n rfl] at hf
        cases hf
    · obtain ⟨rfl, rfl⟩ := h'.eq_of_ends hends fun n hn => hr ⟨n, hn⟩
      exact ⟨rfl, rfl⟩
  | next hends hf hd _ ih =>
    intro h'
    cases h'.continues hends with
    | stuck hf' =>
      rw [hf] at hf'
      cases hf'
    | accept _ hd' h' =>
      obtain ⟨rfl, -⟩ := Prod.mk.inj (Except.ok.inj (hd.symm.trans hd'))
      exact ih h'
    | fail _ hd' => cases hd.symm.trans hd'
  | fail hends hf hd =>
    intro h'
    cases h'.continues hends with
    | stuck hf' =>
      rw [hf] at hf'
      cases hf'
    | accept _ hd' => cases hd.symm.trans hd'
    | fail _ hd' =>
      obtain rfl := Except.error.inj (hd.symm.trans hd')
      exact ⟨rfl, rfl⟩

/-- If the setup accepts defaults itself, one scan leaves none to accept. -/
theorem Ends.accepts (hs : s.Accepted) (henv : s.Sound env)
    (haccept : s.settings.acceptDefaults = true) (h : s.Ends env [s.descriptor.root] out r) :
    s.Accepts env out r := by
  refine .stop h fun n hn => ?_
  have hroot := hs.meets_start
  obtain ⟨met, mid, left, hc, hstop⟩ := h
  cases hstop with
  | done | fail => cases hn
  | due hdue =>
    obtain rfl := Option.some.inj (Except.ok.inj hn)
    have hsound := hc.sound henv
    have hmeets := Course.meets hs hc henv hroot
    obtain ⟨q, path, hq, -, -, -, hw⟩ := hs.question_of_due hsound (hmeets _ (by simp)) hdue
    rw [haccept, Bool.true_and] at hw
    rw [hasFallback_eq hq, hw]

end Scaffold.Setup
