import Scaffold.Proofs.Meeting

/-! # The course of a scan

A scan keeps a list of nodes ahead of it. At each step it meets the first of them and puts what is
active below it in its place: `Setup.Course` records the nodes passed like this, `Setup.Ends` where
it ends. The recursive scan ends where the course does (`scan_ends`), and a course has only one end
(`Ends.unique`). -/

namespace Scaffold

/-- A node passed on the course of a scan, with the environments before and after it. -/
structure Passed where
  node : Node
  before : Env
  after : Env

namespace Setup

/-- **The course of a scan.** With nodes ahead of it in an environment, a scan passes the nodes met
and comes to another environment with other nodes ahead. -/
inductive Course (s : Setup) : Env → List Node → List Passed → Env → List Node → Prop
  | refl (env : Env) (ahead : List Node) : Course s env ahead [] env ahead
  | step {env mid out : Env} {n : Node} {active ahead left : List Node} {met : List Passed} :
      s.meet env n = .pass mid active → Course s mid (active ++ ahead) met out left →
      Course s env (n :: ahead) (⟨n, env, mid⟩ :: met) out left

/-- A scan stops: there is nothing ahead, the next node is due, or the scan fails at it. -/
inductive Stops (s : Setup) (env : Env) : List Node → Env → Except Fault (Option Node) → Prop
  | done : Stops s env [] env (.ok none)
  | due {n : Node} {ahead : List Node} : s.meet env n = .due →
      Stops s env (n :: ahead) env (.ok (some n))
  | fail {n : Node} {ahead : List Node} {out : Env} {f : Fault} : s.meet env n = .fail out f →
      Stops s env (n :: ahead) out (.error f)

/-- The scan of the nodes ahead ends in an environment, with a result. -/
def Ends (s : Setup) (env : Env) (ahead : List Node) (out : Env)
    (r : Except Fault (Option Node)) : Prop :=
  ∃ met mid left, s.Course env ahead met mid left ∧ s.Stops mid left out r

variable {s : Setup} {env mid out : Env} {ahead left : List Node} {met met' : List Passed}
  {n : Node} {r : Except Fault (Option Node)}

/-! ### Courses -/

theorem Course.trans {out : Env} {last : List Node} (h : s.Course env ahead met mid left)
    (h' : s.Course mid left met' out last) : s.Course env ahead (met ++ met') out last := by
  induction h with
  | refl => exact h'
  | step hmeet _ ih => exact .step hmeet (ih h')

/-- What lies further ahead does not matter until the scan gets there. -/
theorem Course.append (h : s.Course env ahead met out left) (more : List Node) :
    s.Course env (ahead ++ more) met out (left ++ more) := by
  induction h with
  | refl => exact .refl _ _
  | step hmeet _ ih =>
    refine .step hmeet ?_
    rwa [List.append_assoc] at ih

/-- A course at the point where it passes a node. -/
theorem Course.split {met₁ met₂ : List Passed} {p : Passed}
    (h : s.Course env ahead (met₁ ++ p :: met₂) out left) :
    ∃ active ahead', s.Course env ahead met₁ p.before (p.node :: ahead') ∧
      s.meet p.before p.node = .pass p.after active ∧
      s.Course p.after (active ++ ahead') met₂ out left := by
  induction met₁ generalizing env ahead with
  | nil =>
    cases h with
    | step hmeet h => exact ⟨_, _, .refl _ _, hmeet, h⟩
  | cons p' met₁ ih =>
    cases h with
    | step hmeet h =>
      obtain ⟨active, ahead', h₁, hp, h₂⟩ := ih h
      exact ⟨active, ahead', .step hmeet h₁, hp, h₂⟩

/-! ### Ends -/

theorem ends_nil_iff : s.Ends env [] out r ↔ out = env ∧ r = .ok none := by
  constructor
  · rintro ⟨met, mid, left, hc, hs⟩
    cases hc
    cases hs
    exact ⟨rfl, rfl⟩
  · rintro ⟨rfl, rfl⟩
    exact ⟨_, _, _, .refl _ _, .done⟩

theorem ends_cons_iff : s.Ends env (n :: ahead) out r ↔
    match s.meet env n with
    | .pass mid active => s.Ends mid (active ++ ahead) out r
    | .due => out = env ∧ r = .ok (some n)
    | .fail env' f => out = env' ∧ r = .error f := by
  constructor
  · rintro ⟨met, mid, left, hc, hs⟩
    cases hc with
    | refl =>
      cases hs with
      | due h => rw [h]; exact ⟨rfl, rfl⟩
      | fail h => rw [h]; exact ⟨rfl, rfl⟩
    | step h hc => rw [h]; exact ⟨_, _, _, hc, hs⟩
  · intro h
    cases hm : s.meet env n with
    | pass mid active =>
      rw [hm] at h
      obtain ⟨met, mid', left, hc, hs⟩ := h
      exact ⟨_, _, _, .step hm hc, hs⟩
    | due =>
      rw [hm] at h
      obtain ⟨rfl, rfl⟩ := h
      exact ⟨_, _, _, .refl _ _, .due hm⟩
    | fail env' f =>
      rw [hm] at h
      obtain ⟨rfl, rfl⟩ := h
      exact ⟨_, _, _, .refl _ _, .fail hm⟩

theorem ends_of_pass {active : List Node} (h : s.meet env n = .pass mid active) :
    s.Ends env (n :: ahead) out r ↔ s.Ends mid (active ++ ahead) out r := by
  rw [ends_cons_iff, h]

theorem ends_of_due (h : s.meet env n = .due) : s.Ends env (n :: ahead) env (.ok (some n)) :=
  ⟨[], env, n :: ahead, .refl _ _, .due h⟩

theorem ends_of_fail {f : Fault} (h : s.meet env n = .fail out f) :
    s.Ends env (n :: ahead) out (.error f) :=
  ⟨[], env, n :: ahead, .refl _ _, .fail h⟩

/-- A scan ends where the rest of its course ends. -/
theorem Course.ends_iff (h : s.Course env ahead met mid left) :
    s.Ends env ahead out r ↔ s.Ends mid left out r := by
  induction h with
  | refl => exact Iff.rfl
  | step hmeet _ ih => rw [ends_of_pass hmeet, ih]

theorem Ends.unique {out' : Env} {r' : Except Fault (Option Node)} (h : s.Ends env ahead out r)
    (h' : s.Ends env ahead out' r') : out = out' ∧ r = r' := by
  obtain ⟨met, mid, left, hc, hs⟩ := h
  rw [hc.ends_iff] at h'
  cases hs with
  | done =>
    obtain ⟨rfl, rfl⟩ := ends_nil_iff.mp h'
    exact ⟨rfl, rfl⟩
  | due hm =>
    rw [ends_cons_iff, hm] at h'
    exact ⟨h'.1.symm, h'.2.symm⟩
  | fail hm =>
    rw [ends_cons_iff, hm] at h'
    exact ⟨h'.1.symm, h'.2.symm⟩

theorem Ends.course (h : s.Ends env ahead out (.ok none)) :
    ∃ met, s.Course env ahead met out [] := by
  obtain ⟨met, mid, left, hc, hs⟩ := h
  cases hs
  exact ⟨met, hc⟩

theorem Course.ends (h : s.Course env ahead met out []) : s.Ends env ahead out (.ok none) :=
  ⟨met, out, [], h, .done⟩

/-- Once the nodes ahead are done with, the scan goes on with the others. -/
theorem Ends.append_iff {more : List Node} (h : s.Ends env ahead mid (.ok none)) :
    s.Ends env (ahead ++ more) out r ↔ s.Ends mid more out r := by
  obtain ⟨met, hc⟩ := h.course
  exact (hc.append more).ends_iff

/-- A scan that stops at a node does not get further. -/
theorem Ends.append_of_ne {more : List Node} (h : s.Ends env ahead out r) (hr : r ≠ .ok none) :
    s.Ends env (ahead ++ more) out r := by
  obtain ⟨met, mid, left, hc, hs⟩ := h
  refine ⟨met, mid, left ++ more, hc.append more, ?_⟩
  cases hs with
  | done => exact absurd rfl hr
  | due hm => exact .due hm
  | fail hm => exact .fail hm

end Setup

/-! ### The recursive scan -/

namespace Scan

/-- What a scan found: a question, none, or a fault. -/
def found (sc : Scan) : Except Fault (Option Node) := sc.outcome.map fun c => c.bind List.getLast?

theorem next_assoc (sc : Scan) (f g : Env → Scan) :
    (sc.next f).next g = sc.next fun env => (f env).next g := by
  obtain ⟨env, events, passed, outcome⟩ := sc
  rcases outcome with e | (_ | chain)
  · rfl
  · simp only [next]
    rcases h : (f env).outcome with e | (_ | chain) <;> simp [h]
  · rfl

theorem next_halt_none (env : Env) (f : Env → Scan) : (halt env (.ok none)).next f = f env := by
  simp [next, halt]

theorem next_of_none {sc : Scan} (h : sc.outcome = .ok none) (f : Env → Scan) :
    (sc.next f).outcome = (f sc.env).outcome ∧ (sc.next f).env = (f sc.env).env := by
  simp only [next, h, and_self]

theorem next_of_ne {sc : Scan} (h : sc.outcome ≠ .ok none) (f : Env → Scan) : sc.next f = sc := by
  unfold next
  split
  next ho => exact absurd ho h
  next => rfl

theorem passed_next (sc : Scan) (f : Env → Scan) : (sc.next f).passed = sc.passed ++
    match sc.outcome with
    | .ok none => (f sc.env).passed
    | _ => [] := by
  obtain ⟨env, events, passed, outcome⟩ := sc
  rcases outcome with e | (_ | chain) <;> simp [next]

end Scan

namespace Setup

variable {s : Setup} {env mid out : Env} {n : Node}

theorem scanAll_append (xs ys : List Node) (env : Env) :
    s.scanAll env (xs ++ ys) = (s.scanAll env xs).next fun env => s.scanAll env ys := by
  induction xs generalizing env with
  | nil => rw [scanAll, Scan.next_halt_none, List.nil_append]
  | cons x xs ih =>
    rw [List.cons_append, scanAll, scanAll, Scan.next_assoc]
    simp only [ih]

theorem scanOptions_eq (selected : Value → Bool) (cs : List Node) (env : Env) :
    s.scanOptions selected env cs = s.scanAll env ((Branch.options selected).nodes cs) := by
  induction cs generalizing env with
  | nil => rw [scanOptions]; rfl
  | cons c cs ih =>
    obtain ⟨site, gs⟩ := c
    simp only [Branch.nodes] at ih
    simp only [scanOptions, Branch.nodes, List.flatMap_cons, scanAll_append]
    rw [show (Node.content (.node site gs)).option? = site.label.content.option? from rfl]
    cases site.label.content.option? with
    | none => simp only [scanAll, Scan.next_halt_none, ih]
    | some v =>
      by_cases hv : selected v = true
      · simp only [hv, if_true, ih]
        rfl
      · simp only [hv, scanAll, Scan.next_halt_none, ih, if_false, Bool.false_eq_true]

/-- What is active after a node is passed lies below it. -/
theorem mem_children_of_meet {active : List Node} (h : s.meet env n = .pass mid active) {m : Node}
    (hm : m ∈ active) : m ∈ n.children ∨
      ∃ c ∈ n.children, (Node.content c).option?.isSome = true ∧ m ∈ c.children := by
  unfold meet at h
  split at h
  case h_1 =>
    split at h
    · obtain ⟨-, rfl⟩ := Meeting.pass.inj h
      simp at hm
    · cases h
  case h_2 =>
    split_ifs at h
    split at h
    · cases h
    · obtain ⟨-, rfl⟩ := Meeting.pass.inj h
      simp at hm
    · cases h
    · split at h
      · cases h
      · obtain ⟨-, rfl⟩ := Meeting.pass.inj h
        exact Assembly.mem_children_of_mem_branch hm
  case h_3 =>
    obtain ⟨-, rfl⟩ := Meeting.pass.inj h
    split_ifs at hm
    · exact .inl hm
    · simp at hm
  case h_6 =>
    obtain ⟨-, rfl⟩ := Meeting.pass.inj h
    simp at hm
  case h_4 | h_5 =>
    obtain ⟨-, rfl⟩ := Meeting.pass.inj h
    exact .inl hm
  all_goals cases h

/-- The node is an output. -/
def isOutput (n : Node) : Bool :=
  match Node.content n with
  | .output _ => true
  | _ => false

theorem isOutput_iff : isOutput n = true ↔ ∃ r, Node.content n = .output r := by
  unfold isOutput
  cases Node.content n <;> simp

/-- The scan of a node does what is done at the node, and scans what is active below it. -/
theorem scan_meet (env : Env) (n : Node) :
    match s.meet env n with
    | .pass mid active => (s.scan env n).env = (s.scanAll mid active).env ∧
        (s.scan env n).outcome = (s.scanAll mid active).outcome.map (Option.map (n :: ·)) ∧
        (s.scan env n).passed = [n].filter isOutput ++ (s.scanAll mid active).passed
    | .due => (s.scan env n).env = env ∧ (s.scan env n).outcome = .ok (some [n])
    | .fail out f => (s.scan env n).env = out ∧ (s.scan env n).outcome = .error f := by
  obtain ⟨site, cs⟩ := n
  have hsite : Node.content (.node site cs) = site.label.content := rfl
  unfold meet scan
  rw [List.filter_cons, List.filter_nil, isOutput, hsite]
  cases hc : site.label.content with
  | preset =>
    simp only
    cases s.supply env (.ofNode (.node site cs)) (.node site cs) with
    | ok r =>
      simp only [scanAll]
      exact ⟨rfl, rfl, rfl⟩
    | error f => exact ⟨rfl, rfl⟩
  | question q =>
    by_cases hconcrete : q.form.isConcrete = true
    · simp only [hconcrete, if_true]
      cases s.resolve env (.node site cs) q with
      | error f => exact ⟨rfl, rfl⟩
      | ok resolution =>
        cases resolution with
        | skipped =>
          simp only [scanAll, true_and]
          exact ⟨rfl, rfl⟩
        | pending => exact ⟨rfl, rfl⟩
        | answered env' events v =>
          simp only
          cases Branch.ofAnswer (.node site cs) v with
          | error f => exact ⟨rfl, rfl⟩
          | ok b =>
            cases b with
            | all => exact ⟨rfl, rfl, rfl⟩
            | nothing =>
              simp only [Branch.nodes, scanAll]
              exact ⟨rfl, rfl, rfl⟩
            | options selected =>
              simp only [scanOptions_eq]
              exact ⟨rfl, rfl, rfl⟩
    · simp only [hconcrete]
      exact ⟨rfl, rfl⟩
  | conditional path expected =>
    cases hsat : satisfies env path expected with
    | true =>
      simp only [hsat, if_true]
      exact ⟨rfl, rfl, rfl⟩
    | false =>
      simp only [hsat, Bool.false_eq_true, if_false, scanAll, true_and]
      exact ⟨rfl, rfl⟩
  | output =>
    simp only [scanAll]
    exact ⟨rfl, rfl, rfl⟩
  | group | step => exact ⟨rfl, rfl, rfl⟩
  | option | binding | model | other => exact ⟨rfl, rfl⟩

/-- The scan of a node and the scan of what is active below it. -/
theorem scan_of_pass {active : List Node} (h : s.meet env n = .pass mid active) :
    (s.scan env n).env = (s.scanAll mid active).env ∧
      (s.scan env n).outcome = (s.scanAll mid active).outcome.map (Option.map (n :: ·)) ∧
      (s.scan env n).passed = [n].filter isOutput ++ (s.scanAll mid active).passed := by
  have hscan := scan_meet (s := s) env n
  rwa [h] at hscan

theorem scan_of_due (h : s.meet env n = .due) :
    (s.scan env n).env = env ∧ (s.scan env n).outcome = .ok (some [n]) := by
  have hscan := scan_meet (s := s) env n
  rwa [h] at hscan

theorem scan_of_fail {f : Fault} (h : s.meet env n = .fail out f) :
    (s.scan env n).env = out ∧ (s.scan env n).outcome = .error f := by
  have hscan := scan_meet (s := s) env n
  rwa [h] at hscan

/-- The chain that a scan finds begins at the node that it starts from. -/
theorem head?_of_scan {chain : List Node} (h : (s.scan env n).outcome = .ok (some chain)) :
    chain.head? = some n := by
  cases hm : s.meet env n with
  | pass mid active =>
    rw [(scan_of_pass hm).2.1] at h
    obtain ⟨c, -, h⟩ := Fallible.map_ok.mp h
    obtain ⟨c, -, rfl⟩ := Option.map_eq_some_iff.mp h
    rfl
  | due =>
    rw [(scan_of_due hm).2] at h
    cases h
    rfl
  | fail out f =>
    rw [(scan_of_fail hm).2] at h
    cases h

theorem ne_nil_of_scanAll : ∀ {ns : List Node} {env : Env} {chain : List Node},
    (s.scanAll env ns).outcome = .ok (some chain) → chain ≠ []
  | [], env, chain, h => by
    rw [scanAll] at h
    cases h
  | n :: ns, env, chain, h => by
    rw [scanAll, Scan.next] at h
    split at h
    next hn => exact ne_nil_of_scanAll h
    next =>
      have hhead := head?_of_scan h
      rintro rfl
      cases hhead

/-- Scans of several nodes end where their course does, if the scans of single ones do. -/
theorem scanAll_ends_of : ∀ {ns : List Node},
    (∀ n ∈ ns, ∀ env, s.Ends env [n] (s.scan env n).env (s.scan env n).found) →
    ∀ env, s.Ends env ns (s.scanAll env ns).env (s.scanAll env ns).found
  | [], _, env => by
    rw [scanAll]
    exact ends_nil_iff.mpr ⟨rfl, rfl⟩
  | n :: ns, h, env => by
    have hn := h n (by simp) env
    rw [scanAll, Scan.next, ← List.singleton_append]
    split
    next ho =>
      rw [Scan.found, ho] at hn
      exact (Ends.append_iff hn).mpr (scanAll_ends_of (fun m hm => h m (by simp [hm])) _)
    next ho =>
      refine Ends.append_of_ne hn fun hr => ho ?_
      obtain ⟨c, hc, hr⟩ := Fallible.map_ok.mp hr
      cases c with
      | none => exact hc
      | some chain =>
        have hhead := head?_of_scan hc
        rw [List.getLast?_eq_none_iff.mp hr] at hhead
        cases hhead

/-- **The recursive scan ends where the course does.** -/
theorem scan_ends (n : Node) : ∀ env, s.Ends env [n] (s.scan env n).env (s.scan env n).found := by
  induction n using Tree.inner_induction with
  | h n ihc ihg =>
    intro env
    rw [ends_cons_iff]
    cases hm : s.meet env n with
    | pass mid active =>
      have hactive : ∀ m ∈ active, ∀ env,
          s.Ends env [m] (s.scan env m).env (s.scan env m).found := by
        intro m hm'
        rcases mem_children_of_meet hm hm' with hm' | ⟨c, hc, -, hm'⟩
        · exact ihc m hm'
        · exact ihg c hc m hm'
      have hscan := scan_of_pass hm
      have hfound : (s.scan env n).found = (s.scanAll mid active).found := by
        rw [Scan.found, Scan.found, hscan.2.1]
        cases ho : (s.scanAll mid active).outcome with
        | error f => rfl
        | ok c =>
          cases c with
          | none => rfl
          | some chain =>
            obtain ⟨m, chain, rfl⟩ := List.exists_cons_of_ne_nil (ne_nil_of_scanAll ho)
            rfl
      rw [hscan.1, hfound]
      simpa using scanAll_ends_of hactive mid
    | due =>
      have hscan := scan_of_due hm
      rw [Scan.found, hscan.2]
      exact ⟨hscan.1, rfl⟩
    | fail out f =>
      have hscan := scan_of_fail hm
      rw [Scan.found, hscan.2]
      exact ⟨hscan.1, rfl⟩

theorem scanAll_ends (ns : List Node) (env : Env) :
    s.Ends env ns (s.scanAll env ns).env (s.scanAll env ns).found :=
  scanAll_ends_of (fun n _ => scan_ends n) env

/-! ### The outputs passed -/

theorem scanAll_singleton (env : Env) (n : Node) : s.scanAll env [n] = s.scan env n := by
  rw [scanAll]
  obtain ⟨env', events, passed, outcome⟩ := s.scan env n
  rcases outcome with f | (_ | chain) <;> simp [Scan.next, scanAll, Scan.halt]

/-- A scan passes the outputs on its course, and then those of the rest of its course. -/
theorem Course.passed_eq {ahead left : List Node} {met : List Passed}
    (h : s.Course env ahead met out left) : (s.scanAll env ahead).passed =
      (met.map Passed.node).filter isOutput ++ (s.scanAll out left).passed := by
  induction h with
  | refl => rfl
  | @step env mid out n active ahead left met hmeet _ ih =>
    have hscan := scan_of_pass hmeet
    have hnext : (s.scanAll env (n :: ahead)).passed =
        [n].filter isOutput ++ (s.scanAll mid (active ++ ahead)).passed := by
      rw [scanAll_append, scanAll, Scan.passed_next, Scan.passed_next, hscan.1, hscan.2.1,
        hscan.2.2, List.append_assoc]
      rcases (s.scanAll mid active).outcome with f | (_ | chain) <;> rfl
    rw [hnext, ih, ← List.append_assoc, ← List.filter_append]
    rfl

end Setup

end Scaffold
