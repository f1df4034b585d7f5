import Scaffold.Proofs.Env.Merge
import Scaffold.Proofs.InOrder
import Scaffold.Proofs.Writable

/-! # Answering a question by its name

A flow that waits for a question stands on it, so a value that is supplied under the name of the
question is merged at the path of the question (`Stage.result_supply_name`). Once it is bound, the
scan that follows finds another question or none, or trips on the way (`Setup.TripsAfter`). A scan
that trips over data makes the flow fail; one that trips over a value that cannot be written raises
an error. `Stage.Run.answer_by_name` says all that the step can come to. -/

namespace Scaffold

namespace Setup

variable {s : Setup} {env out : Env}

/-- A scan from the root trips at a node on its course. -/
def TripsAfter (s : Setup) (env : Env) (f : Fault) : Prop :=
  ∃ met mid n left, s.Course env [s.descriptor.root] met mid (n :: left) ∧ s.Trips mid n f

theorem Ends.tripsAfter (hs : s.Accepted) (henv : s.Sound env) {f : Fault}
    (h : s.Ends env [s.descriptor.root] out (.error f)) : s.TripsAfter env f ∧ f.OfBinding := by
  obtain ⟨met, mid, n, left, hc, hn, htrips⟩ := Ends.exists_trips hs henv hs.meets_start h
  exact ⟨⟨met, mid, n, left, hc, htrips⟩, htrips.ofBinding hs hn⟩

/-- Where all values can be written, a scan trips over the data. -/
theorem TripsAfter.ne_oversized (hs : s.Accepted) (hpresets : s.PresetsWritable)
    (henv : s.Sound env) (hw : env.Writable) {f : Fault} (h : s.TripsAfter env f) :
    f ≠ .oversized := by
  obtain ⟨met, mid, n, left, hc, htrips⟩ := h
  have hn := Course.meets hs hc henv hs.meets_start n List.mem_cons_self
  exact htrips.ne_oversized hpresets (Course.writable hs hpresets hc henv hs.meets_start hw) hn.1

end Setup

namespace Stage

variable {draft : Draft} {settings : Settings} {given : Mapping Value} {s t : Session} {n : Node}
  {q : Question} {path : String}

/-- The session with one more value bound. -/
def binding (s : Session) (path : String) (w : Value) (directory : String) : Session :=
  { s with env := s.env ++ [Env.entry path w directory] }

/-- What is supplied under the name of the question that is waited for gets bound at its path. -/
theorem result_supply_name (hs : s.Sound) (hw : s.Waits n) (hq : Node.content n = .question q)
    (hp : Node.path n = .ok path) (v : Value) (directory : String) :
    (supply s (some (.ofPairs [(q.name, v)] directory))).result =
      Answer.coerce n v path >>= fun w =>
        if s.setup.settings.maxContextSize < (s.env.length + 1 : Nat) then
          .error (.data (.overflow (s.env.length + 1) s.setup.settings.maxContextSize))
        else .ok (binding s path w directory) := by
  have hn : n ∈ s.setup.descriptor.nodes := hw.mem_nodes hs
  obtain ⟨scope, hscope, rfl⟩ := (Node.question_path_iff hq).mp hp
  rw [result_supply, hw.current]
  show (s.setup.supply s.env _ n).map _ = _
  rw [Setup.supply_of_scope hscope, hs.accepted.merge_name hn hq hscope (hw.unbound hp)]
  cases Answer.coerce n v (Path.join scope q.name) with
  | error f => rfl
  | ok w =>
    show Except.map _ (Except.map _ (ite _ _ _)) = ite _ _ _
    split_ifs <;> rfl

theorem supply_name (h : s.Accounted given) (hw : s.Waits n) (hq : Node.content n = .question q)
    (hp : Node.path n = .ok path) {v w : Value} (hv : Answer.coerce n v path = .ok w)
    (hroom : s.env.length < s.setup.settings.maxContextSize) (directory : String) :
    (supply s (some (.ofPairs [(q.name, v)] directory))).result =
        .ok (binding s path w directory) ∧ (binding s path w directory).Sound ∧
      (binding s path w directory).env.get? path = some ⟨path, w, directory⟩ := by
  have hlimit : ¬ s.setup.settings.maxContextSize < (s.env.length + 1 : Nat) := by omega
  have hsupply := result_supply_name h.sound hw hq hp v directory
  rw [hv] at hsupply
  have hsupplied := hsupply.trans (if_neg hlimit)
  refine ⟨hsupplied, (h.supply hw.current hsupplied).1.sound, ?_⟩
  show Mapping.get? (s.env ++ [Env.entry path w directory]) path = _
  rw [Mapping.get?_append, hw.unbound hp]
  simp [Mapping.get?, Env.entry]

/-- A waiting flow whose batch cannot be merged fails. -/
theorem result_next_of_supply_error {batch : Option Batch} {d : DataFault}
    (h : (supply s batch).result = .error (.data d)) :
    ((waiting s n).next batch).result = .ok (failed d .waiting) := by
  rw [result_next, step, result_resume, h]
  rfl

/-- A waiting flow whose batch is merged settles its question. -/
theorem result_next_of_supply {batch : Option Batch} (h : (supply s batch).result = .ok t) :
    ((waiting s n).next batch).result =
      match (settle t n).result with
      | .error (.data f) => .ok (failed f .waiting)
      | r => r := by
  rw [result_next, step, result_resume, h]
  rfl

/-- When the question that was waited for is bound, the scan goes on. -/
theorem result_settle_bound (hp : Node.path n = .ok path) {b : Binding}
    (hb : t.env.get? path = some b) : (settle t n).result = (advance t).result := by
  have hanswered : t.isAnswered n = .ok true := by
    rw [Session.isAnswered, hp]
    simp [Except.map, hb]
  rw [result_settle, hanswered]
  rfl

/-- A scan from a session finds a question without an answer or none, or trips. -/
theorem advance_cases (ht : t.Sound) :
    (∃ f, (advance t).result = .error f ∧ t.setup.TripsAfter t.env f ∧ f.OfBinding) ∨
    ∃ u, t.env <+: u.env ∧ ((advance t).result = .ok (ready u) ∨
      ∃ m, u.Waits m ∧ (advance t).result = .ok (waiting u m)) := by
  have hsought := ht.seek
  rw [result_advance]
  cases hr : t.seek.result with
  | error f =>
    rw [hr] at hsought
    exact .inl ⟨f, rfl, Setup.Ends.tripsAfter ht.accepted ht.env hsought.ends⟩
  | ok r =>
    rw [hr] at hsought
    refine .inr ⟨t.seek.state, hsought.grows, ?_⟩
    cases r with
    | none => exact .inl rfl
    | some m => exact .inr ⟨m, hsought.waits ht, rfl⟩

/-- **What a scan comes to** once the question at a node is bound: it trips over data, or over a
value that cannot be written, or it comes to its end or to another question, and the question stays
bound. -/
inductive GoesOn (s : Session) (n : Node) (path : String) (b : Binding) : Except Fault Stage → Prop
  | failed {d : DataFault} : s.setup.TripsAfter s.env (.data d) → d.OfBinding →
      GoesOn s n path b (.ok (failed d .waiting))
  | oversized : s.setup.TripsAfter s.env .oversized → GoesOn s n path b (.error .oversized)
  | ready {u : Session} : u.env.get? path = some b → GoesOn s n path b (.ok (ready u))
  | waiting {u : Session} {m : Node} : u.env.get? path = some b → m ≠ n →
      GoesOn s n path b (.ok (waiting u m))

/-- A waiting flow whose batch binds the question goes on from it. -/
theorem next_of_bound {batch : Option Batch} (hsupply : (supply s batch).result = .ok t)
    (ht : t.Sound) (hp : Node.path n = .ok path) {b : Binding} (hb : t.env.get? path = some b) :
    GoesOn t n path b ((waiting s n).next batch).result := by
  rw [result_next_of_supply hsupply, result_settle_bound hp hb]
  rcases advance_cases ht with
    ⟨f, hf, htrips, hbinding⟩ | ⟨u, hgrow, hready | ⟨m, hwaits, hwaiting⟩⟩
  · rw [hf]
    cases hbinding with
    | data hd => exact .failed htrips hd
    | oversized => exact .oversized htrips
  · rw [hready]
    exact .ready (Mapping.get?_of_prefix hgrow hb)
  · rw [hwaiting]
    have hbound : u.env.get? path = some b := Mapping.get?_of_prefix hgrow hb
    refine .waiting hbound ?_
    -- A question that is waited for is not bound, and this one is.
    rintro rfl
    rw [hwaits.unbound hp] at hbound
    cases hbound

theorem GoesOn.ne_oversized {b : Binding} {r : Except Fault Stage} (h : GoesOn s n path b r)
    (hs : s.Sound) (hpresets : s.setup.PresetsWritable) (hw : s.env.Writable) :
    r ≠ .error .oversized := by
  rintro rfl
  cases h with
  | oversized htrips => exact htrips.ne_oversized hs.accepted hpresets hs.env hw rfl

/-- **What a value comes to** that is supplied, from a directory, for the question at a path that a
session waits for: it is no answer to the question, or there is no room for it, or the scan that
follows trips, or it is bound as it is coerced and the flow is done with the question. -/
structure Answered (s : Session) (n : Node) (path : String) (v : Value) (directory : String)
    (r : Except Fault Stage) : Prop where
  unfit : ∀ f, Answer.coerce n v path = .error f →
    ∃ m, f = .data (.mismatch m) ∧ r = .ok (failed (.mismatch m) .waiting)
  full : ∀ w, Answer.coerce n v path = .ok w → s.setup.settings.maxContextSize ≤ s.env.length →
    r = .ok (failed (.overflow (s.env.length + 1) s.setup.settings.maxContextSize) .waiting)
  bound : ∀ w, Answer.coerce n v path = .ok w → s.env.length < s.setup.settings.maxContextSize →
    GoesOn (binding s path w directory) n path ⟨path, w, directory⟩ r

theorem answered_of_waits (h : s.Accounted given) (hw : s.Waits n)
    (hq : Node.content n = .question q) (hp : Node.path n = .ok path) (v : Value)
    (directory : String) : Answered s n path v directory
      ((waiting s n).next (some (.ofPairs [(q.name, v)] directory))).result := by
  have hsupply := result_supply_name h.sound hw hq hp v directory
  refine ⟨fun f hf => ?_, fun w hv hfull => ?_, fun w hv hroom => ?_⟩
  · obtain ⟨_, -, hfits⟩ := h.sound.accepted.question (hw.mem_nodes h.sound) hq
    obtain ⟨m, rfl⟩ := Answer.mismatch_of_coerce (Node.question?_eq_some.mpr hq) hfits.concrete hf
    rw [hf] at hsupply
    exact ⟨m, rfl, result_next_of_supply_error hsupply⟩
  · have hlimit : s.setup.settings.maxContextSize < (s.env.length + 1 : Nat) := by omega
    rw [hv] at hsupply
    exact result_next_of_supply_error (hsupply.trans (if_pos hlimit))
  · obtain ⟨hsupplied, ht, hget⟩ := supply_name h hw hq hp hv hroom directory
    exact next_of_bound hsupplied ht hp hget

/-- An answer is in normal form, so it can be written. -/
theorem Answered.ne_oversized {v : Value} {directory : String} {r : Except Fault Stage}
    (ha : Answered s n path v directory r) (h : s.Accounted given) (hw : s.Waits n)
    (hq : Node.content n = .question q) (hp : Node.path n = .ok path)
    (hpresets : s.setup.PresetsWritable) (henv : s.env.Writable) : r ≠ .error .oversized := by
  intro hr
  cases hv : Answer.coerce n v path with
  | error f =>
    obtain ⟨m, -, hfailed⟩ := ha.unfit f hv
    cases hfailed.symm.trans hr
  | ok w =>
    rcases lt_or_ge (s.env.length : Int) s.setup.settings.maxContextSize with hroom | hfull
    · obtain ⟨-, ht, -⟩ := supply_name h hw hq hp hv hroom directory
      obtain ⟨_, -, -, hnormal⟩ := Answer.normal_of_coerce hv
      refine (ha.bound w hv hroom).ne_oversized ht hpresets ?_ hr
      exact henv.bind hnormal.writable (Env.bind_ok_iff.mpr (.inl ⟨hw.unbound hp, rfl⟩))
    · cases (ha.full w hv hfull).symm.trans hr

/-- **A question that a flow waits for can be answered by its name.** Whatever steps a flow has
taken, if it waits for a question then a batch of one value under the name of the question concerns
that question and comes to what `Answered` says. Nothing is too long to be written if all values of
the draft and all that was given can be written, whatever the value supplied. -/
theorem Run.answer_by_name (h : Run draft settings given (waiting s n)) (v : Value)
    (directory : String) : ∃ q path, Node.content n = .question q ∧ Node.path n = .ok path ∧
      Answered s n path v directory
        ((waiting s n).next (some (.ofPairs [(q.name, v)] directory))).result ∧
      (draft.Writable → given.Writable →
        ((waiting s n).next (some (.ofPairs [(q.name, v)] directory))).result ≠
          .error .oversized) := by
  obtain ⟨hfills, haccounted, hw⟩ := h.fair
  obtain ⟨q, path, hq, hp, -⟩ := hw.due
  have hanswered := answered_of_waits haccounted hw hq hp v directory
  refine ⟨q, path, hq, hp, hanswered, fun hdraft hgiven => ?_⟩
  have hpresets := hdraft.presets hfills
  exact hanswered.ne_oversized haccounted hw hq hp hpresets (haccounted.writable hpresets hgiven)

/-- The first question is answered with a text by its name, and the one behind the gate is next. -/
theorem earlyGate_answer_by_name : ∃ s n, Run (.earlyGate false) {} [] (waiting s n) ∧
    Answered s n "x" (.str "v") ""
      ((waiting s n).next (some (.ofPairs [("x", .str "v")] ""))).result ∧
    Answer.coerce n (.str "v") "x" = .ok (.str "v") ∧
    s.env.length < s.setup.settings.maxContextSize ∧
    ∃ u m, ((waiting s n).next (some (.ofPairs [("x", .str "v")] ""))).result =
      .ok (waiting u m) ∧ Node.path m = .ok "y" := by
  obtain ⟨s, n, h, hname, hp, hcoerce, hroom, hnext⟩ : ∃ s n,
      Run (.earlyGate false) {} [] (waiting s n) ∧
      (Node.question? n).map Question.name = some "x" ∧ Node.path n = .ok "x" ∧
      Answer.coerce n (.str "v") "x" = .ok (.str "v") ∧
      s.env.length < s.setup.settings.maxContextSize ∧
      ∃ u m, ((waiting s n).next (some (.ofPairs [("x", .str "v")] ""))).result =
        .ok (waiting u m) ∧ Node.path m = .ok "y" := by
    have h := @Run.step (.earlyGate false) {} _ _ _ none .start rfl
    exact ⟨_, _, h, rfl, rfl, rfl, by decide, _, _, rfl, rfl⟩
  obtain ⟨q, path, hq, hpath, hanswered, -⟩ := h.answer_by_name (.str "v") ""
  obtain rfl : path = "x" := Except.ok.inj (hpath.symm.trans hp)
  have hqname : q.name = "x" := by
    rw [Node.question?_eq_some.mpr hq] at hname
    exact Option.some.inj hname
  rw [hqname] at hanswered
  exact ⟨s, n, h, hanswered, hcoerce, hroom, hnext⟩

end Stage

/-! ### Scans that trip over a long value -/

namespace Stage

open Setup

/-- The flow waits for the question with the name of the preset bound to a number. When the question
is answered, the scan trips over the preset if that gives another value, which it cannot report if
the value cannot be written. -/
theorem presetBehind_oversized {v : Value} (h : (Value.int 1).equal v = false)
    (hv : ¬ v.Writable) : ∃ s n, Run (.presetBehind v) {} [("x", .int 1)] (waiting s n) ∧
      (Node.question? n).map Question.name = some "p" ∧
      Answer.coerce n (.str "a") "p" = .ok (.str "a") ∧
      s.env.length < s.setup.settings.maxContextSize ∧
      ((waiting s n).next (some (.ofPairs [("p", .str "a")] ""))).result = .error .oversized := by
  obtain ⟨s, n, hrun, hname, hcoerce, hp, henv, hlimit, preset, hroot, hquestion, hcontent, hscope,
      hmembers, hlookup⟩ : ∃ s n, Run (.presetBehind v) {} [("x", .int 1)] (waiting s n) ∧
      (Node.question? n).map Question.name = some "p" ∧
      Answer.coerce n (.str "a") "p" = .ok (.str "a") ∧ Node.path n = .ok "p" ∧
      s.env = [("x", ⟨"x", .int 1, ""⟩)] ∧ s.setup.settings.maxContextSize = 1000 ∧
      let env := (binding s "p" (.str "a") "").env
      ∃ preset, s.setup.meet env s.setup.descriptor.root = .pass env [n, preset] ∧
        s.setup.meet env n = .pass env [] ∧ Node.content preset = .preset ∧
        Node.scope preset = .ok "" ∧ (Batch.ofNode preset).members = [⟨.binding "x" v, ""⟩] ∧
        s.setup.inputs.get? "x" = none := by
    have h := @Run.step (.presetBehind v) {} _ _ _ (some (.ofPairs [("x", .int 1)] "")) .start rfl
    exact ⟨_, _, h, rfl, rfl, rfl, rfl, rfl, _, rfl, rfl, rfl, rfl, rfl, rfl⟩
  have hroom : s.env.length < s.setup.settings.maxContextSize := by
    rw [henv, hlimit]
    decide
  refine ⟨s, n, hrun, hname, hcoerce, hroom, ?_⟩
  obtain ⟨-, haccounted, hw⟩ := hrun.fair
  obtain ⟨q, -, hq, -⟩ := hw.due
  have hqname : q.name = "p" := by
    rw [Node.question?_eq_some.mpr hq] at hname
    exact Option.some.inj hname
  obtain ⟨hsupplied, ht, hget⟩ := supply_name haccounted hw hq hp hcoerce hroom ""
  have hclash : Env.Clashes "" s.setup.inputs.get? (binding s "p" (.str "a") "").env
      (Batch.ofNode preset).members (.int 1) v := by
    refine ⟨[], ⟨.binding "x" v, ""⟩, [], [], "x", ⟨"x", .int 1, ""⟩, hmembers, .nil,
      Env.compatible_nil _, ⟨"x", v, rfl, rfl, rfl, ?_⟩, ?_, rfl, h⟩
    · rw [Env.settle, hlookup]
    · rw [binding, henv]
      rfl
  have hfail : s.setup.meet (binding s "p" (.str "a") "").env preset =
      .fail (binding s "p" (.str "a") "").env .oversized := by
    rw [meet_preset hcontent hscope]
    rcases @Env.merge_of_clashes _ _ s.setup.settings.maxContextSize _ _ _ _ hclash with
      ⟨hboth, -⟩ | ⟨-, hover⟩
    · exact absurd hboth.2 hv
    · rw [hover]
  have hends : s.setup.Ends (binding s "p" (.str "a") "").env [s.setup.descriptor.root]
      (binding s "p" (.str "a") "").env (.error .oversized) :=
    ⟨_, _, _, .step hroot (.step hquestion (.refl _ _)), .fail hfail⟩
  obtain ⟨-, hseek⟩ := hends.unique ht.seek.ends
  rw [← hqname, result_next_of_supply hsupplied, result_settle_bound hp hget, result_advance,
    ← hseek]
  rfl

/-- An answer to the question does not make the flow fail, nor does the flow go on. -/
theorem presetBehind_not_answered : ∃ s n,
    Run (.presetBehind .long) {} [("x", .int 1)] (waiting s n) ∧
    (Node.question? n).map Question.name = some "p" ∧
    Answer.coerce n (.str "a") "p" = .ok (.str "a") ∧
    s.env.length < s.setup.settings.maxContextSize ∧
    ¬ ∃ stage, ((waiting s n).next (some (.ofPairs [("p", .str "a")] ""))).result = .ok stage := by
  obtain ⟨s, n, hrun, hname, hcoerce, hroom, hover⟩ :=
    presetBehind_oversized (Value.not_equal_long rfl) Value.not_writable_long
  refine ⟨s, n, hrun, hname, hcoerce, hroom, fun ⟨stage, h⟩ => ?_⟩
  cases h.symm.trans hover

end Stage

end Scaffold
