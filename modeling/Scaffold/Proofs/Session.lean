import Scaffold.Flow.Stage
import Scaffold.Proofs.Plan
import Scaffold.Proofs.Trail

/-! # Operations on sessions

What the operations on a session and the steps of a flow result in, one equation or one description
for each. A session of a flow has entered the root of its descriptor and stands on a node of it
(`Session.Sound`); then `Session.seek` ends where the course of the scan from the root ends
(`Session.Sound.seek`). -/

namespace Scaffold

namespace Env

theorem names_values (env : Env) : Mapping.names env.values = Mapping.names env := by
  simp [Mapping.names, values]

theorem Sound.nodup_values {lookup : String → Option Node} {limit : Int} {env : Env}
    (h : Sound lookup limit env) : (Mapping.names env.values).Nodup := by
  rw [names_values]
  exact h.nodup

theorem Sound.isEmpty_values {lookup : String → Option Node} {limit : Int} {env : Env}
    (h : Sound lookup limit env) : ∀ p ∈ env.values, p.1.isEmpty = false := by
  intro p hp
  obtain ⟨q, hq, rfl⟩ := List.mem_map.mp hp
  exact (h.named q hq).2

end Env

open Assembly

namespace Session

/-- The setup is one of an accepted descriptor, the environment is one that the setup leads to, and
the nodes entered begin at the root and end at a node of the descriptor. -/
structure Sound (s : Session) : Prop where
  accepted : s.setup.Accepted
  env : s.setup.Sound s.env
  head : s.stack.items.head? = some s.setup.descriptor.root
  current : ∃ n ∈ s.setup.descriptor.nodes, s.current = .ok n

variable {s t : Session} {n : Node}

theorem current_ok_iff : s.current = .ok n ↔ s.stack.items.getLast? = some n := by
  rw [current, Fallible.mapError_ok, Stack.peek]
  cases s.stack.items.getLast? <;> simp

/-- The session as a scan leaves it: the scan started at the root with what was bound, and what has
been entered is the chain of nodes that it found, or the root alone. -/
structure Sought (s t : Session) (r : Except Fault (Option Node)) : Prop where
  setup : t.setup = s.setup
  env : t.env = (s.setup.scan s.env s.setup.descriptor.root).env
  result : r = (s.setup.scan s.env s.setup.descriptor.root).found
  entered : t.stack.items =
    match (s.setup.scan s.env s.setup.descriptor.root).outcome with
    | .ok (some chain) => chain
    | _ => [s.setup.descriptor.root]

/-- A session that has entered the root scans from there. -/
theorem sought_seek (hhead : s.stack.items.head? = some s.setup.descriptor.root) :
    s.Sought s.seek.state s.seek.result := by
  rw [seek_of_head hhead]
  exact ⟨rfl, rfl, rfl, rfl⟩

theorem Sound.seek (hs : s.Sound) : s.Sought s.seek.state s.seek.result := sought_seek hs.head

/-- The session stands on a question that needs an answer, having entered all nodes on the trail to
it. -/
structure Waits (s : Session) (n : Node) : Prop where
  trail : Trail s.env.values s.setup.descriptor.root s.stack.items n
  due : ∃ q path, Node.content n = .question q ∧ Node.path n = .ok path ∧
    s.env.get? path = none ∧ q.isOptional = false ∧
    (s.setup.settings.acceptDefaults && q.hasFallback) = false

theorem Waits.current (hw : s.Waits n) : s.current = .ok n :=
  current_ok_iff.mpr hw.trail.getLast?

/-- The question that a session waits for is not bound. -/
theorem Waits.unbound (hw : s.Waits n) {path : String} (hp : Node.path n = .ok path) :
    s.env.get? path = none := by
  obtain ⟨_, path', -, hp', hu, -⟩ := hw.due
  obtain rfl : path = path' := Except.ok.inj (hp.symm.trans hp')
  exact hu

theorem Waits.reached (hw : s.Waits n) : Reaches s.env.values s.setup.descriptor.root n :=
  hw.trail.reaches

/-- The bound values are those that a complete scan has left. -/
def Scanned (s : Session) : Prop :=
  ∃ before met, s.setup.Sound before ∧
    s.setup.Course before [s.setup.descriptor.root] met s.env []

theorem Waits.mem_nodes (hs : s.Sound) (hw : s.Waits n) : n ∈ s.setup.descriptor.nodes :=
  (hw.reached.meets hs.accepted hs.accepted.meets_root).1

/-- The scan ends where its course does. -/
theorem Sought.ends {r : Except Fault (Option Node)} (h : s.Sought t r) :
    s.setup.Ends s.env [s.setup.descriptor.root] t.env r := by
  rw [h.env, h.result]
  exact Setup.scan_ends _ _

theorem Sought.grows {r : Except Fault (Option Node)} (h : s.Sought t r) : s.env <+: t.env :=
  h.ends.growth.grows

theorem Sought.rested (h : s.Sought t (.ok none)) : t.stack.items = [s.setup.descriptor.root] := by
  rw [h.entered]
  split
  next chain ho =>
    have hfound := h.result
    rw [Scan.found, ho] at hfound
    exact absurd (List.getLast?_eq_none_iff.mp (Except.ok.inj hfound).symm)
      fun hnil => by simpa [hnil] using Setup.head?_of_scan ho
  next => rfl

/-- What has been entered is the trail to the question found. -/
theorem Sought.trail (hs : s.Sound) (h : s.Sought t (.ok (some n))) :
    Trail t.env.values s.setup.descriptor.root t.stack.items n := by
  obtain ⟨chain, ho, hn⟩ := Fallible.map_ok.mp h.result.symm
  obtain ⟨chain, rfl, hlast⟩ := Option.bind_eq_some_iff.mp hn
  obtain ⟨m, htrail⟩ := Setup.trail_of_scan hs.accepted _ hs.env hs.accepted.meets_root ho
  obtain rfl : m = n := Option.some.inj (htrail.getLast?.symm.trans hlast)
  have hentered := h.entered
  rw [ho] at hentered
  rw [hentered, h.env]
  exact htrail

/-- The question that a scan finds is waited for. -/
theorem Sought.waits (hs : s.Sound) (h : s.Sought t (.ok (some n))) : t.Waits n := by
  obtain ⟨met, mid, left, hc, hstop⟩ := h.ends
  have htrail := h.trail hs
  cases hstop with
  | due hdue =>
    have hsound := hc.sound hs.env
    have hleft := Setup.Course.meets hs.accepted hc hs.env hs.accepted.meets_start
    refine ⟨by rwa [h.setup], ?_⟩
    rw [h.setup]
    exact hs.accepted.question_of_due hsound (hleft n (by simp)) hdue

theorem Sought.sound {r : Option Node} (hs : s.Sound) (h : s.Sought t (.ok r)) : t.Sound := by
  have haccepted : t.setup.Accepted := h.setup ▸ hs.accepted
  have henv : t.setup.Sound t.env := h.setup ▸ h.ends.growth.sound hs.env
  cases r with
  | none =>
    have hentered := h.rested
    rw [← h.setup] at hentered
    refine ⟨haccepted, henv, by rw [hentered]; rfl, _, Descriptor.root_mem_nodes _, ?_⟩
    rw [current_ok_iff, hentered]
    rfl
  | some n =>
    have hw := h.waits hs
    exact ⟨haccepted, henv, hw.trail.head?,
      n, (hw.reached.meets haccepted haccepted.meets_root).1, hw.current⟩

theorem Sought.scanned (hs : s.Sound) (h : s.Sought t (.ok none)) : t.Scanned := by
  obtain ⟨met, hc⟩ := h.ends.course
  exact ⟨s.env, met, by rw [h.setup]; exact hs.env, by rw [h.setup]; exact hc⟩

/-- The default of a question is bound at the end. -/
theorem Sound.default (hs : s.Sound) (hn : n ∈ s.setup.descriptor.nodes) {q : Question}
    {path : String} (hq : Node.content n = .question q) (hp : Node.path n = .ok path)
    (hu : s.env.get? path = none) (hf : q.hasFallback = true) {out : Env} {events : List Event}
    (hout : s.setup.acceptDefault s.env n = .ok (out, events)) :
    Sound { s with env := out } ∧ ∃ w, Answer.coerce n q.fallback path = .ok w ∧
      out = s.env ++ [Setup.entry n path w] := by
  obtain ⟨w, -, hw, -⟩ := hs.accepted.exists_default hn hq hp hf
  have hdefault := hs.accepted.acceptDefault_eq hn hq hp hu hw
  rw [hout] at hdefault
  split_ifs at hdefault with hroom
  · cases hdefault
  obtain rfl : out = s.env ++ [Setup.entry n path w] := Except.ok.inj hdefault
  exact ⟨⟨hs.accepted, hs.accepted.sound_default hs.env hn hq hp hu hw hroom, hs.head,
    hs.current⟩, w, hw, rfl⟩

/-- The plan of the bound values, with directives. -/
def plan (s : Session) (outputs : List Directive) : Plan :=
  ⟨(Plan.sorted s.env.values).map fun p => ⟨p.1, p.2⟩, outputs⟩

end Session

namespace Stage

open Report

variable {s : Session}

/-- The stage that a session is in after a scan. -/
def sought (s : Session) : Option Node → Stage
  | some n => waiting s n
  | none => ready s

theorem result_advance (s : Session) :
    (advance s).result = s.seek.result.map (sought s.seek.state) := by
  rw [advance, result_bind, Outcome.result_report]
  rcases s.seek.result with f | (_ | n) <;> rfl

theorem result_supply (s : Session) (batch : Batch) : (supply s (some batch)).result =
    s.current >>= fun anchor => (s.setup.supply s.env batch anchor).map fun r =>
      { s with env := r.1 } := by
  rw [supply, result_bind, result_ofExcept]
  congr 1
  funext anchor
  rw [result_bind, Outcome.result_report, Session.supply]
  cases s.setup.supply s.env batch anchor <;> rfl

/-- A batch that is supplied is merged at the scope of the current node. -/
theorem merge_of_supply {anchor : Node} (hanchor : s.current = .ok anchor) {scope : String}
    (hscope : Node.scope anchor = .ok scope) {batch : Batch} {t : Session}
    (ht : (supply s (some batch)).result = .ok t) :
    ∃ out, s.env.merge batch scope s.setup.inputs.get? s.setup.settings.maxContextSize = .ok out ∧
      t = { s with env := out } := by
  rw [result_supply, hanchor] at ht
  obtain ⟨⟨out, event⟩, hout, rfl⟩ := Fallible.map_ok.mp ht
  rw [Setup.supply_of_scope hscope] at hout
  obtain ⟨out, hmerge, hout⟩ := Fallible.map_ok.mp hout
  obtain ⟨rfl, -⟩ := Prod.mk.inj hout
  exact ⟨out, hmerge, rfl⟩

theorem result_settle (s : Session) (pending : Node) : (settle s pending).result =
    s.isAnswered pending >>= fun answered =>
      if answered then (advance s).result
      else if ((Node.question? pending).map Question.hasFallback).getD false then
        ((s.setup.acceptDefault s.env pending).map fun r => { s with env := r.1 }) >>= fun s =>
          (advance s).result
      else .ok (waiting s pending) := by
  rw [settle, result_bind, result_ofExcept]
  congr 1
  funext answered
  split_ifs
  · rfl
  · rw [result_bind, Outcome.result_report, Session.acceptDefault]
    cases s.setup.acceptDefault s.env pending <;> rfl
  · rfl

theorem result_resume (s : Session) (pending : Node) (batch : Option Batch) :
    (resume s pending batch).result =
      (supply s batch).result >>= fun s => (settle s pending).result := by
  rw [resume, result_bind]

theorem result_finish (s : Session) (batch : Option Batch) : (finish s batch).result =
    (supply s batch).result >>= fun s => s.assemble >>= fun outputs =>
      (Plan.snapshot s.env.values outputs).toExcept.map done := by
  rw [finish, result_bind]
  congr 1
  funext s
  rw [result_bind, result_ofExcept]
  congr 1
  funext outputs
  rw [result_bind]
  show (_ : Report Stage).result = _
  rw [result_bind, result_ofExcept]
  cases (Plan.snapshot s.env.values outputs).toExcept <;> rfl

/-- The session that a flow begins with. -/
def opened (draft : Draft) (settings : Settings) : Except Fault Session :=
  draft.accept >>= fun d => ((Setup.new d settings).mapError Fault.flaw).map fun setup =>
    (Session.new setup).enter d.root

theorem result_start (draft : Draft) (settings : Settings) (batch : Option Batch) :
    (start draft settings batch).result = opened draft settings >>= fun s =>
      match batch with
      | none => (advance s).result
      | some b => (supply s (some b)).result >>= fun s =>
        s.seek.result >>= fun pending =>
          match pending with
          | some n => (settle s.seek.state n).result
          | none => .ok (ready s.seek.state) := by
  unfold start opened
  rw [result_bind, result_ofExcept]
  cases draft.accept with
  | error f => rfl
  | ok d =>
    show (_ : Report Stage).result = (((Setup.new d settings).mapError Fault.flaw).map fun setup =>
      (Session.new setup).enter d.root) >>= _
    rw [result_bind, result_ofExcept]
    cases (Setup.new d settings).mapError Fault.flaw with
    | error f => rfl
    | ok setup =>
      cases batch with
      | none => rfl
      | some b =>
        show (_ : Report Stage).result = _
        rw [result_bind]
        show _ = (supply ((Session.new setup).enter d.root) (some b)).result >>= _
        congr 1
        funext s
        rw [result_bind, Outcome.result_report]
        rcases s.seek.result with f | (_ | n) <;> rfl

theorem result_next (stage : Stage) (batch : Option Batch) : (stage.next batch).result =
    match (stage.step batch).result with
    | .error (.data f) => .ok (failed f stage.phase)
    | r => r := by
  rw [next]
  rcases h : (stage.step batch).result with (f | f | _ | _ | _ | _) | st <;> simp [h]

/-- The step of a ready flow whose batch, if it has one, is merged. -/
theorem result_next_ready_of_supply {t : Session} {batch : Option Batch}
    (hsupply : (supply s batch).result = .ok t) (ht : t.Sound) :
    ((ready s).next batch).result =
      match t.assemble with
      | .ok outputs => .ok (done (t.plan outputs))
      | .error (.data f) => .ok (failed f .ready)
      | .error f => .error f := by
  have hstep : ((ready s).step batch).result =
      t.assemble >>= fun outputs => .ok (done (t.plan outputs)) := by
    rw [step, result_finish, hsupply]
    show (t.assemble >>= fun outputs => _) = _
    congr 1
    funext outputs
    rw [Plan.snapshot_eq ht.env.isEmpty_values]
    rfl
  rw [result_next, hstep]
  rcases t.assemble with (f | f | _ | _ | _ | _) | outputs <;> rfl

/-- The step of a ready flow without a batch. -/
theorem result_next_ready (hs : s.Sound) : ((ready s).next none).result =
    match s.assemble with
    | .ok outputs => .ok (done (s.plan outputs))
    | .error (.data f) => .ok (failed f .ready)
    | .error f => .error f := result_next_ready_of_supply rfl hs

end Stage

end Scaffold
