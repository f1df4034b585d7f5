import Scaffold.Analysis
import Scaffold.Plan
import Scaffold.Session

/-! # Stages of a flow

A flow goes from its initial stage through any number of waiting stages to a ready and a done one,
or from any of the first three to a failed one. `Stage.next` gives the stage that follows once a
batch is supplied, or none is; it leaves the stage it starts from as it was. A fault of the data
makes the next stage a failed one, a fault of use ends the step without a stage. -/

namespace Scaffold

/-- Where a flow stands and what it needs to go on. -/
inductive Stage where
  | initial (draft : Draft) (settings : Settings)
  | waiting (session : Session) (pending : Node)
  | ready (session : Session)
  | done (plan : Plan)
  | failed (fault : DataFault) (since : Phase)
  | other (variant : String) (phase : Phase)

namespace Stage

/-- The phase of a stage. -/
def phase : Stage → Phase
  | initial .. => .initial
  | waiting .. => .waiting
  | ready _ => .ready
  | done _ => .done
  | failed .. => .error
  | other _ p => p

/-- The plan of a finished flow. -/
def plan? : Stage → Option Plan
  | done p => some p
  | _ => none

/-- The fault of a failed flow. -/
def fault? : Stage → Option DataFault
  | failed f _ => some f
  | _ => none

/-- The session of a flow that is being filled in. -/
def session? : Stage → Option Session
  | waiting s _ | ready s => some s
  | _ => none

/-- The question that a flow waits for. -/
def pending? : Stage → Option Node
  | waiting _ n => some n
  | _ => none

/-- The path of the question that a flow waits for. -/
def pendingPath (s : Stage) : String :=
  match s.pending?.map Node.path with
  | some (.ok path) => path
  | _ => ""

/-- Scans for the next question: waits for it, or is ready when there is none. -/
def advance (s : Session) : Report Stage := do
  let (s, pending) ← s.seek.report
  match pending with
  | some n => return waiting s n
  | none => return ready s

/-- Merges a batch, if there is one, at the node that the session stands on. -/
def supply (s : Session) : Option Batch → Report Session
  | none => return s
  | some batch => do
    let anchor ← Report.ofExcept s.current
    let (s, ()) ← (s.supply batch anchor).report
    return s

/-- Goes on after a batch was merged while a question was due: the question takes its default if it
was left without an answer, and is waited for if it has none. -/
def settle (s : Session) (pending : Node) : Report Stage := do
  if ← Report.ofExcept (s.isAnswered pending) then advance s
  else if ((Node.question? pending).map Question.hasFallback).getD false then do
    let (s, ()) ← (s.acceptDefault pending).report
    advance s
  else return waiting s pending

/-- The first step: the draft is accepted, the batch is merged at the root, and the question that is
due then is settled. Without a batch the first question is only looked for. -/
def start (draft : Draft) (settings : Settings) (batch : Option Batch) : Report Stage := do
  let descriptor ← Report.ofExcept draft.accept
  let setup ← Report.ofExcept ((Setup.new descriptor settings).mapError Fault.flaw)
  let s := (Session.new setup).enter descriptor.root
  match batch with
  | none => advance s
  | some b => do
    let s ← supply s (some b)
    let (s, pending) ← s.seek.report
    match pending with
    | some n => settle s n
    | none => return ready s

/-- A step from a waiting stage. -/
def resume (s : Session) (pending : Node) (batch : Option Batch) : Report Stage := do
  let s ← supply s batch
  settle s pending

/-- The last step: the active outputs are assembled and the bound values are put down. -/
def finish (s : Session) (batch : Option Batch) : Report Stage := do
  let s ← supply s batch
  let outputs ← Report.ofExcept s.assemble
  let _ ← (⟨[.assembled outputs.length], .ok ()⟩ : Report Unit)
  let plan ← Report.ofExcept (Plan.snapshot s.env.values outputs).toExcept
  return done plan

/-- The step that a stage takes. -/
def step (stage : Stage) (batch : Option Batch) : Report Stage :=
  match stage with
  | initial draft settings => start draft settings batch
  | waiting s pending => resume s pending batch
  | ready s => finish s batch
  | done _ | failed .. => .ofExcept (.error (.protocol (.terminal stage.phase)))
  | other variant phase =>
    if phase.isTerminal then .ofExcept (.error (.protocol (.terminal phase)))
    else .ofExcept (.error (.unhandled (.transition variant)))

/-- The stage that follows. -/
def next (stage : Stage) (batch : Option Batch) : Report Stage :=
  let r := stage.step batch
  match r.result with
  | .error (.data f) => ⟨r.events, .ok (failed f stage.phase)⟩
  | _ => r

end Stage

end Scaffold
