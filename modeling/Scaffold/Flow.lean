import Scaffold.Flow.Stage

/-! # Flows

A flow keeps the current stage for a caller that prompts for answers, with the phases it has been in
and the notices it has given.

* `Flow.build`: one step with what the caller offers.
* `Flow.run`: one batch of answers, then steps without any until the flow is finished, fails, or
  waits for a question that has no default. -/

namespace Scaffold

/-- A flow over one draft. -/
structure Flow where
  stage : Stage
  history : List Phase
  console : List Notice

namespace Flow

/-- A flow that has not begun. -/
def new (draft : Draft) (settings : Settings) : Flow := ⟨.initial draft settings, [.initial], []⟩

/-- The phase of the current stage. -/
def phase (f : Flow) : Phase := f.stage.phase

/-- What a flow says about a step. -/
def noticeOf (since : Phase) (stage : Stage) : Notice :=
  match stage with
  | .waiting .. => .waiting since stage.pendingPath
  | .failed fault _ => .failed since fault.diagnostic
  | .done plan => .finished plan.outputs.length
  | _ => .moved since stage.phase

/-- Gives a notice. -/
def tell (f : Flow) (n : Notice) : Flow := { f with console := f.console ++ [n] }

/-- One step with what the caller offers. A step that fails leaves the flow as it was. -/
def build (f : Flow) (offer : Offer) : Outcome Flow Phase :=
  match offer.toBatch with
  | .error e => ⟨f, [], .error e⟩
  | .ok batch =>
    let r := f.stage.next batch
    match r.result with
    | .error e => ⟨f, r.events, .error e⟩
    | .ok stage =>
      let notice := noticeOf f.phase stage
      let moved : Flow := ⟨stage, f.history ++ [stage.phase], f.console⟩
      ⟨moved.tell notice, r.events ++ [.notice notice], .ok stage.phase⟩

/-- Adds to what was reported before. -/
def reported {α : Type} (events : List Event) (o : Outcome Flow α) : Outcome Flow α :=
  { o with events := events ++ o.events }

/-- The end of a run: a ready flow takes its last step. -/
def conclude (f : Flow) : Outcome Flow (Option Plan) :=
  match f.stage with
  | .ready _ =>
    let o := f.build .nothing
    ⟨o.state, o.events, o.result.map fun _ => o.state.stage.plan?⟩
  | _ => ⟨f, [], .ok f.stage.plan?⟩

/-- The two stages wait for the same node. -/
def samePending (a b : Stage) : Bool :=
  match a.pending?, b.pending? with
  | some m, some n => Node.id? m == Node.id? n
  | _, _ => false

/-- Steps without a batch while the flow waits. Each step binds the question that it waits for, or
leaves the flow stuck on it; so as many rounds as there are questions are enough. -/
def rounds : Nat → Flow → Outcome Flow (Option Plan)
  | fuel, f =>
    match f.stage with
    | .waiting .. =>
      match fuel with
      | 0 => ⟨f, [], .ok none⟩
      | fuel + 1 =>
        let o := f.build .nothing
        match o.result with
        | .error e => ⟨o.state, o.events, .error e⟩
        | .ok _ =>
          if samePending f.stage o.state.stage then
            let notice := Notice.stuck o.state.stage.pendingPath
            ⟨o.state.tell notice, o.events ++ [.notice notice], .ok none⟩
          else reported o.events (rounds fuel o.state)
    | _ => f.conclude

/-- The number of questions of the descriptor that a stage fills in. -/
def questionCount (s : Stage) : Nat :=
  match s.session? with
  | some session => session.setup.inputs.length
  | none => 0

/-- One batch of answers, and defaults for the rest. -/
def run (f : Flow) (offer : Offer) : Outcome Flow (Option Plan) :=
  let o := f.build offer
  match o.result with
  | .error e => ⟨o.state, o.events, .error e⟩
  | .ok _ => reported o.events (rounds (questionCount o.state.stage) o.state)

end Flow

end Scaffold
