import Scaffold.Proofs.Build
import Scaffold.Proofs.Spanning
import Scaffold.Proofs.WellFormed

/-! # Errors of a flow

Over a well-typed draft only the data can be at fault, however ill-shaped the draft may be, unless a
value that a fault should report cannot be written. The steps of a flow catch faults of the data
(`Stage.Clean`), so what a caller offers makes a flow fail, but raises no error, unless the flow has
ended or a value is too long (`Flow.build_contained`). -/

namespace Scaffold

/-- All members are bindings. -/
def Batch.Plain (b : Batch) : Prop := ∀ l ∈ b.members, ∃ name v, l.content = .binding name v

/-- What a caller may offer: nothing, a mapping from texts, or a preset that holds bindings only. -/
inductive Offer.Acceptable : Offer → Prop
  | nothing : Acceptable .nothing
  | mapping (pairs : Mapping Value) : Acceptable (.mapping pairs)
  | batch {b : Batch} : b.Plain → Acceptable (.batch b)
  | node {n : Node} : Node.content n = .preset →
      (∀ c ∈ n.children, ∃ name v, Node.content c = .binding name v) → Acceptable (.node n)
  | none : Acceptable (.value .none)
  | dict {entries : List (Value × Value)} : (∀ e ∈ entries, ∃ s, e.1 = .str s) →
      Acceptable (.value (.dict entries))

theorem Batch.plain_ofPairs (pairs : List (String × Value)) (directory : String) :
    (Batch.ofPairs pairs directory).Plain := by
  intro l hl
  obtain ⟨p, -, rfl⟩ := List.mem_map.mp hl
  exact ⟨p.1, p.2, rfl⟩

theorem Offer.exists_mapM_nameOf : ∀ {entries : List (Value × Value)},
    (∀ e ∈ entries, ∃ s, e.1 = .str s) →
      ∃ pairs, (entries.mapM fun e => return (← nameOf e.1, e.2) : Except Fault _) = .ok pairs
  | [], _ => ⟨[], rfl⟩
  | (k, v) :: entries, h => by
    obtain ⟨s, rfl⟩ := h (k, v) (by simp)
    obtain ⟨pairs, hpairs⟩ := exists_mapM_nameOf fun e he => h e (List.mem_cons_of_mem _ he)
    refine ⟨(s, v) :: pairs, ?_⟩
    rw [List.mapM_cons, hpairs]
    rfl

theorem Offer.Acceptable.exists_toBatch {offer : Offer} (h : offer.Acceptable) :
    ∃ batch, offer.toBatch = .ok batch ∧ ∀ b, batch = some b → b.Plain := by
  cases h with
  | nothing | none => exact ⟨_, rfl, by simp⟩
  | mapping =>
    refine ⟨_, rfl, fun b hb => ?_⟩
    obtain rfl := Option.some.inj hb
    exact Batch.plain_ofPairs _ _
  | dict htexts =>
    obtain ⟨pairs, hpairs⟩ := exists_mapM_nameOf htexts
    refine ⟨some (.ofPairs pairs ""), by rw [toBatch, hpairs]; rfl, fun b hb => ?_⟩
    obtain rfl := Option.some.inj hb
    exact Batch.plain_ofPairs _ _
  | batch hplain =>
    refine ⟨_, rfl, fun b hb => ?_⟩
    obtain rfl := Option.some.inj hb
    exact hplain
  | @node n hn hcs =>
    refine ⟨some (.ofNode n), by simp only [toBatch, hn], fun b hb => ?_⟩
    obtain rfl := Option.some.inj hb
    intro l hl
    obtain ⟨c, hc, rfl⟩ := List.mem_map.mp hl
    exact hcs c hc

/-! ### Steps -/

/-- The fault is one of the data, or it is that a value cannot be written, and not all can. -/
def Fault.Contained (w : Prop) (f : Fault) : Prop := (∃ d, f = .data d) ∨ (f = .oversized ∧ ¬ w)

theorem Fault.OfBinding.contained {w : Prop} {f : Fault} (h : f.OfBinding)
    (hw : w → f ≠ .oversized) : f.Contained w := by
  cases h with
  | @data d => exact .inl ⟨d, rfl⟩
  | oversized => exact .inr ⟨rfl, fun h => hw h rfl⟩

/-- What a session may report can be written. -/
structure Session.Writable (s : Session) : Prop where
  presets : s.setup.PresetsWritable
  env : s.env.Writable

namespace Stage

/-- Only the data is at fault, or a value that cannot be written, and nothing but a fault leads to
the error phase. `w` says that all values can be written. -/
structure Clean (w : Prop) (r : Except Fault Stage) : Prop where
  fault : ∀ f, r = .error f → f.Contained w
  live : ∀ stage, r = .ok stage → stage.phase ≠ .error

variable {w : Prop}

theorem Clean.bind {α : Type} {x : Except Fault α} {g : α → Except Fault Stage}
    (hx : ∀ f, x = .error f → f.Contained w) (hg : ∀ a, x = .ok a → Clean w (g a)) :
    Clean w (x >>= g) where
  fault f h := by
    rcases Fallible.bind_error.mp h with h | ⟨a, ha, h⟩
    · exact hx f h
    · exact (hg a ha).fault f h
  live stage h := by
    obtain ⟨a, ha, h⟩ := Fallible.bind_ok.mp h
    exact (hg a ha).live stage h

theorem clean_ok {stage : Stage} (h : stage.phase ≠ .error) : Clean w (.ok stage) where
  fault f hf := by cases hf
  live stage' h' := by
    obtain rfl := Except.ok.inj h'
    exact h

variable {s : Session} {n : Node}

theorem contained_of_supply (hs : s.Sound) {batch : Option Batch}
    (hb : ∀ b, batch = some b → b.Plain) (henv : w → s.env.Writable)
    (hbatch : w → ∀ b, batch = some b → b.Writable) {f : Fault}
    (h : (supply s batch).result = .error f) : f.Contained w := by
  cases batch with
  | none => cases h
  | some b =>
    obtain ⟨anchor, hanchor, hcurrent⟩ := hs.current
    obtain ⟨scope, hscope⟩ := Descriptor.exists_scope hanchor
    rw [result_supply, hcurrent] at h
    have hsupply := Fallible.map_error.mp h
    rw [Setup.supply_of_scope hscope] at hsupply
    have hmerge := Fallible.map_error.mp hsupply
    refine (Env.fault_of_merge (fun path m => hs.accepted.concrete_of_get?) (hb b rfl)
      hmerge).contained fun hw => ?_
    rintro rfl
    exact Env.merge_ne_oversized (henv hw) (hbatch hw b rfl) s.setup.settings.maxContextSize_nonneg
      hmerge

theorem contained_of_seek (hs : s.Sound) (hw : w → s.Writable) {f : Fault}
    (h : s.seek.result = .error f) : f.Contained w := by
  have hends := hs.seek.ends
  rw [h] at hends
  refine (Setup.Ends.ofBinding_of_error hs.accepted hs.env hs.accepted.meets_start hends).contained
    fun hwritable => ?_
  rintro rfl
  exact Setup.Ends.ne_oversized hs.accepted (hw hwritable).presets hs.env hs.accepted.meets_start
    (hw hwritable).env hends

theorem clean_advance (hs : s.Sound) (hw : w → s.Writable) : Clean w (advance s).result := by
  rw [result_advance]
  refine ⟨fun f h => contained_of_seek hs hw (Fallible.map_error.mp h), fun stage h => ?_⟩
  obtain ⟨pending, -, rfl⟩ := Fallible.map_ok.mp h
  cases pending <;> exact Phase.noConfusion

/-- Settling a question. -/
theorem clean_settle (hs : s.Sound) (hw : w → s.Writable) (hn : n ∈ s.setup.descriptor.nodes)
    {q : Question} {path : String} (hq : Node.content n = .question q)
    (hp : Node.path n = .ok path) : Clean w (settle s n).result := by
  rw [result_settle, Session.isAnswered, hp]
  show Clean w (if (s.env.get? path).isSome then _ else _)
  split_ifs with hanswered hfallback
  · exact clean_advance hs hw
  · have hu : s.env.get? path = none := by simpa using hanswered
    have hf : q.hasFallback = true := by
      rwa [Node.question?_eq_some.mpr hq] at hfallback
    refine .bind (fun f h => ?_) fun t ht => ?_
    · have hd := Fallible.map_error.mp h
      rcases hs.accepted.acceptDefault_cases hs.env hn hq hp hu hf with
        ⟨_, events, hd', -⟩ | ⟨d, hd'⟩
      · rw [hd] at hd'
        cases hd'
      · exact .inl ⟨d, Except.error.inj (hd.symm.trans hd')⟩
    · obtain ⟨⟨out, events⟩, hout, rfl⟩ := Fallible.map_ok.mp ht
      obtain ⟨hsound, v, hv, rfl⟩ := hs.default hn hq hp hu hf hout
      refine clean_advance hsound fun h => ⟨(hw h).presets, ?_⟩
      obtain ⟨_, -, -, hnormal⟩ := Answer.normal_of_coerce hv
      exact (hw h).env.bind hnormal.writable (Env.bind_ok_iff.mpr (.inl ⟨hu, rfl⟩))
  · exact clean_ok Phase.noConfusion

/-- All values of a draft that a fault may report, all that were given to its flow and all that are
in a batch can be written. -/
structure AllWritable (draft : Draft) (given : Mapping Value) (batch : Option Batch) : Prop where
  draft : draft.Writable
  given : given.Writable
  batch : ∀ b, batch = some b → b.Writable

section

variable {draft : Draft} {settings : Settings} {given : Mapping Value} {stage : Stage}
  {batch : Option Batch}

theorem AllWritable.session (hw : AllWritable draft given batch) (hfills : s.Fills draft settings)
    (h : s.Accounted given) : s.Writable where
  presets := hw.draft.presets hfills
  env := h.writable (hw.draft.presets hfills) hw.given

/-- What is given once the batch is merged can be written. -/
theorem AllWritable.step (hw : AllWritable draft given batch) (stage : Stage) :
    AllWritable draft (given.putAll (stage.keyed batch)) batch where
  draft := hw.draft
  given := hw.given.putAll (writable_keyed hw.batch)
  batch := hw.batch

theorem AllWritable.of_offer (hdraft : draft.Writable) (hgiven : given.Writable) {offer : Offer}
    (ho : offer.Writable) (hb : offer.toBatch = .ok batch) : AllWritable draft given batch where
  draft := hdraft
  given := hgiven
  batch b hbatch := ho b (hb.trans (congrArg Except.ok hbatch))

theorem contained_of_opened (hd : draft.WellTyped) {f : Fault}
    (h : opened draft settings = .error f) : f.Contained (AllWritable draft given batch) := by
  rcases Fallible.bind_error.mp h with h | ⟨d, -, h⟩
  · rcases Draft.flaw_or_oversized_of_accept hd h with ⟨flaw, rfl⟩ | ⟨rfl, hnot⟩
    · exact .inl ⟨_, rfl⟩
    · exact .inr ⟨rfl, fun hw => hnot hw.draft.slots⟩
  · obtain ⟨flaw, -, rfl⟩ := Fallible.mapError_error.mp (Fallible.map_error.mp h)
    exact .inl ⟨_, rfl⟩

/-- What follows on a batch has to be clean only where the batch is merged. -/
theorem clean_supply {g : Session → Except Fault Stage} (hfills : s.Fills draft settings)
    (h : s.Accounted given) (hsession : stage.session = some s)
    (hb : ∀ b, batch = some b → b.Plain)
    (hg : ∀ t, t.Fills draft settings → t.Accounted (given.putAll (stage.keyed batch)) →
      t.setup = s.setup → (AllWritable draft given batch → t.Writable) →
        Clean (AllWritable draft given batch) (g t)) :
    Clean (AllWritable draft given batch) ((supply s batch).result >>= g) := by
  refine .bind (fun f => contained_of_supply h.sound hb (fun hw => (hw.session hfills h).env)
    fun hw => hw.batch) fun t ht => ?_
  obtain ⟨h', hsetup, -, -⟩ := fair_supply h hsession ht
  have hfills' := fills_of_supply hfills h hsession ht
  exact hg t hfills' h' hsetup fun hw => (hw.step stage).session hfills' h'

theorem clean_start (hd : draft.WellTyped) (hb : ∀ b, batch = some b → b.Plain) :
    Clean (AllWritable draft [] batch) (start draft settings batch).result := by
  rw [result_start]
  refine .bind (fun f => contained_of_opened hd) fun s hs => ?_
  obtain ⟨hfills, haccounted, -, -⟩ := opened_ok hs
  have hsession : (initial draft settings).session = some s := by
    rw [session, hs]
    rfl
  cases batch with
  | none => exact clean_advance haccounted.sound fun hw => hw.session hfills haccounted
  | some b =>
    refine clean_supply hfills haccounted hsession hb fun t hfills' haccounted' _ hwritable => ?_
    refine .bind (fun f => contained_of_seek haccounted'.sound hwritable) fun pending hpending => ?_
    cases pending with
    | none => exact clean_ok Phase.noConfusion
    | some n =>
      obtain ⟨hfills'', haccounted'', hwaits⟩ := (Comes.scanned hfills' haccounted' hpending).fair
      obtain ⟨q, path, hq, hp, -⟩ := hwaits.due
      exact clean_settle haccounted''.sound
        (fun hw => (hw.step _).session hfills'' haccounted'')
        (hwaits.mem_nodes haccounted''.sound) hq hp

theorem clean_resume (h : (waiting s n).Fair draft settings given)
    (hb : ∀ b, batch = some b → b.Plain) :
    Clean (AllWritable draft given batch) (resume s n batch).result := by
  obtain ⟨hfills, haccounted, hwaits⟩ := h
  rw [result_resume]
  have hsession : (waiting s n).session = some s := rfl
  refine clean_supply hfills haccounted hsession hb fun t _ haccounted' hsetup hwritable => ?_
  obtain ⟨q, path, hq, hp, -⟩ := hwaits.due
  have hn := hwaits.mem_nodes haccounted.sound
  rw [← hsetup] at hn
  exact clean_settle haccounted'.sound hwritable hn hq hp

theorem clean_finish (hd : draft.WellTyped) (h : (ready s).Fair draft settings given)
    (hb : ∀ b, batch = some b → b.Plain) :
    Clean (AllWritable draft given batch) (finish s batch).result := by
  obtain ⟨hfills, haccounted, -⟩ := h
  rw [result_finish]
  have hsession : (ready s).session = some s := rfl
  refine clean_supply hfills haccounted hsession hb fun t hfills' haccounted' _ _ => ?_
  have ht := haccounted'.sound
  obtain ⟨outputs, houtputs⟩ := Descriptor.exists_assemble ht.accepted
    (hd.of_accept hfills'.accept_eq.1) ht.env
  rw [show t.assemble = .ok outputs from houtputs]
  show Clean _ ((Plan.snapshot t.env.values outputs).toExcept.map done)
  rw [Plan.snapshot_eq ht.env.isEmpty_values]
  exact clean_ok Phase.noConfusion

/-- **The steps of a flow over a well-typed draft have only the data at fault**, or a value that
cannot be written. -/
theorem Fair.clean (hd : draft.WellTyped) (h : stage.Fair draft settings given)
    (hb : ∀ b, batch = some b → b.Plain) (hlive : stage.phase.isTerminal = false) :
    Clean (AllWritable draft given batch) (stage.step batch).result := by
  cases stage with
  | initial draft' settings' =>
    obtain ⟨rfl, -, rfl⟩ := h
    exact clean_start hd hb
  | waiting s n => exact clean_resume h hb
  | ready s => exact clean_finish hd h hb
  | done plan => cases hlive
  | failed f since => cases hlive
  | other variant phase => exact h.elim

/-- A flow that has not ended comes to a next stage, failing in the phase that it was in, or meets a
value that cannot be written. -/
theorem Fair.next_cases (hd : draft.WellTyped) (h : stage.Fair draft settings given)
    (hb : ∀ b, batch = some b → b.Plain) (hlive : stage.phase.isTerminal = false) :
    (∃ stage', (stage.next batch).result = .ok stage' ∧
      (stage'.phase = .error → ∃ f, stage' = failed f stage.phase)) ∨
    ((stage.next batch).result = .error .oversized ∧ ¬ AllWritable draft given batch) := by
  have hclean := h.clean hd hb hlive
  rw [result_next]
  cases hstep : (stage.step batch).result with
  | error f =>
    rcases hclean.fault f hstep with ⟨d, rfl⟩ | ⟨rfl, hnot⟩
    · exact .inl ⟨_, rfl, fun _ => ⟨d, rfl⟩⟩
    · exact .inr ⟨rfl, hnot⟩
  | ok stage' =>
    exact .inl ⟨stage', rfl, fun herror => absurd herror (hclean.live stage' hstep)⟩

/-- A flow that has ended takes no step. -/
theorem Fair.next_of_terminal (h : stage.Fair draft settings given)
    (hend : stage.phase.isTerminal = true) :
    (stage.next batch).result = .error (.protocol (.terminal stage.phase)) := by
  cases stage with
  | done | failed => rfl
  | other => exact h.elim
  | initial | waiting | ready => cases hend

end

end Stage

/-! ### Builds -/

/-- A draft whose root is its own child. -/
def Draft.loop : Draft where
  size := 1
  cell _ := ⟨⟨.group, ""⟩, [.node 0]⟩
  root := .node 0

namespace Flow

variable {draft : Draft} {offer : Offer}

/-- **Errors are contained, but for values that cannot be written.** Whatever has been offered to a
flow over a well-typed draft before, the next build raises an error if and only if the flow has
ended, provided that all values of the draft and of the offers can be written. An error leaves the
flow as it was and is the one that says that it has ended, or, if it has not, that a value is too
long. Any other fault is one of the data, and the flow fails in the phase that it was in. -/
theorem build_contained (hd : draft.WellTyped) (settings : Settings) (offers : List Offer)
    (hoffer : offer.Acceptable) :
    let f := after draft settings offers
    let o := f.build offer
    (draft.Writable → (∀ g ∈ offers, g.Writable) → offer.Writable →
      ((∃ e, o.result = .error e) ↔ f.phase.isTerminal = true)) ∧
    (f.phase.isTerminal = true → o.result = .error (.protocol (.terminal f.phase))) ∧
    (∀ e, o.result = .error e → o.state = f ∧
      ((f.phase.isTerminal = true ∧ e = .protocol (.terminal f.phase)) ∨
        (f.phase.isTerminal = false ∧ e = .oversized))) ∧
    ∀ p, o.result = .ok p → o.state.phase = p ∧
      (p = .error → ∃ fault, o.state.stage = .failed fault f.phase) := by
  intro f o
  obtain ⟨given, hrun, hgiven⟩ := run_after draft settings offers
  obtain ⟨batch, hb, hplain⟩ := hoffer.exists_toBatch
  cases hend : f.phase.isTerminal with
  | true =>
    obtain ⟨hresult, hstate⟩ := build_of_error hb (hrun.fair.next_of_terminal hend)
    refine ⟨fun _ _ _ => ⟨fun _ => rfl, fun _ => ⟨_, hresult⟩⟩, fun _ => hresult, fun e he => ?_,
      fun p hp => ?_⟩
    · exact ⟨hstate, .inl ⟨rfl, Except.error.inj (he.symm.trans hresult)⟩⟩
    · cases hp.symm.trans hresult
  | false =>
    rcases hrun.fair.next_cases hd hplain hend with ⟨stage, hnext, herror⟩ | ⟨hnext, hnot⟩
    · obtain ⟨hresult, hstage⟩ := build_of_ok hb hnext
      refine ⟨fun _ _ _ => ⟨fun ⟨e, he⟩ => ?_, nofun⟩, nofun, fun e he => ?_, fun p hp => ?_⟩
      · cases he.symm.trans hresult
      · cases he.symm.trans hresult
      · obtain rfl := Except.ok.inj (hresult.symm.trans hp)
        refine ⟨by rw [phase, hstage], fun hp => ?_⟩
        rw [hstage]
        exact herror hp
    · obtain ⟨hresult, hstate⟩ := build_of_error hb hnext
      refine ⟨fun hdraft hoffers ho => absurd ?_ hnot, nofun, fun e he => ?_, fun p hp => ?_⟩
      · exact .of_offer hdraft (hgiven hoffers) ho hb
      · exact ⟨hstate, .inr ⟨rfl, Except.error.inj (he.symm.trans hresult)⟩⟩
      · cases hp.symm.trans hresult

/-- The first build of a draft that is no tree fails, and the second raises an error. -/
theorem loop_build_contained : Draft.loop.WellTyped ∧ Draft.loop.Writable ∧
    Offer.nothing.Acceptable ∧ Offer.nothing.Writable ∧
    (∃ fault, ((after .loop {} []).build .nothing).state.stage = .failed fault .initial) ∧
      ∃ e, ((after .loop {} [.nothing]).build .nothing).result = .error e := by
  have hloop : Draft.loop.WellTyped := fun _ => trivial
  have hwritable : Draft.loop.Writable := by
    refine ⟨Draft.slotsWritable_of_nodes ⟨(0 : Fin 1), rfl⟩ fun i s hs => ?_,
      fun i _ name v h => ?_⟩
    · exact ⟨(0 : Fin 1), List.mem_singleton.mp hs⟩
    · cases h
  have hnothing : Offer.nothing.Writable := fun b hb => by cases hb
  obtain ⟨-, -, -, hfail⟩ := build_contained hloop {} [] .nothing
  obtain ⟨hend, -⟩ := build_contained hloop {} [.nothing] .nothing
  obtain ⟨-, hfailed⟩ := hfail .error rfl
  refine ⟨hloop, hwritable, .nothing, hnothing, hfailed rfl, ?_⟩
  refine (hend hwritable (fun g hg => ?_) hnothing).mpr rfl
  rw [List.mem_singleton.mp hg]
  exact hnothing

/-- The first build of a draft with a child that is too long to be written raises an error. -/
theorem longChild_not_contained : Draft.longChild.WellTyped ∧ Offer.nothing.Acceptable ∧
    (after .longChild {} []).phase.isTerminal = false ∧
      ∃ e, ((after .longChild {} []).build .nothing).result = .error e := by
  refine ⟨fun _ => trivial, .nothing, rfl, .oversized, ?_⟩
  have haccept : Draft.longChild.accept = .error .oversized := by
    rw [Draft.accept, Draft.ofDraft_longChild]
    rfl
  have hstep : ((Stage.initial .longChild {}).step none).result = .error .oversized := by
    rw [Stage.step, Stage.result_start, Stage.opened, haccept]
    rfl
  have hnext : ((after .longChild {} []).stage.next none).result = .error .oversized := by
    rw [show (after .longChild {} []).stage = .initial .longChild {} from rfl, Stage.result_next,
      hstep]
  exact (build_of_error rfl hnext).1

end Flow

end Scaffold
