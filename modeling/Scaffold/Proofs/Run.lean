import Scaffold.Proofs.Session

/-! # Runs of flows

`Stage.Run` describes how a flow gets from its initial stage to another, and what bindings it was
given on the way, each under the path of its name at the node that its batch was merged at.

Every binding of a session can be accounted for (`Session.Accounted`): it was given, or a node that
the bound values reach has bound it. A session waits for a question that is reached and not answered
(`Session.Waits`), and one that is ready has a complete scan behind it (`Session.Scanned`). This is
so at the beginning and every step keeps it so (`Stage.Fair.next`); hence it is so on every run
(`Stage.Run.fair`). -/

namespace Scaffold

open Assembly

theorem Batch.mem_bindings {b : Batch} {name : String} {v : Value} :
    (name, v) ∈ b.bindings ↔ ∃ l ∈ b.members, l.content = .binding name v := by
  rw [bindings, List.mem_filterMap]
  refine exists_congr fun l => and_congr_right fun _ => ?_
  cases l.content <;> simp

/-- The bindings of a batch under their paths at a node, with the values in normal form. -/
def Setup.keyed (s : Setup) (anchor : Node) (b : Batch) : List (String × Value) :=
  match Node.scope anchor with
  | .ok scope => b.bindings.filterMap fun p =>
      match Env.settle s.inputs.get? (Path.join scope p.1) p.2 with
      | .ok v => some (Path.join scope p.1, v)
      | .error _ => none
  | .error _ => []

theorem Setup.mem_keyed {s : Setup} {anchor : Node} {scope : String}
    (hscope : Node.scope anchor = .ok scope) {b : Batch} {path : String} {v : Value} :
    (path, v) ∈ s.keyed anchor b ↔ ∃ l ∈ b.members, ∃ name value, l.content = .binding name value ∧
      Path.join scope name = path ∧ Env.settle s.inputs.get? path value = .ok v := by
  simp only [keyed, hscope, List.mem_filterMap]
  constructor
  · rintro ⟨⟨name, value⟩, hmem, hv⟩
    obtain ⟨l, hl, hcontent⟩ := Batch.mem_bindings.mp hmem
    split at hv
    next w hw =>
      obtain ⟨rfl, rfl⟩ := Prod.mk.inj (Option.some.inj hv)
      exact ⟨l, hl, name, value, hcontent, rfl, hw⟩
    next => cases hv
  · rintro ⟨l, hl, name, value, hcontent, rfl, hv⟩
    exact ⟨(name, value), Batch.mem_bindings.mpr ⟨l, hl, hcontent⟩, by simp only [hv]⟩

/-- What a batch that is merged gives is bound. -/
theorem Setup.bound_of_keyed {s : Setup} {anchor : Node} {scope : String}
    (hscope : Node.scope anchor = .ok scope) {b : Batch} {env out : Env}
    (hmerge : env.merge b scope s.inputs.get? s.settings.maxContextSize = .ok out)
    {path : String} {v : Value} (hv : (path, v) ∈ s.keyed anchor b) :
    ∃ bound, out.get? path = some bound ∧ Value.same bound.value v = true := by
  obtain ⟨l, hl, name, value, hcontent, hpath, hsettle⟩ := (mem_keyed hscope).mp hv
  obtain ⟨path', v', bound, hbinds, hbound, hsame⟩ := Env.bound_of_merge hmerge l hl
  have hgiven : Env.Binds scope s.inputs.get? l path v := by
    obtain ⟨name', value', hcontent', hname, -⟩ := hbinds
    obtain ⟨rfl, rfl⟩ := Content.binding.inj (hcontent.symm.trans hcontent')
    exact ⟨name, value, hcontent, hname, hpath, hsettle⟩
  obtain ⟨rfl, rfl⟩ := hgiven.unique hbinds
  exact ⟨bound, hbound, hsame⟩

namespace Stage

/-- The session that a batch is merged into. -/
def session (stage : Stage) : Option Session :=
  match stage with
  | initial draft settings => (opened draft settings).toOption
  | waiting s _ | ready s => some s
  | _ => none

/-- The bindings of the batch of a step under their paths. -/
def keyed (stage : Stage) (batch : Option Batch) : List (String × Value) :=
  match batch, stage.session with
  | some b, some s =>
    match s.current with
    | .ok anchor => s.setup.keyed anchor b
    | .error _ => []
  | _, _ => []

/-- **The runs of a flow.** A flow over a draft comes to a stage, having been given bindings. -/
inductive Run (draft : Draft) (settings : Settings) : Mapping Value → Stage → Prop
  | start : Run draft settings [] (initial draft settings)
  | step {given : Mapping Value} {stage stage' : Stage} {batch : Option Batch} :
      Run draft settings given stage → (stage.next batch).result = .ok stage' →
      Run draft settings (given.putAll (stage.keyed batch)) stage'

end Stage

/-! ### Accounts -/

namespace Session

variable {given : Mapping Value} {s t : Session}

/-- Every binding can be accounted for: what was given is bound, and what is bound was given or was
bound by a node that the bound values reach. -/
structure Accounted (given : Mapping Value) (s : Session) : Prop where
  sound : s.Sound
  supplied : ∀ path v, given.get? path = some v →
    ∃ b, s.env.get? path = some b ∧ Value.same b.value v = true
  source : ∀ path b, s.env.get? path = some b → (∃ v, given.get? path = some v) ∨
    ∃ n, Reaches s.env.values s.setup.descriptor.root n ∧ s.setup.Source n path b.value

/-- A course leaves every binding accounted for. -/
theorem Accounted.course (h : s.Accounted given) (ht : t.Sound) (hsetup : t.setup = s.setup)
    {met : List Passed} {left : List Node}
    (hc : s.setup.Course s.env [s.setup.descriptor.root] met t.env left) : t.Accounted given where
  sound := ht
  supplied path v hv := by
    obtain ⟨b, hb, hsame⟩ := h.supplied path v hv
    have hs := h.sound.accepted
    have hgrow := hc.grows
    exact ⟨b, Mapping.get?_of_prefix hgrow hb, hsame⟩
  source path b hb := by
    have hs := h.sound.accepted
    have hgrow := hc.grows
    have hreaches := Setup.Course.reaches_start hs hc h.sound.env hs.meets_start
    rw [hsetup]
    rcases Setup.Course.source hs hc h.sound.env hs.meets_start hb with hb | ⟨p, hp, hsource⟩
    · rcases h.source path b hb with hg | ⟨n, hn, hsource⟩
      · exact .inl hg
      · exact .inr ⟨n, hn.mono (Env.within_values hgrow), hsource⟩
    · exact .inr ⟨p.node, hreaches.2 p hp, hsource⟩

/-- A batch that is merged is accounted for by what it gives. -/
theorem Accounted.supply (h : s.Accounted given) {anchor : Node} (hanchor : s.current = .ok anchor)
    {batch : Batch} (ht : (Stage.supply s (some batch)).result = .ok t) :
    t.Accounted (given.putAll (s.setup.keyed anchor batch)) ∧ t.setup = s.setup ∧
      t.stack = s.stack ∧ s.env <+: t.env := by
  have hs := h.sound.accepted
  obtain ⟨n, hn, hcurrent⟩ := h.sound.current
  obtain rfl : n = anchor := Except.ok.inj (hcurrent.symm.trans hanchor)
  obtain ⟨scope, hscope⟩ := Descriptor.exists_scope hn
  obtain ⟨out, hmerge, rfl⟩ := Stage.merge_of_supply hanchor hscope ht
  have hgrow := Env.prefix_of_merge hmerge
  have hsupplied : ∀ path v, (given.putAll (s.setup.keyed n batch)).get? path = some v →
      ∃ b, out.get? path = some b ∧ Value.same b.value v = true := by
    intro path v hv
    rcases Mapping.get?_putAll hv with hv | hv
    · obtain ⟨b, hb, hsame⟩ := h.supplied path v hv
      exact ⟨b, Mapping.get?_of_prefix hgrow hb, hsame⟩
    · exact Setup.bound_of_keyed hscope hmerge hv
  -- Nothing else is bound that was not before.
  refine ⟨⟨⟨hs, h.sound.env.merge hmerge, h.sound.head, h.sound.current⟩, hsupplied,
    fun path b hb => ?_⟩, rfl, rfl, hgrow⟩
  rcases Env.source_of_merge hmerge hb with hb | ⟨l, hl, hbinds⟩
  · rcases h.source path b hb with hg | ⟨m, hm, hsource⟩
    · exact .inl (Mapping.isSome_get?_putAll (.inl hg))
    · exact .inr ⟨m, hm.mono (Env.within_values hgrow), hsource⟩
  · obtain ⟨name, value, hcontent, -, hpath, hsettle⟩ := hbinds
    exact .inl (Mapping.isSome_get?_putAll (.inr ⟨b.value, (Setup.mem_keyed hscope).mpr
      ⟨l, hl, name, value, hcontent, hpath, hsettle⟩⟩))

/-- The default of a question that is reached is accounted for. -/
theorem Accounted.default (h : s.Accounted given) {n : Node}
    (hn : Reaches s.env.values s.setup.descriptor.root n) {q : Question} {path : String}
    (hq : Node.content n = .question q) (hp : Node.path n = .ok path)
    (hu : s.env.get? path = none) (hf : q.hasFallback = true) {out : Env} {events : List Event}
    (hout : s.setup.acceptDefault s.env n = .ok (out, events)) :
    Accounted given { s with env := out } ∧ s.env <+: out := by
  have hs := h.sound.accepted
  have hmem := (hn.meets hs hs.meets_root).1
  obtain ⟨hsound, w, hw, rfl⟩ := h.sound.default hmem hq hp hu hf hout
  have hgrow : s.env <+: s.env ++ [Setup.entry n path w] := List.prefix_append _ _
  refine ⟨⟨hsound, fun path' v hv => ?_, fun path' b hb => ?_⟩, hgrow⟩
  · obtain ⟨b, hb, hsame⟩ := h.supplied path' v hv
    exact ⟨b, Mapping.get?_of_prefix hgrow hb, hsame⟩
  · rcases Setup.of_get?_default hb with hb | ⟨rfl, hv⟩
    · rcases h.source path' b hb with hg | ⟨m, hm, hsource⟩
      · exact .inl hg
      · exact .inr ⟨m, hm.mono (Env.within_values hgrow), hsource⟩
    · exact .inr ⟨n, hn.mono (Env.within_values hgrow), .default hq hf hp (hv ▸ hw)⟩

/-- A scan that finds no fault leaves every binding accounted for. -/
theorem Accounted.sought (h : s.Accounted given) {r : Option Node} (ht : s.Sought t (.ok r)) :
    t.Accounted given := by
  obtain ⟨met, mid, left, hc, hstop⟩ := ht.ends
  have hmid : mid = t.env := by cases hstop <;> rfl
  subst hmid
  exact h.course (ht.sound h.sound) ht.setup hc

/-- The session fills in a draft. -/
def Fills (draft : Draft) (settings : Settings) (s : Session) : Prop :=
  ∃ d, draft.accept = .ok d ∧ Setup.new d settings = .ok s.setup

theorem Fills.setup_eq {draft : Draft} {settings : Settings} (hs : s.Fills draft settings)
    (ht : t.Fills draft settings) : t.setup = s.setup := by
  obtain ⟨d, hd, hsetup⟩ := hs
  obtain ⟨d', hd', hsetup'⟩ := ht
  obtain rfl := Except.ok.inj (hd.symm.trans hd')
  exact Except.ok.inj (hsetup'.symm.trans hsetup)

theorem Fills.accept_eq {draft : Draft} {settings : Settings} (hs : s.Fills draft settings) :
    draft.accept = .ok s.setup.descriptor ∧ s.setup.settings = settings := by
  obtain ⟨d, hd, hsetup⟩ := hs
  obtain ⟨-, rfl, rfl⟩ := Setup.accepted_of_new hd hsetup
  exact ⟨hd, rfl⟩

end Session

/-! ### Steps and runs -/

namespace Stage

variable {draft : Draft} {settings : Settings} {given : Mapping Value} {stage stage' : Stage}

theorem opened_ok {s : Session} (h : opened draft settings = .ok s) : s.Fills draft settings ∧
    s.Accounted [] ∧ s.env = [] ∧ s.current = .ok s.setup.descriptor.root := by
  obtain ⟨d, hd, h⟩ := Fallible.bind_ok.mp h
  obtain ⟨setup, hsetup, rfl⟩ := Fallible.map_ok.mp h
  rw [Fallible.mapError_ok] at hsetup
  obtain ⟨haccepted, rfl, rfl⟩ := Setup.accepted_of_new hd hsetup
  have hcurrent : ((Session.new setup).enter setup.descriptor.root).current =
      .ok setup.descriptor.root := by
    rw [Session.current_ok_iff]
    rfl
  exact ⟨⟨setup.descriptor, hd, hsetup⟩, ⟨⟨haccepted, setup.sound_nil, rfl,
    _, Descriptor.root_mem_nodes _, hcurrent⟩, (fun _ _ h => by cases h),
    (fun _ _ h => by cases h)⟩, rfl, hcurrent⟩

/-- What holds of the stages that a flow over a draft comes to. -/
def Fair (draft : Draft) (settings : Settings) (given : Mapping Value) : Stage → Prop
  | initial draft' settings' => draft' = draft ∧ settings' = settings ∧ given = []
  | waiting s n => s.Fills draft settings ∧ s.Accounted given ∧ s.Waits n
  | ready s => s.Fills draft settings ∧ s.Accounted given ∧ s.Scanned
  | done _ | failed .. => True
  | other .. => False

/-- A session that is being filled in fills in the draft, and its bindings are accounted for. -/
theorem Fair.of_session? (h : stage.Fair draft settings given) {s : Session}
    (hs : stage.session? = some s) : s.Fills draft settings ∧ s.Accounted given := by
  cases stage with
  | waiting t n =>
    obtain rfl := Option.some.inj hs
    exact ⟨h.1, h.2.1⟩
  | ready t =>
    obtain rfl := Option.some.inj hs
    exact ⟨h.1, h.2.1⟩
  | _ => cases hs

/-- **What a step comes to**, with its bindings given: a scan is over, or the question that was
waited for still is, or the bound values are put down. -/
inductive Comes (draft : Draft) (settings : Settings) (given : Mapping Value) : Stage → Prop
  | scanned {s : Session} {r : Option Node} : s.Fills draft settings → s.Accounted given →
      s.seek.result = .ok r → Comes draft settings given (sought s.seek.state r)
  | kept {s : Session} {n : Node} : s.Fills draft settings → s.Accounted given → s.Waits n →
      Comes draft settings given (waiting s n)
  | finished {s : Session} {outputs : List Directive} : s.Fills draft settings →
      s.Accounted given → s.assemble = .ok outputs →
      Comes draft settings given (done (s.plan outputs))

theorem Comes.fair (h : Comes draft settings given stage) : stage.Fair draft settings given := by
  cases h with
  | @scanned s r hf h hr =>
    have ht := h.sound.seek
    rw [hr] at ht
    have hfills : s.seek.state.Fills draft settings := by
      rw [Session.Fills, ht.setup]
      exact hf
    cases r with
    | none => exact ⟨hfills, h.sought ht, ht.scanned h.sound⟩
    | some n => exact ⟨hfills, h.sought ht, ht.waits h.sound⟩
  | kept hf h hw => exact ⟨hf, h, hw⟩
  | finished => trivial

/-- A flow that is ready has entered the root alone. -/
theorem Comes.rested {s : Session} (h : Comes draft settings given (ready s)) :
    s.stack.items = [s.setup.descriptor.root] := by
  generalize hstage : ready s = stage at h
  cases h with
  | @scanned s' r hf h hr =>
    have ht := h.sound.seek
    rw [hr] at ht
    cases r with
    | none =>
      obtain rfl := ready.inj hstage
      rw [ht.setup]
      exact ht.rested
    | some n => cases hstage
  | kept => cases hstage
  | finished => cases hstage

section

variable {s : Session} (hf : s.Fills draft settings) (h : s.Accounted given)
include hf h

theorem comes_advance (hst : (advance s).result = .ok stage) : Comes draft settings given stage := by
  rw [result_advance] at hst
  obtain ⟨r, hr, rfl⟩ := Fallible.map_ok.mp hst
  exact .scanned hf h hr

/-- A question that was waited for is settled, whatever has been supplied since. -/
theorem comes_settle {n : Node} {t : Session} (ht : t.Waits n) (hsetup : s.setup = t.setup)
    (hstack : s.stack = t.stack) (hgrow : t.env <+: s.env)
    (hst : (settle s n).result = .ok stage) : Comes draft settings given stage := by
  obtain ⟨q, path, hq, hp, -, ho, hw⟩ := ht.due
  have htrail : Trail s.env.values s.setup.descriptor.root s.stack.items n := by
    rw [hsetup, hstack]
    exact ht.trail.mono (Env.within_values hgrow)
  rw [result_settle, Session.isAnswered, hp] at hst
  obtain ⟨answered, ha, hst⟩ := Fallible.bind_ok.mp hst
  obtain ⟨_, h', rfl⟩ := Fallible.map_ok.mp ha
  obtain rfl := Except.ok.inj h'
  split_ifs at hst with hanswered hfallback
  · exact comes_advance hf h hst
  · obtain ⟨s', hs', hst⟩ := Fallible.bind_ok.mp hst
    obtain ⟨⟨out, events⟩, hout, rfl⟩ := Fallible.map_ok.mp hs'
    have hu : s.env.get? path = none := by simpa using hanswered
    have hfq : q.hasFallback = true := by
      rwa [Node.question?_eq_some.mpr hq] at hfallback
    exact comes_advance (s := { s with env := out }) hf
      (h.default htrail.reaches hq hp hu hfq hout).1 hst
  · obtain rfl := Except.ok.inj hst
    have hu : s.env.get? path = none := by simpa using hanswered
    exact .kept hf h ⟨htrail, q, path, hq, hp, hu, ho, by rw [hsetup]; exact hw⟩

end

/-- A batch, or none, is merged into a session whose bindings are accounted for. -/
theorem fair_supply {s t : Session} (h : s.Accounted given) {batch : Option Batch}
    (hs : stage.session = some s) (ht : (supply s batch).result = .ok t) :
    t.Accounted (given.putAll (stage.keyed batch)) ∧ t.setup = s.setup ∧ t.stack = s.stack ∧
      s.env <+: t.env := by
  cases batch with
  | none =>
    obtain rfl := Except.ok.inj ht
    exact ⟨h, rfl, rfl, List.prefix_refl _⟩
  | some b =>
    obtain ⟨anchor, -, hanchor⟩ := h.sound.current
    simp only [keyed, hs, hanchor]
    exact h.supply hanchor ht

/-- The session that fills in a draft still does when a batch was merged. -/
theorem fills_of_supply {s t : Session} (hf : s.Fills draft settings) (h : s.Accounted given)
    {batch : Option Batch} (hs : stage.session = some s) (ht : (supply s batch).result = .ok t) :
    t.Fills draft settings := by
  obtain ⟨-, hsetup, -, -⟩ := fair_supply h hs ht
  rw [Session.Fills, hsetup]
  exact hf

/-- **What a step does.** It merges its batch, if it has one; then, whatever has been given to the
session that this leaves, it comes to what a step can come to. -/
theorem Fair.supplies (h : stage.Fair draft settings given) {batch : Option Batch}
    (hstep : (stage.step batch).result = .ok stage') : ∃ s t, stage.session = some s ∧
      s.Fills draft settings ∧ s.Accounted given ∧ (supply s batch).result = .ok t ∧
      ∀ given', t.Accounted given' → Comes draft settings given' stage' := by
  cases stage with
  | initial draft' settings' =>
    obtain ⟨rfl, rfl, rfl⟩ := h
    rw [step, result_start] at hstep
    obtain ⟨s, hs, hstep⟩ := Fallible.bind_ok.mp hstep
    obtain ⟨hf, h, -, -⟩ := opened_ok hs
    have hsession : (initial draft' settings').session = some s := by
      rw [session, hs]
      rfl
    cases batch with
    | none => exact ⟨s, s, hsession, hf, h, rfl, fun given' h' => comes_advance hf h' hstep⟩
    | some b =>
      obtain ⟨t, ht, hstep⟩ := Fallible.bind_ok.mp hstep
      obtain ⟨r, hr, hstep⟩ := Fallible.bind_ok.mp hstep
      have hf' := fills_of_supply hf h hsession ht
      refine ⟨s, t, hsession, hf, h, ht, fun given' h' => ?_⟩
      have hscanned := Comes.scanned hf' h' hr
      cases r with
      | none =>
        obtain rfl := Except.ok.inj hstep
        exact hscanned
      | some n =>
        obtain ⟨hf'', h'', hwaits⟩ := hscanned.fair
        exact comes_settle hf'' h'' hwaits rfl rfl (List.prefix_refl _) hstep
  | waiting s n =>
    obtain ⟨hf, h, hwaits⟩ := h
    rw [step, result_resume] at hstep
    obtain ⟨t, ht, hstep⟩ := Fallible.bind_ok.mp hstep
    have hsession : (waiting s n).session = some s := rfl
    obtain ⟨-, hsetup, hstack, hgrow⟩ := fair_supply h hsession ht
    have hf' := fills_of_supply hf h hsession ht
    exact ⟨s, t, rfl, hf, h, ht, fun given' h' =>
      comes_settle hf' h' hwaits hsetup hstack hgrow hstep⟩
  | ready s =>
    obtain ⟨hf, h, -⟩ := h
    rw [step, result_finish] at hstep
    obtain ⟨t, ht, hstep⟩ := Fallible.bind_ok.mp hstep
    obtain ⟨outputs, houtputs, hstep⟩ := Fallible.bind_ok.mp hstep
    have hsession : (ready s).session = some s := rfl
    have hf' := fills_of_supply hf h hsession ht
    refine ⟨s, t, rfl, hf, h, ht, fun given' h' => ?_⟩
    rw [Plan.snapshot_eq h'.sound.env.isEmpty_values] at hstep
    obtain rfl := Except.ok.inj hstep
    exact .finished hf' h' houtputs
  | done plan => cases hstep
  | failed f since => cases hstep
  | other variant phase => exact h.elim

/-- **A step that does not fail comes to what a step can come to.** -/
theorem Fair.comes (h : stage.Fair draft settings given) {batch : Option Batch}
    (hstep : (stage.step batch).result = .ok stage') :
    Comes draft settings (given.putAll (stage.keyed batch)) stage' := by
  obtain ⟨s, t, hs, -, haccounted, ht, hcomes⟩ := h.supplies hstep
  exact hcomes _ (fair_supply haccounted hs ht).1

/-- The stage that follows is that of a failure, or what the step has come to. -/
theorem step_of_next {batch : Option Batch} (hnext : (stage.next batch).result = .ok stage') :
    (∃ f, stage' = failed f stage.phase) ∨ (stage.step batch).result = .ok stage' := by
  rw [result_next] at hnext
  cases hstep : (stage.step batch).result with
  | error f =>
    rw [hstep] at hnext
    cases f with
    | data d => exact .inl ⟨d, (Except.ok.inj hnext).symm⟩
    | _ => cases hnext
  | ok st =>
    rw [hstep] at hnext
    exact .inr hnext

/-- **A step keeps every binding accounted for.** -/
theorem Fair.next (h : stage.Fair draft settings given) {batch : Option Batch}
    (hnext : (stage.next batch).result = .ok stage') :
    stage'.Fair draft settings (given.putAll (stage.keyed batch)) := by
  rcases step_of_next hnext with ⟨f, rfl⟩ | hstep
  · trivial
  · exact (h.comes hstep).fair

/-- **On every run every binding is accounted for.** -/
theorem Run.fair (h : Run draft settings given stage) : stage.Fair draft settings given := by
  induction h with
  | start => exact ⟨rfl, rfl, rfl⟩
  | step _ hnext ih => exact ih.next hnext

end Stage

end Scaffold
