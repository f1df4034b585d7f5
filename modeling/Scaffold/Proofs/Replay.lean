import Scaffold.Proofs.Containment
import Scaffold.Proofs.InOrder
import Scaffold.Proofs.Rounds

/-! # Replays

A scan that binds nothing looks at the bound values alone, not at the directories they come from, so
it does the same again wherever the same values are bound (`Setup.Ends.again`). What a ready flow
has bound can therefore be given to a new flow at once, as named values at the root: the new flow is
ready, has bound the same, and finishes alike (`Stage.Run.replay`). -/

namespace Scaffold

namespace Env

variable {env env' : Env} {path : String}

theorem get?_of_values (h : env'.values = env.values) {b : Binding}
    (hb : env.get? path = some b) : ∃ b', env'.get? path = some b' ∧ b'.value = b.value := by
  have hvalue := get?_values env' path
  rw [h, get?_values, hb] at hvalue
  exact Option.map_eq_some_iff.mp hvalue.symm

theorem get?_none_of_values (h : env'.values = env.values) (hu : env.get? path = none) :
    env'.get? path = none := by
  have hvalue := get?_values env' path
  rw [h, get?_values, hu] at hvalue
  exact Option.map_eq_none_iff.mp hvalue.symm

theorem length_values (env : Env) : env.values.length = env.length := List.length_map _

/-- A merge that changes nothing changes nothing where the same values are bound. -/
theorem merge_self_of_values {scope : String} {lookup : String → Option Node} {limit : Int}
    {batch : Batch} (hvalues : env'.values = env.values)
    (h : env.merge batch scope lookup limit = .ok env) :
    env'.merge batch scope lookup limit = .ok env' := by
  obtain ⟨hl, hbound⟩ := merge_self_iff.mp h
  refine merge_self_iff.mpr ⟨?_, fun l hmem => ?_⟩
  · rwa [← length_values, hvalues, length_values]
  obtain ⟨path, v, b, hbinds, hb, hv⟩ := hbound l hmem
  obtain ⟨b', hb', hvalue⟩ := get?_of_values hvalues hb
  exact ⟨path, v, b', hbinds, hb', by rwa [hvalue]⟩

end Env

namespace Setup

variable {s : Setup} {env env' out : Env} {ahead left : List Node} {met : List Passed} {n : Node}

/-! ### Scans that bind nothing -/

/-- A node that is passed without binding anything is passed like that again. -/
theorem Accepted.meet_again (hs : s.Accepted) (henv : s.Sound env) (hn : s.Meets n)
    (hvalues : env'.values = env.values) {active : List Node}
    (h : s.meet env n = .pass out active) (hstill : out = env) :
    s.meet env' n = .pass env' active := by
  rcases hn.content_cases with hc | ⟨q, hq⟩ | ⟨path, v, hc⟩ | hc | ⟨l, help, hc⟩ | ⟨r, hc⟩
  · obtain ⟨scope, hscope⟩ := Descriptor.exists_scope hn.1
    rw [pass_preset_iff hc hscope] at h ⊢
    subst hstill
    exact ⟨Env.merge_self_of_values hvalues h.1, h.2⟩
  · obtain ⟨path, hp, hfits⟩ := hs.question hn.1 hq
    have hfate := hs.fate henv hn.1 hq hp
    rw [h] at hfate
    cases hfate with
    | answered hb hbr =>
      obtain ⟨b', hb', hvalue⟩ := Env.get?_of_values hvalues hb
      exact hs.meet_bound hn.1 hq hp hb' (by rwa [hvalue])
    | skipped hu ho hf =>
      have hu' := Env.get?_none_of_values hvalues hu
      simp only [meet, hq, hfits.concrete, if_true, resolve_skipped hp hu' (by rw [ho, hf]; rfl)]
    | defaulted =>
      -- A default would have made the environment longer.
      have hlength := congrArg List.length hstill
      rw [List.length_append, List.length_singleton] at hlength
      exact absurd hlength (Nat.succ_ne_self _)
  · simp only [meet, hc, satisfies_eq_holds, hvalues] at h ⊢
    rw [(Meeting.pass.inj h).2]
  all_goals
    simp only [meet, hc] at h ⊢
    rw [(Meeting.pass.inj h).2]

/-- A course that binds nothing is taken again wherever the same values are bound. -/
theorem Course.again (hs : s.Accepted) (h : s.Course env ahead met out left) (hstill : out = env)
    (henv : s.Sound env) (ha : ∀ n ∈ ahead, s.Meets n) (hvalues : env'.values = env.values) :
    ∃ met', s.Course env' ahead met' env' left := by
  induction h with
  | refl env ahead => exact ⟨[], .refl env' ahead⟩
  | @step env mid out n active ahead left met hmeet hc ih =>
    subst hstill
    -- What the node leaves lies between two environments that are the same.
    obtain rfl : mid = out := hc.grows.eq_of_length_le (growth_of_pass hmeet).grows.length_le
    have hn := ha n (by simp)
    have hp := hs.passage henv hn hmeet
    obtain ⟨met', hagain⟩ := ih rfl henv (fun m hm => (List.mem_append.mp hm).elim (hp.meets m)
      fun hm => ha m (by simp [hm])) hvalues
    exact ⟨_, .step (hs.meet_again henv hn hvalues hmeet rfl) hagain⟩

/-- **A complete scan that binds nothing** is as complete wherever the same values are bound. -/
theorem Ends.again (hs : s.Accepted) (h : s.Ends env ahead env (.ok none)) (henv : s.Sound env)
    (ha : ∀ n ∈ ahead, s.Meets n) (hvalues : env'.values = env.values) :
    s.Ends env' ahead env' (.ok none) := by
  obtain ⟨met, hc⟩ := h.course
  obtain ⟨met', hagain⟩ := Course.again hs hc rfl henv ha hvalues
  exact hagain.ends

/-- The values of an environment make an environment, wherever they come from. -/
theorem merge_values (henv : s.Sound env) :
    Env.merge [] (.ofPairs env.values "") "" s.inputs.get? s.settings.maxContextSize =
      .ok (Env.ofPairs env.values "") := by
  have hroom : (env.values.length : Int) ≤ s.settings.maxContextSize := by
    rw [Env.length_values]
    exact henv.bounded
  refine Env.merge_ofPairs "" henv.nodup_values hroom fun p hp =>
    ⟨henv.isEmpty_values p hp, ?_⟩
  obtain ⟨⟨path, b⟩, hb, rfl⟩ := List.mem_map.mp hp
  have hget := Mapping.get?_of_mem henv.nodup hb
  rw [Env.settle]
  cases hn : s.inputs.get? path with
  | none => rfl
  | some n => exact Answer.coerce_of_normal (henv.normal path n b hn hget) path

end Setup

/-! ### Flows -/

namespace Stage

variable {draft : Draft} {settings : Settings} {given : Mapping Value} {s t : Session}

/-- A new flow that is given a batch is ready if the scan that follows finds nothing. -/
theorem exists_ready_of_ends {d : Descriptor} {setup : Setup} (hd : draft.accept = .ok d)
    (hsetup : Setup.new d settings = .ok setup) {batch : Batch} {env out : Env} {event : Event}
    (hsupply : setup.supply [] batch setup.descriptor.root = .ok (env, event))
    (hends : setup.Ends env [setup.descriptor.root] out (.ok none)) :
    ∃ t, ((initial draft settings).next (some batch)).result = .ok (ready t) ∧ t.Sound ∧
      t.setup = setup ∧ t.env = out := by
  obtain ⟨-, hnew, -, hcurrent⟩ := opened_ok (opened_eq hd hsetup)
  obtain ⟨opened, hopened, hsame, rfl⟩ :
      ∃ opened, (supply ((Session.new setup).enter setup.descriptor.root) (some batch)).result =
        .ok opened ∧ opened.setup = setup ∧ opened.env = env := by
    rw [supply_opened hd hsetup, hsupply]
    exact ⟨_, rfl, rfl, rfl⟩
  have hsound := (hnew.supply hcurrent hopened).1.sound
  have hsought := hsound.seek
  rw [← hsame] at hends
  obtain ⟨henv, hresult⟩ := hsought.ends.unique hends
  have hstart : (start draft settings (some batch)).result = .ok (ready opened.seek.state) := by
    rw [result_start, opened_eq hd hsetup]
    show (supply ((Session.new setup).enter setup.descriptor.root) (some batch)).result >>= _ = _
    rw [hopened]
    show opened.seek.result >>= _ = _
    rw [hresult]
    rfl
  rw [hresult] at hsought
  exact ⟨opened.seek.state, by rw [result_next, step, hstart], hsought.sound hsound,
    hsought.setup.trans hsame, henv⟩

/-- Ready flows that have bound the same values finish alike. -/
theorem next_ready_congr (hs : s.Sound) (ht : t.Sound) (hsetup : t.setup = s.setup)
    (hvalues : t.env.values = s.env.values) :
    ((ready t).next none).result = ((ready s).next none).result := by
  have hassemble : t.assemble = s.assemble := by
    rw [Session.assemble, Session.assemble, hsetup, hvalues]
  have hplan : t.plan = s.plan := by
    funext outputs
    rw [Session.plan, Session.plan, hvalues]
  rw [result_next_ready ht, result_next_ready hs, hassemble, hplan]

/-- **What a flow has bound can be replayed.** If a search from a ready stage binds nothing and
finds nothing, then a new flow that is given the bound values as one batch is ready after one step.
It has bound the same values in the same order, and finishing it gives the same as finishing the
first one, which is a plan if the draft is well typed. -/
theorem Run.replay (h : Run draft settings given (ready s)) (hnone : s.seek.result = .ok none)
    (hstill : s.seek.state.env = s.env) :
    ∃ t, ((initial draft settings).next (some (.ofPairs s.env.values ""))).result =
        .ok (ready t) ∧ t.env.values = s.env.values ∧
      ((ready t).next none).result = ((ready s).next none).result ∧
      (draft.WellTyped → ∃ p, ((ready t).next none).result = .ok (done p)) := by
  obtain ⟨⟨d, hd, hsetup⟩, haccounted, -⟩ := h.fair
  have hs := haccounted.sound
  -- The batch binds the values as they are.
  have hsupply := Setup.supply_of_scope (s := s.setup) (Descriptor.scope_root s.setup.descriptor)
    [] (.ofPairs s.env.values "")
  rw [Setup.merge_values hs.env] at hsupply
  -- The scan does what it does once more in the first flow.
  have hends := hs.seek.ends
  rw [hnone, hstill] at hends
  have hagain := hends.again hs.accepted hs.env hs.accepted.meets_start
    (Env.values_ofPairs s.env.values "")
  obtain ⟨t, hready, ht, hsame, henv⟩ := exists_ready_of_ends hd hsetup hsupply hagain
  have hvalues : t.env.values = s.env.values := by rw [henv, Env.values_ofPairs]
  have hcongr := next_ready_congr hs ht hsame hvalues
  refine ⟨t, hready, hvalues, hcongr, fun htyped => ?_⟩
  obtain ⟨-, hdescriptor, -⟩ := Setup.accepted_of_new hd hsetup
  obtain ⟨outputs, houtputs⟩ := Descriptor.exists_assemble hs.accepted
    (by rw [hdescriptor]; exact htyped.of_accept hd) hs.env
  have hassemble : s.assemble = .ok outputs := houtputs
  rw [hcongr, result_next_ready hs, hassemble]
  exact ⟨_, rfl⟩

/-- Two answers that were given one after the other are replayed at once. -/
theorem earlyGate_replay : ∃ s t p,
    Run (.earlyGate false) {} [("x", .str "v"), ("y", .str "w")] (ready s) ∧
    s.env.values = [("x", .str "v"), ("y", .str "w")] ∧
    ((initial (.earlyGate false) {}).next
      (some (.ofPairs [("x", .str "v"), ("y", .str "w")] ""))).result = .ok (ready t) ∧
    t.env.values = s.env.values ∧ ((ready s).next none).result = .ok (done p) ∧
    ((ready t).next none).result = .ok (done p) := by
  obtain ⟨s, hrun, hvalues, hnone, hstill⟩ :
      ∃ s, Run (.earlyGate false) {} [("x", .str "v"), ("y", .str "w")] (ready s) ∧
        s.env.values = [("x", .str "v"), ("y", .str "w")] ∧ s.seek.result = .ok none ∧
        s.seek.state.env = s.env := by
    have h₁ := @Run.step (.earlyGate false) {} _ _ _ none .start rfl
    have h₂ := @Run.step _ _ _ _ _ (some (.ofPairs [("x", .str "v")] "")) h₁ rfl
    have h₃ := @Run.step _ _ _ _ _ (some (.ofPairs [("y", .str "w")] "")) h₂ rfl
    exact ⟨_, h₃, rfl, rfl, rfl⟩
  have htyped : ∀ i : Fin 4, ((Draft.earlyGate false).cell i).label.content.WellTyped
    | 0 | 1 | 2 | 3 => trivial
  obtain ⟨t, hready, hsame, hnext, hdone⟩ := hrun.replay hnone hstill
  obtain ⟨p, hp⟩ := hdone htyped
  rw [hvalues] at hready
  exact ⟨s, t, p, hrun, hvalues, hready, hsame, hnext ▸ hp, hp⟩

end Stage

end Scaffold
