import Scaffold.Proofs.Agreement
import Scaffold.Proofs.History

/-! # Finished flows

The plan of a finished flow depends on the descriptor and on what is bound in the end, not on the
rounds, batches and order in which it got bound (`Stage.Finishes.plan_eq`). It puts down the bound
values in the order of their paths, each path once, and its outputs can be assembled from it again
(`Plan.Records`). -/

namespace Scaffold

namespace Plan

/-- The plan puts down what the environment binds, in the order of the paths and each path once, and
its outputs are those that the descriptor has for the values put down. -/
structure Records (p : Plan) (d : Descriptor) (env : Env) : Prop where
  increasing : (p.entries.map Entry.path).Pairwise (· < ·)
  paths : (p.entries.map Entry.path).Perm (Mapping.names env)
  values : ∀ e ∈ p.entries, env.values.get? e.path = some e.value
  outputs : d.assemble p.context = .ok p.outputs

end Plan

namespace Session

variable {s : Session}

/-- What a session that has its outputs assembled has bound is recorded by its plan. -/
theorem plan_records (hs : s.Sound) {outputs : List Directive} (h : s.assemble = .ok outputs) :
    (s.plan outputs).Records s.setup.descriptor s.env := by
  have hnodup := hs.env.nodup_values
  have hpaths : (s.plan outputs).entries.map Entry.path =
      Mapping.names (Plan.sorted s.env.values) := List.map_map
  refine ⟨?_, ?_, fun e he => ?_, ?_⟩
  · rw [hpaths]
    exact Plan.pairwise_lt_sorted hnodup
  · rw [hpaths, ← Env.names_values]
    exact Plan.perm_names_sorted _
  · obtain ⟨p, hp, rfl⟩ := List.mem_map.mp he
    exact Mapping.get?_of_mem hnodup (Plan.mem_sorted.mp hp)
  · exact (Assembly.collect_of_get?_eq (Plan.get?_context hnodup outputs) _).trans h

end Session

/-! ### Flows -/

namespace Stage

variable {draft : Draft} {settings settings' : Settings} {given : Mapping Value} {p p' : Plan}
  {env env' : Env}

/-- A flow over a draft finishes with a plan, its session having bound an environment in the end. -/
inductive Finishes (draft : Draft) (settings : Settings) : Env → Plan → Prop
  | intro {given : Mapping Value} {s t : Session} {batch : Option Batch} {p : Plan} :
      Run draft settings given (ready s) → (supply s batch).result = .ok t →
      ((ready s).next batch).result = .ok (done p) → Finishes draft settings t.env p

/-- Every run to the end finishes like this. -/
theorem Run.finishes (h : Run draft settings given (done p)) :
    ∃ env, Finishes draft settings env p := by
  generalize hend : done p = stage at h
  cases h with
  | start => cases hend
  | @step given stage _ batch hrun hnext =>
    subst hend
    have hphase := phase_of_next hnext
    obtain ⟨f, hf⟩ | hstep := step_of_next hnext
    · cases hf
    obtain ⟨s, t, hs, -, -, ht, -⟩ := hrun.fair.supplies hstep
    cases stage with
    | ready s' =>
      obtain rfl := Option.some.inj hs
      exact ⟨t.env, .intro hrun ht hnext⟩
    | initial | waiting => simp [phase, Phase.followers] at hphase
    | done | failed | other => cases hs

/-- The plan of a flow that finishes is that of a sound session with what is bound in the end. -/
theorem Finishes.exists_session {d : Descriptor} (hd : draft.accept = .ok d)
    (h : Finishes draft settings env p) : ∃ t : Session, t.Sound ∧ t.setup.descriptor = d ∧
      t.env = env ∧ ∃ outputs, t.assemble = .ok outputs ∧ p = t.plan outputs := by
  obtain @⟨given, s, t, batch, p, hrun, ht, hnext⟩ := h
  obtain ⟨⟨d', hd', hsetup⟩, haccounted, -⟩ := hrun.fair
  obtain rfl := Except.ok.inj (hd.symm.trans hd')
  obtain ⟨-, hdescriptor, -⟩ := Setup.accepted_of_new hd hsetup
  have hsession : (ready s).session = some s := rfl
  obtain ⟨haccounted', hsame, -, -⟩ := fair_supply haccounted hsession ht
  exact ⟨t, haccounted'.sound, by rw [hsame, hdescriptor], rfl,
    plan_of_finish ht haccounted'.sound hnext⟩

/-- **The plan depends on what is bound in the end alone.** Two flows over one accepted draft that
have bound the same values under the same paths, in whatever rounds and order and under whatever
settings, finish with the same plan. It puts down what each has bound, in the order of the paths,
and its outputs are those that are assembled from it. -/
theorem Finishes.plan_eq {d : Descriptor} (hd : draft.accept = .ok d)
    (h : Finishes draft settings env p) (h' : Finishes draft settings' env' p')
    (hsame : ∀ path, env.values.get? path = env'.values.get? path) :
    p = p' ∧ p.Records d env ∧ p'.Records d env' := by
  obtain ⟨t, ht, rfl, rfl, outputs, houtputs, rfl⟩ := h.exists_session hd
  obtain ⟨t', ht', hd', rfl, outputs', houtputs', rfl⟩ := h'.exists_session hd
  have hrecords := Session.plan_records ht houtputs
  have hrecords' := Session.plan_records ht' houtputs'
  have hassemble : t'.assemble = t.assemble := by
    rw [Session.assemble, Session.assemble, hd']
    exact (Assembly.collect_of_get?_eq hsame _).symm
  obtain rfl : outputs = outputs' :=
    Except.ok.inj (houtputs.symm.trans (hassemble.symm.trans houtputs'))
  have hsorted := Plan.sorted_eq ht.env.nodup_values ht'.env.nodup_values hsame
  refine ⟨by rw [Session.plan, Session.plan, hsorted], hrecords, ?_⟩
  rwa [hd'] at hrecords'

/-- One flow is given an answer when it waits and another one when it is ready; the other flow gets
both at once and in the other order. -/
theorem earlyGate_plan_eq : ∃ env env' p p', env.values = [("x", .str "u"), ("y", .str "w")] ∧
    env'.values = [("y", .str "w"), ("x", .str "u")] ∧ Finishes (.earlyGate false) {} env p ∧
    Finishes (.earlyGate false) {} env' p' ∧ p = p' := by
  obtain ⟨s, t, hs, ht, hvalues, outputs, ha⟩ : ∃ s t,
      Run (.earlyGate false) {} [("x", .str "u")] (ready s) ∧
        (supply s (some (.ofPairs [("y", .str "w")] ""))).result = .ok t ∧
        t.env.values = [("x", .str "u"), ("y", .str "w")] ∧
        ∃ outputs, t.assemble = .ok outputs := by
    have h₁ := @Run.step (.earlyGate false) {} _ _ _ none .start rfl
    have h₂ := @Run.step _ _ _ _ _ (some (.ofPairs [("x", .str "u")] "")) h₁ rfl
    exact ⟨_, _, h₂, rfl, rfl, _, rfl⟩
  obtain ⟨s', hs', hvalues', outputs', ha'⟩ : ∃ s',
      Run (.earlyGate false) {} [("y", .str "w"), ("x", .str "u")] (ready s') ∧
        s'.env.values = [("y", .str "w"), ("x", .str "u")] ∧
        ∃ outputs, s'.assemble = .ok outputs := by
    have h₁ := @Run.step (.earlyGate false) {} _ _ _
      (some (.ofPairs [("y", .str "w"), ("x", .str "u")] "")) .start rfl
    exact ⟨_, h₁, rfl, _, rfl⟩
  have hsession : (ready s).session = some s := rfl
  have hp := result_next_ready_of_supply ht (fair_supply hs.fair.2.1 hsession ht).1.sound
  have hp' := result_next_ready hs'.fair.2.1.sound
  rw [ha] at hp
  rw [ha'] at hp'
  have hfinish : Finishes (.earlyGate false) {} t.env _ := .intro hs ht hp
  have hfinish' : Finishes (.earlyGate false) {} s'.env _ := .intro hs' rfl hp'
  have hsame : ∀ path, t.env.values.get? path = s'.env.values.get? path := by
    rw [hvalues, hvalues']
    exact Mapping.get?_eq_of_mem_iff (by decide) (by decide) fun p => by simp [or_comm]
  obtain ⟨d, hd, -⟩ := hs.fair.1
  obtain ⟨heq, -, -⟩ := hfinish.plan_eq hd hfinish' hsame
  exact ⟨_, _, _, _, hvalues, hvalues', hfinish, hfinish', heq⟩

end Stage

end Scaffold
