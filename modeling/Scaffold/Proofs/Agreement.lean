import Scaffold.Proofs.InOrder
import Scaffold.Proofs.Run

/-! # What was given decides the plan

`Setup.Settled` describes the bound values of a ready flow over a descriptor in order: all of them
are accounted for, and whatever they reach has been dealt with. Two environments like this that were
given the same bindings reach the same nodes (`Settled.reaches_iff`, by induction in document order)
and bind the same values (`Settled.agree`). So the plans are the same, however the bindings were
supplied. -/

namespace Scaffold

open Assembly

/-- The mappings have the same names, and what they hold under a name compares equal. -/
def Mapping.Equal (m m' : Mapping Value) : Prop :=
  ∀ name, Option.Rel (fun v w => Value.equal v w = true) (m.get? name) (m'.get? name)

theorem Mapping.Equal.symm {m m' : Mapping Value} (h : Mapping.Equal m m') :
    Mapping.Equal m' m := by
  intro name
  have hrel := h name
  generalize m.get? name = x at hrel ⊢
  generalize m'.get? name = y at hrel ⊢
  cases hrel with
  | some hv => exact .some (Value.equal_symm hv)
  | none => exact .none

theorem Mapping.Equal.exists_of_get? {m m' : Mapping Value} (h : Mapping.Equal m m')
    {name : String} {v : Value} (hv : m.get? name = some v) :
    ∃ w, m'.get? name = some w ∧ Value.equal v w = true := by
  have hrel := h name
  rw [hv] at hrel
  generalize m'.get? name = y at hrel ⊢
  cases hrel with
  | some hvw => exact ⟨_, rfl, hvw⟩

namespace Setup

variable {s : Setup} {given given' : Mapping Value} {env env' : Env}

/-- The bindings are accounted for, and what they reach has been dealt with. -/
structure Settled (s : Setup) (given : Mapping Value) (env : Env) : Prop where
  sound : s.Sound env
  supplied : ∀ path v, given.get? path = some v →
    ∃ b, env.get? path = some b ∧ Value.same b.value v = true
  source : ∀ path b, env.get? path = some b → (∃ v, given.get? path = some v) ∨
    ∃ n, Reaches env.values s.descriptor.root n ∧ s.Source n path b.value
  preset : ∀ n, Reaches env.values s.descriptor.root n → Node.content n = .preset →
    ∀ c ∈ n.children, ∃ scope path v b, Node.scope n = .ok scope ∧
      Env.Binds scope s.inputs.get? c.label.label path v ∧ env.get? path = some b ∧
      Value.same b.value v = true
  default : ∀ n, Reaches env.values s.descriptor.root n → ∀ q path, Node.content n = .question q →
    Node.path n = .ok path → q.hasFallback = true → ∃ b, env.get? path = some b

/-- A ready session over a descriptor in order is settled. -/
theorem settled_of_scanned {t : Session} (h : t.Accounted given) (hscan : t.Scanned)
    (hd : t.setup.descriptor.InOrder) : t.setup.Settled given t.env := by
  obtain ⟨before, met, hbefore, hc⟩ := hscan
  have hs := h.sound
  have hstart := hs.accepted.meets_start
  have hpassed : ∀ n, Reaches t.env.values t.setup.descriptor.root n → ∃ p ∈ met, p.node = n :=
    fun n hn => Course.passed_of_inOrder hs.accepted hd hc hbefore hstart
      t.setup.pairwise_root (List.mem_singleton_self _) hn
  refine ⟨hs.env, h.supplied, h.source, fun n hn hpre c hmem => ?_, fun n hn q path hq hp hf => ?_⟩
  · obtain ⟨p, hp, rfl⟩ := hpassed n hn
    obtain ⟨-, -, hgrow, active, hpass⟩ := Course.passage hs.accepted hc hbefore hstart p hp
    obtain ⟨scope, path, v, b, hscope, hbinds, hb, hsame⟩ := hpass.preset hpre c hmem
    exact ⟨scope, path, v, b, hscope, hbinds, Mapping.get?_of_prefix hgrow hb, hsame⟩
  · obtain ⟨p, hp', rfl⟩ := hpassed n hn
    obtain ⟨-, -, hgrow, active, hpass⟩ := Course.passage hs.accepted hc hbefore hstart p hp'
    rcases hpass.question q path hq hp with ⟨b, hb⟩ | ⟨-, hbare⟩
    · exact ⟨b, Mapping.get?_of_prefix hgrow hb⟩
    · rw [hf] at hbare
      cases hbare

/-! ### The same values -/

/-- What a node that is reached can bind is bound; by a preset, to the very value. -/
theorem Settled.bound_of_source (h : s.Settled given env) {n : Node} {path : String} {v : Value}
    (hn : Reaches env.values s.descriptor.root n) (hsource : s.Source n path v) :
    ∃ b, env.get? path = some b ∧ (Node.content n = .preset → Value.same b.value v = true) := by
  cases hsource with
  | preset hc hscope hmem hbinds =>
    obtain ⟨scope', path', v', b, hscope', hbinds', hb, hsame⟩ := h.preset n hn hc _ hmem
    obtain rfl := Except.ok.inj (hscope.symm.trans hscope')
    obtain ⟨rfl, rfl⟩ := hbinds.unique hbinds'
    exact ⟨b, hb, fun _ => hsame⟩
  | default hq hf hp _ =>
    obtain ⟨b, hb⟩ := h.default n hn _ path hq hp hf
    exact ⟨b, hb, fun hc => by rw [hq] at hc; cases hc⟩

/-- The nodes that may bind a path are reached under both environments or under neither. -/
def SameSources (s : Setup) (env env' : Env) (path : String) : Prop :=
  ∀ n ∈ s.descriptor.nodes, ∀ v, s.Source n path v →
    (Reaches env.values s.descriptor.root n ↔ Reaches env'.values s.descriptor.root n)

theorem SameSources.symm {path : String} (h : SameSources s env env' path) :
    SameSources s env' env path := fun n hn v hs => (h n hn v hs).symm

/-- A value that is bound in one settled environment is bound in the other. -/
theorem Settled.exists_same (hs : s.Accepted) (h : s.Settled given env) (h' : s.Settled given' env')
    (hgiven : Mapping.Equal given given') {path : String} (hsources : SameSources s env env' path)
    {b : Binding} (hb : env.get? path = some b) :
    ∃ b', env'.get? path = some b' ∧ Value.same b.value b'.value = true := by
  -- What was given to both is the same in both.
  have hboth : ∀ v w, given.get? path = some v → given'.get? path = some w →
      Value.equal v w = true →
      ∃ b', env'.get? path = some b' ∧ Value.same b.value b'.value = true := by
    intro v w hv hw hvw
    obtain ⟨b₁, hb₁, hsame⟩ := h.supplied path v hv
    obtain rfl : b = b₁ := Option.some.inj (hb.symm.trans hb₁)
    obtain ⟨b', hb', hsame'⟩ := h'.supplied path w hw
    exact ⟨b', hb', Value.same_trans (Value.same_trans hsame (Value.same_of_equal hvw))
      (Value.same_symm hsame')⟩
  rcases h.source path b hb with ⟨v, hv⟩ | ⟨n, hn, hsource⟩
  · obtain ⟨w, hw, hvw⟩ := hgiven.exists_of_get? hv
    exact hboth v w hv hw hvw
  have hnmem := (hn.meets hs hs.meets_root).1
  obtain ⟨b', hb', hpre⟩ := h'.bound_of_source ((hsources n hnmem _ hsource).mp hn) hsource
  by_cases hc : Node.content n = .preset
  · exact ⟨b', hb', Value.same_symm (hpre hc)⟩
  -- A default was bound there, so the value bound here need not come from the same node.
  rcases h'.source path b' hb' with ⟨w, hw⟩ | ⟨m, hm, hsource'⟩
  · obtain ⟨v, hv, hwv⟩ := hgiven.symm.exists_of_get? hw
    exact hboth v w hv hw (Value.equal_symm hwv)
  have hmmem := (hm.meets hs hs.meets_root).1
  obtain ⟨b₁, hb₁, hpre'⟩ := h.bound_of_source ((hsources m hmmem _ hsource').mpr hm) hsource'
  obtain rfl : b = b₁ := Option.some.inj (hb.symm.trans hb₁)
  by_cases hc' : Node.content m = .preset
  · exact ⟨b', hb', hpre' hc'⟩
  refine ⟨b', hb', ?_⟩
  cases hsource with
  | preset hcn => exact absurd hcn hc
  | @default q hq hf hp hv =>
    cases hsource' with
    | preset hcm => exact absurd hcm hc'
    | @default q' hq' hf' hp' hv' =>
      obtain rfl : n = m := hs.eq_of_path_eq hnmem hmmem (Node.question?_eq_some.mpr hq)
        (Node.question?_eq_some.mpr hq') hp hp'
      obtain rfl := Content.question.inj (hq.symm.trans hq')
      rw [Except.ok.inj (hv.symm.trans hv')]
      exact Value.same_refl _

/-- Settled environments agree on a path, if the nodes that may bind it are reached alike. -/
theorem Settled.agree (hs : s.Accepted) (h : s.Settled given env) (h' : s.Settled given' env')
    (hgiven : Mapping.Equal given given') {path : String}
    (hsources : SameSources s env env' path) : Plan.AgreeAt env.values env'.values path := by
  rw [Plan.AgreeAt, Env.get?_values, Env.get?_values]
  cases hb : Mapping.get? env path with
  | some b =>
    obtain ⟨b', hb', hsame⟩ := h.exists_same hs h' hgiven hsources hb
    rw [hb']
    exact .some hsame
  | none =>
    cases hb' : Mapping.get? env' path with
    | none => exact .none
    | some b' =>
      obtain ⟨b, hb₁, -⟩ := h'.exists_same hs h hgiven.symm hsources.symm hb'
      rw [hb] at hb₁
      cases hb₁

/-! ### The same nodes -/

/-- Environments that agree on what a node depends on show the same there. -/
theorem shown_eq_of_agree (hs : s.Accepted) (henv : s.Sound env) (henv' : s.Sound env') {n : Node}
    (hn : s.Meets n) (h : ∀ path, n.GatedBy path → Plan.AgreeAt env.values env'.values path) :
    shown env.values n = shown env'.values n := by
  rcases hn.content_cases with hc | ⟨q, hq⟩ | ⟨path, v, hc⟩ | hc | ⟨l, help, hc⟩ | ⟨r, hc⟩
  · simp only [shown, hc]
  · obtain ⟨path, hp, -⟩ := hs.question hn.1 hq
    have hrel := h path (.inr ⟨⟨q, hq⟩, hp⟩)
    have hinput := hs.get?_iff.mpr ⟨hn.1, ⟨q, Node.question?_eq_some.mpr hq⟩, hp⟩
    rw [shown_question hq hp, shown_question hq hp]
    rw [Plan.AgreeAt] at hrel
    rw [Env.get?_values, Env.get?_values] at hrel ⊢
    cases hb : Mapping.get? env path with
    | none =>
      cases hb' : Mapping.get? env' path with
      | none => rfl
      | some b' => rw [hb, hb'] at hrel; cases hrel
    | some b =>
      cases hb' : Mapping.get? env' path with
      | none => rw [hb, hb'] at hrel; cases hrel
      | some b' =>
        obtain ⟨q', hq', -, hnormal⟩ := henv.normal path n b hinput hb
        obtain ⟨q'', hq'', -, hnormal'⟩ := henv'.normal path n b' hinput hb'
        obtain rfl := Option.some.inj (hq'.symm.trans hq'')
        rw [hb, hb'] at hrel
        cases hrel with
        | some hsame => simp only [Option.map_some, hnormal.eq_of_same hnormal' hsame]
  · have hrel := h path (.inl ⟨v, hc⟩)
    rw [shown_conditional hc, shown_conditional hc, holds, holds]
    rw [Plan.AgreeAt] at hrel
    generalize Mapping.get? env.values path = x at hrel ⊢
    generalize Mapping.get? env'.values path = y at hrel ⊢
    cases hrel with
    | some hsame => simp only [Value.equal_left hsame]
    | none => rfl
  all_goals simp only [shown, hc]

theorem precedes_of_mem_shown {context : Mapping Value} {l n : Node} (hl : l ∈ s.descriptor.nodes)
    (h : n ∈ shown context l) : Node.Precedes l n := by
  rcases mem_children_of_mem_shown h with hn | ⟨c, hc, -, hn⟩
  · exact Descriptor.precedes_of_mem_children hl hn
  · exact (Descriptor.precedes_of_mem_children hl hc).trans
      (Descriptor.precedes_of_mem_children (Descriptor.mem_nodes_of_mem_children hl hc) hn)

/-- **Settled environments that were given the same reach the same nodes.** -/
theorem Settled.reaches_iff (hs : s.Accepted) (hd : s.descriptor.InOrder)
    (h : s.Settled given env) (h' : s.Settled given' env') (hgiven : Mapping.Equal given given') :
    ∀ n ∈ s.descriptor.nodes, (Reaches env.values s.descriptor.root n ↔
      Reaches env'.values s.descriptor.root n) := by
  refine Descriptor.order_induction fun n hn ih => ?_
  -- The sources of a gate before the node do not come after the gate, so they are reached alike.
  have hshown : ∀ l, s.Meets l → Node.Precedes l n →
      shown env.values l = shown env'.values l := by
    intro l hl hprec
    refine shown_eq_of_agree hs h.sound h'.sound hl fun path hgate => ?_
    refine h.agree hs h' hgiven fun m hm v hsource => ih m hm ?_
    rcases Descriptor.eq_or_precedes hl.1 hm
      (not_precedes_of_source hs hd hl.1 hgate hm hsource) with rfl | hprec'
    · exact hprec
    · exact hprec'.trans hprec
  constructor
  · intro hr
    rcases hr.eq_or_exists_shown with rfl | ⟨l, hl, hmem⟩
    · exact .refl _
    · have hmeets := hl.meets hs hs.meets_root
      have hprec := precedes_of_mem_shown hmeets.1 hmem
      refine ((ih l hmeets.1 hprec).mp hl).trans (.step ?_ (.refl n))
      rwa [← hshown l hmeets hprec]
  · intro hr
    rcases hr.eq_or_exists_shown with rfl | ⟨l, hl, hmem⟩
    · exact .refl _
    · have hmeets := hl.meets hs hs.meets_root
      have hprec := precedes_of_mem_shown hmeets.1 hmem
      refine ((ih l hmeets.1 hprec).mpr hl).trans (.step ?_ (.refl n))
      rwa [hshown l hmeets hprec]

/-- **Settled environments that were given the same bind the same.** -/
theorem Settled.agree_all (hs : s.Accepted) (hd : s.descriptor.InOrder)
    (h : s.Settled given env) (h' : s.Settled given' env') (hgiven : Mapping.Equal given given')
    (path : String) : Plan.AgreeAt env.values env'.values path :=
  h.agree hs h' hgiven fun n hn _ _ => h.reaches_iff hs hd h' hgiven n hn

/-- Settled environments that were given the same have the same directives. -/
theorem Settled.assemble_eq (hs : s.Accepted) (hd : s.descriptor.InOrder)
    (h : s.Settled given env) (h' : s.Settled given' env') (hgiven : Mapping.Equal given given') :
    s.descriptor.assemble env.values = s.descriptor.assemble env'.values := by
  refine collect_congr hs (h.sound.selects hs) (h'.sound.selects hs) _ hs.meets_root fun m hm => ?_
  exact shown_eq_of_agree hs h.sound h'.sound (hm.meets hs hs.meets_root) fun path _ =>
    h.agree_all hs hd h' hgiven path

end Setup

/-! ### Finished flows -/

namespace Stage

variable {draft : Draft} {settings : Settings} {given given' : Mapping Value}

/-- The plan of a finished flow puts down what its session has bound once the batch is merged. -/
theorem plan_of_finish {s t : Session} {batch : Option Batch} (hs : (supply s batch).result = .ok t)
    (ht : t.Sound) {p : Plan} (h : ((ready s).next batch).result = .ok (done p)) :
    ∃ outputs, t.assemble = .ok outputs ∧ p = t.plan outputs := by
  rw [result_next_ready_of_supply hs ht] at h
  cases ha : t.assemble with
  | ok outputs =>
    rw [ha] at h
    exact ⟨outputs, rfl, (done.inj (Except.ok.inj h)).symm⟩
  | error f =>
    rw [ha] at h
    cases f <;> cases h

theorem plan_of_next {s : Session} (hs : s.Sound) {p : Plan}
    (h : ((ready s).next none).result = .ok (done p)) :
    ∃ outputs, s.assemble = .ok outputs ∧ p = s.plan outputs := plan_of_finish rfl hs h

/-- **The plan depends on what was given alone.** Two runs over a descriptor in order that were
given the same bindings, in whatever rounds, batches and order and at whatever nodes, finish with
the same plan. -/
theorem Run.plan_same {d : Descriptor} (hd : draft.accept = .ok d) (horder : d.InOrder)
    {s s' : Session} {p p' : Plan} (h : Run draft settings given (ready s))
    (hp : ((ready s).next none).result = .ok (done p))
    (h' : Run draft settings given' (ready s'))
    (hp' : ((ready s').next none).result = .ok (done p')) (hgiven : Mapping.Equal given given') :
    Plan.same p p' = true := by
  obtain ⟨⟨d₁, hd₁, hsetup⟩, haccounted, hscanned⟩ := h.fair
  obtain ⟨⟨d₂, hd₂, hsetup'⟩, haccounted', hscanned'⟩ := h'.fair
  obtain rfl := Except.ok.inj (hd.symm.trans hd₁)
  obtain rfl := Except.ok.inj (hd.symm.trans hd₂)
  have hsame : s'.setup = s.setup := Except.ok.inj (hsetup'.symm.trans hsetup)
  obtain ⟨hs, hdescriptor, -⟩ := Setup.accepted_of_new hd hsetup
  rw [← hdescriptor] at horder
  have hsettled := Setup.settled_of_scanned haccounted hscanned horder
  have hsettled' := Setup.settled_of_scanned haccounted' hscanned' (by rwa [hsame])
  rw [hsame] at hsettled'
  obtain ⟨outputs, houtputs, rfl⟩ := plan_of_next haccounted.sound hp
  obtain ⟨outputs', houtputs', rfl⟩ := plan_of_next haccounted'.sound hp'
  have heq := hsettled.assemble_eq hs horder hsettled' hgiven
  rw [Session.assemble] at houtputs houtputs'
  rw [hsame, ← heq, houtputs] at houtputs'
  obtain rfl := Except.ok.inj houtputs'
  refine Plan.same_of_agree ?_ ?_ (hsettled.agree_all hs horder hsettled' hgiven) outputs
  · rw [Env.names_values]
    exact hsettled.sound.nodup
  · rw [Env.names_values]
    exact hsettled'.sound.nodup

/-- Two answers that are given at once, or one after the other. -/
theorem earlyGate_plan_same : ∃ s s' p p',
    Run (.earlyGate false) {} [("y", .str "w"), ("x", .str "v")] (ready s) ∧
    Run (.earlyGate false) {} [("x", .str "v"), ("y", .str "w")] (ready s') ∧
    ((ready s).next none).result = .ok (done p) ∧ ((ready s').next none).result = .ok (done p') ∧
    Plan.same p p' = true := by
  obtain ⟨s, hs, outputs, ha⟩ :
      ∃ s, Run (.earlyGate false) {} [("y", .str "w"), ("x", .str "v")] (ready s) ∧
        ∃ outputs, s.assemble = .ok outputs := by
    have h₁ := @Run.step (.earlyGate false) {} _ _ _
      (some (.ofPairs [("y", .str "w"), ("x", .str "v")] "")) .start rfl
    exact ⟨_, h₁, _, rfl⟩
  obtain ⟨s', hs', outputs', ha'⟩ :
      ∃ s, Run (.earlyGate false) {} [("x", .str "v"), ("y", .str "w")] (ready s) ∧
        ∃ outputs, s.assemble = .ok outputs := by
    have h₁ := @Run.step (.earlyGate false) {} _ _ _ none .start rfl
    have h₂ := @Run.step _ _ _ _ _ (some (.ofPairs [("x", .str "v")] "")) h₁ rfl
    have h₃ := @Run.step _ _ _ _ _ (some (.ofPairs [("y", .str "w")] "")) h₂ rfl
    exact ⟨_, h₃, _, rfl⟩
  have hequal : Mapping.Equal [("y", .str "w"), ("x", .str "v")]
      [("x", .str "v"), ("y", .str "w")] := by
    intro name
    by_cases hx : name = "x"
    · subst hx
      exact .some rfl
    by_cases hy : name = "y"
    · subst hy
      exact .some rfl
    rw [Mapping.get?, Mapping.get?]
    simp only [List.lookup_cons, beq_false_of_ne hx, beq_false_of_ne hy, List.lookup_nil]
    exact .none
  have hp := result_next_ready hs.fair.2.1.sound
  have hp' := result_next_ready hs'.fair.2.1.sound
  rw [ha] at hp
  rw [ha'] at hp'
  obtain ⟨d, hd, -⟩ := hs.fair.1
  exact ⟨s, s', _, _, hs, hs', hp, hp',
    Run.plan_same hd (Draft.earlyGate_inOrder false hd) hs hp hs' hp' hequal⟩

end Stage

end Scaffold
