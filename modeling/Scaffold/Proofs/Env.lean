import Scaffold.Env
import Scaffold.Proofs.Answer
import Scaffold.Proofs.Mapping

/-! # Merging batches

A member of a batch binds the settled value of its binding at the path that its name has in the
scope of the batch (`Binds`). A merge that succeeds puts entries at the end and changes none
(`prefix_of_merge`), leaves every value of the batch bound (`bound_of_merge`), and puts nothing else
there (`source_of_merge`); it changes nothing if and only if the values are bound already
(`merge_self_iff`). A single value is settled and put at the end (`merge_single`), values that are
new and settled are bound as they are (`merge_ofPairs`). A merge that fails is a fault of binding if
the batch consists of bindings (`fault_of_merge`), and a fault of the data if besides all values can
be written (`merge_ne_oversized`).

`Sound` is what holds of the environments that merges lead to. -/

namespace Scaffold

/-- The fault is of one of the families that binding a value may fail with. -/
def DataFault.OfBinding (d : DataFault) : Prop :=
  d.family ∈ ["DuplicateBindingError", "TypeMismatchError", "ContextOverflowError"]

/-- The fault is one that binding a value may fail with: it is of one of these families, or a value
that should be reported cannot be written. -/
inductive Fault.OfBinding : Fault → Prop
  | data {d : DataFault} : d.OfBinding → OfBinding (.data d)
  | oversized : OfBinding .oversized

theorem Fault.ofBinding_differing {report : String → String → DataFault}
    (h : ∀ s t, (report s t).OfBinding) (u v : Value) : (differing report u v).OfBinding := by
  rcases differing_cases report u v with ⟨s, t, -, -, heq⟩ | ⟨-, heq⟩ <;> rw [heq]
  · exact .data (h s t)
  · exact .oversized

/-- The value can be written if the label is that of a binding. -/
def Label.Writable (l : Label) : Prop := ∀ name v, l.content = .binding name v → v.Writable

/-- All values of a batch can be written. -/
def Batch.Writable (b : Batch) : Prop := ∀ l ∈ b.members, l.Writable

namespace Env

variable {scope : String} {lookup : String → Option Node}

/-- All values that are bound can be written. -/
def Writable (env : Env) : Prop := ∀ path b, env.get? path = some b → b.value.Writable

/-- A member of a batch binds a value at a path. -/
def Binds (scope : String) (lookup : String → Option Node) (l : Label) (path : String) (v : Value) :
    Prop :=
  ∃ name given, l.content = .binding name given ∧ name.isEmpty = false ∧
    Path.join scope name = path ∧ settle lookup path given = .ok v

theorem Binds.unique {l : Label} {p p' : String} {v v' : Value} (h : Binds scope lookup l p v)
    (h' : Binds scope lookup l p' v') : p = p' ∧ v = v' := by
  obtain ⟨name, given, hl, -, rfl, hv⟩ := h
  obtain ⟨name', given', hl', -, rfl, hv'⟩ := h'
  rw [hl] at hl'
  obtain ⟨rfl, rfl⟩ := Content.binding.inj hl'
  rw [hv] at hv'
  exact ⟨rfl, Except.ok.inj hv'⟩

theorem isEmpty_join {name : String} (h : name.isEmpty = false) :
    (Path.join scope name).isEmpty = false := by
  unfold Path.join
  split_ifs
  · exact h
  · simp [String.isEmpty_eq_false_iff] at h ⊢

theorem Binds.isEmpty_path {l : Label} {path : String} {v : Value}
    (h : Binds scope lookup l path v) : path.isEmpty = false := by
  obtain ⟨name, given, -, hn, rfl, -⟩ := h
  exact isEmpty_join hn

theorem writable_of_settle {path : String} {given v : Value} (h : settle lookup path given = .ok v)
    (hw : given.Writable) : v.Writable := by
  unfold settle at h
  split at h
  · obtain ⟨q, -, -, hv⟩ := Answer.normal_of_coerce h
    exact hv.writable
  · exact Except.ok.inj h ▸ hw

theorem settle_ne_oversized (path : String) (v : Value) :
    settle lookup path v ≠ .error .oversized := by
  unfold settle Answer.coerce
  intro h
  split at h
  · split at h
    · split at h
      · obtain ⟨reason, -, heq⟩ := Fallible.mapError_error.mp h
        cases heq
      · cases h
    · cases h
  · cases h

theorem Binds.writable {l : Label} {path : String} {v : Value} (h : Binds scope lookup l path v)
    (hl : l.Writable) : v.Writable := by
  obtain ⟨name, given, hcontent, -, -, hv⟩ := h
  exact writable_of_settle hv (hl name given hcontent)

/-! ### One member -/

theorem bind_ok_iff {env env' : Env} {path : String} {v : Value} {directory : String} :
    env.bind path v directory = .ok env' ↔
      (env.get? path = none ∧ env' = env ++ [(path, ⟨path, v, directory⟩)]) ∨
      (∃ b, env.get? path = some b ∧ b.value.equal v = true ∧ env' = env) := by
  unfold bind
  cases hb : Mapping.get? env path with
  | none =>
    simp only [Except.ok.injEq, true_and, reduceCtorEq, false_and, exists_false, or_false]
    exact eq_comm
  | some b =>
    by_cases hv : b.value.equal v = true
    · simp only [hv, if_true, Except.ok.injEq, reduceCtorEq, false_and, false_or,
        Option.some.injEq, exists_eq_left', true_and]
      exact eq_comm
    · simp [hv]

theorem mergeMembers_cons_ok {env out : Env} {supplied : Mapping Value} {l : Label}
    {ls : List Label} : mergeMembers scope lookup env supplied (l :: ls) = .ok out ↔
      ∃ path v env', Binds scope lookup l path v ∧ agree supplied path v = .ok () ∧
        env.bind path v l.directory = .ok env' ∧
        mergeMembers scope lookup env' (supplied.put path v) ls = .ok out := by
  rw [mergeMembers]
  split
  next name given hl =>
    constructor
    · intro h
      split_ifs at h with hn
      obtain ⟨v, hv, h⟩ := Fallible.bind_ok.mp h
      obtain ⟨⟨⟩, ha, h⟩ := Fallible.bind_ok.mp h
      obtain ⟨env', hb, h⟩ := Fallible.bind_ok.mp h
      exact ⟨_, v, env', ⟨name, given, hl, by simpa using hn, rfl, hv⟩, ha, hb, h⟩
    · rintro ⟨path, v, env', ⟨name', given', hl', hn, rfl, hv⟩, ha, hb, h⟩
      obtain ⟨rfl, rfl⟩ := Content.binding.inj (hl.symm.trans hl')
      rw [if_neg (by simp [hn])]
      exact Fallible.bind_ok.mpr ⟨v, hv, Fallible.bind_ok.mpr ⟨(), ha,
        Fallible.bind_ok.mpr ⟨env', hb, h⟩⟩⟩
  next hl =>
    refine iff_of_false (by simp) ?_
    rintro ⟨path, v, env', ⟨name', given', hl', -⟩, -⟩
    exact hl _ _ hl'

/-! ### All members -/

/-- What holds of an environment, and goes on holding when a new path of the batch is bound, holds
of the outcome. -/
theorem mergeMembers_invariant {P : Env → Prop} : ∀ {ls : List Label} {env out : Env}
    {supplied : Mapping Value},
    (∀ env l path v, l ∈ ls → P env → Binds scope lookup l path v → env.get? path = none →
      P (env ++ [(path, ⟨path, v, l.directory⟩)])) →
    mergeMembers scope lookup env supplied ls = .ok out → P env → P out
  | [], env, out, supplied, _, h, henv => by
    rw [mergeMembers, Except.ok.injEq] at h
    exact h ▸ henv
  | l :: ls, env, out, supplied, hstep, h, henv => by
    obtain ⟨path, v, env', hl, -, hb, h⟩ := mergeMembers_cons_ok.mp h
    refine mergeMembers_invariant (fun env l path v hl => hstep env l path v (by simp [hl])) h ?_
    rcases bind_ok_iff.mp hb with ⟨hn, rfl⟩ | ⟨b, -, -, rfl⟩
    · exact hstep env l path v (by simp) henv hl hn
    · exact henv

theorem prefix_of_mergeMembers {ls : List Label} {env out : Env} {supplied : Mapping Value}
    (h : mergeMembers scope lookup env supplied ls = .ok out) : env <+: out :=
  mergeMembers_invariant (P := fun e => env <+: e)
    (fun _ _ _ _ _ he _ _ => he.trans (List.prefix_append _ _)) h (List.prefix_refl _)

theorem bound_of_mergeMembers : ∀ {ls : List Label} {env out : Env} {supplied : Mapping Value},
    mergeMembers scope lookup env supplied ls = .ok out →
    ∀ l ∈ ls, ∃ path v b, Binds scope lookup l path v ∧ out.get? path = some b ∧
      Value.same b.value v = true
  | l :: ls, env, out, supplied, h, m, hm => by
    obtain ⟨path, v, env', hl, -, hb, hrest⟩ := mergeMembers_cons_ok.mp h
    rcases List.mem_cons.mp hm with rfl | hm
    · have hgrow := prefix_of_mergeMembers hrest
      rcases bind_ok_iff.mp hb with ⟨hn, rfl⟩ | ⟨b, hb, hv, rfl⟩
      · refine ⟨path, v, ⟨path, v, m.directory⟩, hl, Mapping.get?_of_prefix hgrow ?_,
          Value.same_refl v⟩
        rw [Mapping.get?_append, hn]
        simp [Mapping.get?]
      · exact ⟨path, v, b, hl, Mapping.get?_of_prefix hgrow hb, Value.same_of_equal hv⟩
    · exact bound_of_mergeMembers hrest m hm

theorem source_of_mergeMembers {ls : List Label} {env out : Env} {supplied : Mapping Value}
    (h : mergeMembers scope lookup env supplied ls = .ok out) {path : String} {b : Binding}
    (hb : out.get? path = some b) :
    env.get? path = some b ∨ ∃ l ∈ ls, Binds scope lookup l path b.value := by
  refine mergeMembers_invariant (P := fun e => ∀ b, e.get? path = some b →
    env.get? path = some b ∨ ∃ l ∈ ls, Binds scope lookup l path b.value)
    (fun e l p v hl he hlb hn b hb => ?_) h (fun b hb => .inl hb) b hb
  rw [Mapping.get?_append] at hb
  rcases Option.or_eq_some_iff.mp hb with hb | ⟨-, hb⟩
  · exact he b hb
  · obtain ⟨rfl, rfl⟩ : path = p ∧ b = ⟨p, v, l.directory⟩ := by
      simpa using Mapping.mem_of_get? hb
    exact .inr ⟨l, hl, hlb⟩

/-- Members whose values are bound already change nothing. -/
theorem mergeMembers_bound {env : Env} : ∀ {ls : List Label} {supplied : Mapping Value},
    (∀ l ∈ ls, ∃ path v b, Binds scope lookup l path v ∧ env.get? path = some b ∧
      b.value.equal v = true) →
    (∀ path v, supplied.get? path = some v → ∃ b, env.get? path = some b ∧
      b.value.equal v = true) →
    mergeMembers scope lookup env supplied ls = .ok env
  | [], _, _, _ => rfl
  | l :: ls, supplied, hls, hs => by
    obtain ⟨path, v, b, hl, hb, hv⟩ := hls l (by simp)
    refine mergeMembers_cons_ok.mpr ⟨path, v, env, hl, ?_, bind_ok_iff.mpr (.inr ⟨b, hb, hv, rfl⟩),
      mergeMembers_bound (fun m hm => hls m (by simp [hm])) fun p w hw => ?_⟩
    · unfold agree
      cases hu : Mapping.get? supplied path with
      | none => rfl
      | some u =>
        obtain ⟨b', hb', hu'⟩ := hs path u hu
        obtain rfl : b = b' := Option.some.inj (hb.symm.trans hb')
        have huv : u.equal v = true := by
          rw [Value.equal_left (Value.same_symm (Value.same_of_equal hu'))]
          exact hv
        simp [huv]
    · by_cases hp : p = path
      · subst hp
        rw [Mapping.get?_put_self, Option.some.injEq] at hw
        exact ⟨b, hb, hw ▸ hv⟩
      · rw [Mapping.get?_put_of_ne supplied v hp] at hw
        exact hs p w hw

/-- Where nothing changes, the values of all members were bound already. -/
theorem bound_of_mergeMembers_self {env : Env} : ∀ {ls : List Label} {supplied : Mapping Value},
    mergeMembers scope lookup env supplied ls = .ok env →
    ∀ l ∈ ls, ∃ path v b, Binds scope lookup l path v ∧ env.get? path = some b ∧
      b.value.equal v = true
  | l :: ls, supplied, h, m, hm => by
    obtain ⟨path, v, env', hl, -, hb, hrest⟩ := mergeMembers_cons_ok.mp h
    rcases bind_ok_iff.mp hb with ⟨-, rfl⟩ | ⟨b, hbound, hv, rfl⟩
    · have hlonger := (prefix_of_mergeMembers hrest).length_le
      rw [List.length_append, List.length_singleton] at hlonger
      exact absurd hlonger (Nat.not_succ_le_self _)
    · rcases List.mem_cons.mp hm with rfl | hm
      · exact ⟨path, v, b, hl, hbound, hv⟩
      · exact bound_of_mergeMembers_self hrest m hm

/-- Named values as the entries that they get in a directory. -/
def ofPairs (pairs : Mapping Value) (directory : String) : Env :=
  pairs.map fun p => (p.1, ⟨p.1, p.2, directory⟩)

theorem values_ofPairs (pairs : Mapping Value) (directory : String) :
    (ofPairs pairs directory).values = pairs := by
  rw [values, ofPairs, List.map_map]
  exact List.map_id pairs

/-- Values under new names, already settled, are put at the end as they are. -/
theorem mergeMembers_ofPairs {directory : String} : ∀ {pairs : Mapping Value} {env : Env}
    {supplied : Mapping Value}, (Mapping.names pairs).Nodup →
    (∀ p ∈ pairs, p.1.isEmpty = false ∧ settle lookup p.1 p.2 = .ok p.2 ∧
      env.get? p.1 = none ∧ supplied.get? p.1 = none) →
    mergeMembers "" lookup env supplied (Batch.ofPairs pairs directory).members =
      .ok (env ++ ofPairs pairs directory)
  | [], env, _, _, _ => congrArg Except.ok (List.append_nil env).symm
  | p :: pairs, env, supplied, hnd, h => by
    obtain ⟨hp, hsettle, hu, hs⟩ := h p (by simp)
    rw [Mapping.names, List.map_cons, List.nodup_cons] at hnd
    refine mergeMembers_cons_ok.mpr ⟨p.1, p.2, env ++ [(p.1, ⟨p.1, p.2, directory⟩)],
      ⟨p.1, p.2, rfl, hp, rfl, hsettle⟩, by rw [agree, hs], bind_ok_iff.mpr (.inl ⟨hu, rfl⟩), ?_⟩
    have hrest : env ++ ofPairs (p :: pairs) directory =
        env ++ [(p.1, ⟨p.1, p.2, directory⟩)] ++ ofPairs pairs directory := List.append_cons ..
    rw [hrest]
    refine mergeMembers_ofPairs hnd.2 fun q hq => ?_
    have hne : q.1 ≠ p.1 := fun heq => hnd.1 (heq ▸ List.mem_map_of_mem hq)
    obtain ⟨hq', hsettle', hu', hs'⟩ := h q (by simp [hq])
    refine ⟨hq', hsettle', ?_, by rwa [Mapping.get?_put_of_ne supplied p.2 hne]⟩
    rw [Mapping.get?_append, hu']
    simp [Mapping.get?, hne]

/-- Where all members are bindings and all questions concrete, a merge fails with a fault of
binding. -/
theorem fault_of_mergeMembers
    (hlookup : ∀ path n, lookup path = some n →
      ∃ q, Node.question? n = some q ∧ q.form.isConcrete = true) :
    ∀ {ls : List Label} {env : Env} {supplied : Mapping Value} {f : Fault},
    (∀ l ∈ ls, ∃ name v, l.content = .binding name v) →
    mergeMembers scope lookup env supplied ls = .error f → f.OfBinding
  | l :: ls, env, supplied, f, hls, h => by
    obtain ⟨name, given, hl⟩ := hls l (by simp)
    simp only [mergeMembers, hl] at h
    split_ifs at h
    · exact Except.error.inj h ▸ .data (by simp [DataFault.OfBinding, DataFault.family])
    rcases Fallible.bind_error.mp h with h | ⟨v, hv, h⟩
    · unfold settle at h
      split at h
      next n hn =>
        obtain ⟨q, hq, hc⟩ := hlookup _ n hn
        obtain ⟨m, rfl⟩ := Answer.mismatch_of_coerce hq hc h
        exact .data (by simp [DataFault.OfBinding, DataFault.family])
      next => cases h
    rcases Fallible.bind_error.mp h with h | ⟨⟨⟩, ha, h⟩
    · unfold agree at h
      split at h
      · split_ifs at h
        exact Except.error.inj h ▸ Fault.ofBinding_differing
          (fun _ _ => by simp [DataFault.OfBinding, DataFault.family]) _ _
      · cases h
    rcases Fallible.bind_error.mp h with h | ⟨env', hb, h⟩
    · unfold bind at h
      split at h
      · cases h
      · split_ifs at h
        exact Except.error.inj h ▸ Fault.ofBinding_differing
          (fun _ _ => by simp [DataFault.OfBinding, DataFault.family]) _ _
    · exact fault_of_mergeMembers hlookup (fun m hm => hls m (by simp [hm])) h

theorem agree_ne_oversized {supplied : Mapping Value} {path : String} {v : Value}
    (hs : ∀ u, supplied.get? path = some u → u.Writable) (hv : v.Writable) :
    agree supplied path v ≠ .error .oversized := by
  unfold agree
  intro h
  split at h
  next u hu =>
    split_ifs at h
    exact Fault.differing_ne_oversized (hs u hu) hv (Except.error.inj h)
  next => cases h

theorem Writable.bind_ne_oversized {env : Env} (henv : env.Writable) {v : Value} (hv : v.Writable)
    (path directory : String) : env.bind path v directory ≠ .error .oversized := by
  unfold bind
  intro h
  split at h
  next => cases h
  next b hb =>
    split_ifs at h
    exact Fault.differing_ne_oversized (henv _ b hb) hv (Except.error.inj h)

theorem Writable.bind {env env' : Env} (henv : env.Writable) {v : Value} (hv : v.Writable)
    {path directory : String} (h : env.bind path v directory = .ok env') : env'.Writable := by
  rcases bind_ok_iff.mp h with ⟨hnone, rfl⟩ | ⟨-, -, -, rfl⟩
  · intro p b hb
    rw [Mapping.get?_append] at hb
    rcases Option.or_eq_some_iff.mp hb with hb | ⟨-, hb⟩
    · exact henv p b hb
    · obtain ⟨-, rfl⟩ : p = path ∧ b = ⟨path, v, directory⟩ := by
        simpa using Mapping.mem_of_get? hb
      exact hv
  · exact henv

/-- Where all values can be written, so can those that a fault reports. -/
theorem mergeMembers_ne_oversized : ∀ {ls : List Label} {env : Env} {supplied : Mapping Value},
    env.Writable → (∀ path u, supplied.get? path = some u → u.Writable) →
    (∀ l ∈ ls, l.Writable) → mergeMembers scope lookup env supplied ls ≠ .error .oversized
  | [], _, _, _, _, _ => by simp [mergeMembers]
  | l :: ls, env, supplied, henv, hs, hls => by
    intro h
    rw [mergeMembers] at h
    split at h
    case h_2 => cases h
    next name given hl =>
    split_ifs at h with hn
    · cases h
    rcases Fallible.bind_error.mp h with h | ⟨v, hv, h⟩
    · exact settle_ne_oversized _ _ h
    have hw : v.Writable := writable_of_settle hv (hls l (by simp) name given hl)
    rcases Fallible.bind_error.mp h with h | ⟨⟨⟩, -, h⟩
    · exact agree_ne_oversized (hs _) hw h
    rcases Fallible.bind_error.mp h with h | ⟨env', hb, h⟩
    · exact henv.bind_ne_oversized hw _ _ h
    refine mergeMembers_ne_oversized (henv.bind hw hb) (fun p u hu => ?_)
      (fun m hm => hls m (by simp [hm])) h
    by_cases hp : p = Path.join scope name
    · subst hp
      rw [Mapping.get?_put_self, Option.some.injEq] at hu
      exact hu ▸ hw
    · rw [Mapping.get?_put_of_ne supplied v hp] at hu
      exact hs p u hu

/-! ### Merges -/

variable {limit : Int}

theorem overflow_of_nonneg (h : 0 ≤ limit) (size : Nat) :
    overflow size limit = .data (.overflow size limit) := if_pos (.inl h)

theorem ofBinding_overflow (size : Nat) (limit : Int) : (overflow size limit).OfBinding := by
  unfold overflow
  split_ifs
  · exact .data (by simp [DataFault.OfBinding, DataFault.family])
  · exact .oversized

theorem merge_ok_iff {env out : Env} {batch : Batch} :
    env.merge batch scope lookup limit = .ok out ↔
      mergeMembers scope lookup env [] batch.members = .ok out ∧ (out.length : Int) ≤ limit := by
  rw [merge, Fallible.bind_ok]
  constructor
  · rintro ⟨merged, hm, h⟩
    split_ifs at h with hl
    obtain rfl := Except.ok.inj h
    exact ⟨hm, Int.not_lt.mp hl⟩
  · rintro ⟨hm, hl⟩
    exact ⟨out, hm, if_neg (Int.not_lt.mpr hl)⟩

theorem prefix_of_merge {env out : Env} {batch : Batch}
    (h : env.merge batch scope lookup limit = .ok out) : env <+: out :=
  prefix_of_mergeMembers (merge_ok_iff.mp h).1

theorem bound_of_merge {env out : Env} {batch : Batch}
    (h : env.merge batch scope lookup limit = .ok out) :
    ∀ l ∈ batch.members, ∃ path v b, Binds scope lookup l path v ∧ out.get? path = some b ∧
      Value.same b.value v = true :=
  bound_of_mergeMembers (merge_ok_iff.mp h).1

theorem source_of_merge {env out : Env} {batch : Batch}
    (h : env.merge batch scope lookup limit = .ok out) {path : String} {b : Binding}
    (hb : out.get? path = some b) :
    env.get? path = some b ∨ ∃ l ∈ batch.members, Binds scope lookup l path b.value :=
  source_of_mergeMembers (merge_ok_iff.mp h).1 hb

theorem merge_bound {env : Env} {batch : Batch} (hl : (env.length : Int) ≤ limit)
    (h : ∀ l ∈ batch.members, ∃ path v b, Binds scope lookup l path v ∧ env.get? path = some b ∧
      b.value.equal v = true) : env.merge batch scope lookup limit = .ok env :=
  merge_ok_iff.mpr ⟨mergeMembers_bound h (by simp [Mapping.get?]), hl⟩

/-- One value under a name, at a path where nothing is bound, is settled and put at the end if there
is room for it. -/
theorem merge_single {env : Env} {name : String} (hname : name.isEmpty = false)
    (hu : env.get? (Path.join scope name) = none) (v : Value) (directory : String) :
    env.merge (.ofPairs [(name, v)] directory) scope lookup limit =
      settle lookup (Path.join scope name) v >>= fun w =>
        if limit < (env.length + 1 : Nat) then
          .error (overflow (env.length + 1) limit)
        else .ok (env ++ [(Path.join scope name, ⟨Path.join scope name, w, directory⟩)]) := by
  have hmembers : mergeMembers scope lookup env []
      (Batch.ofPairs [(name, v)] directory).members =
        (settle lookup (Path.join scope name) v).map fun w =>
          env ++ [(Path.join scope name, ⟨Path.join scope name, w, directory⟩)] := by
    simp only [Batch.ofPairs, List.map_cons, List.map_nil, mergeMembers, hname]
    cases settle lookup (Path.join scope name) v with
    | error f => rfl
    | ok w =>
      have hbind : env.bind (Path.join scope name) w directory =
          .ok (env ++ [(Path.join scope name, ⟨Path.join scope name, w, directory⟩)]) :=
        bind_ok_iff.mpr (.inl ⟨hu, rfl⟩)
      show (env.bind (Path.join scope name) w directory >>= fun env => .ok env) = _
      rw [hbind]
      rfl
  rw [merge, hmembers]
  cases settle lookup (Path.join scope name) v with
  | error f => rfl
  | ok w =>
    show (if limit < ((env ++ [(_, _)]).length : Nat) then _ else _) = _
    rw [List.length_append, List.length_singleton]
    rfl
/-- **A merge changes nothing if and only if all its values are bound already.** -/
theorem merge_self_iff {env : Env} {batch : Batch} :
    env.merge batch scope lookup limit = .ok env ↔ (env.length : Int) ≤ limit ∧
      ∀ l ∈ batch.members, ∃ path v b, Binds scope lookup l path v ∧ env.get? path = some b ∧
        b.value.equal v = true := by
  refine ⟨fun h => ?_, fun h => merge_bound h.1 h.2⟩
  obtain ⟨hm, hl⟩ := merge_ok_iff.mp h
  exact ⟨hl, bound_of_mergeMembers_self hm⟩

/-- Settled values under different names that are not empty make an environment. -/
theorem merge_ofPairs {pairs : Mapping Value} (directory : String)
    (hnd : (Mapping.names pairs).Nodup) (hl : (pairs.length : Int) ≤ limit)
    (h : ∀ p ∈ pairs, p.1.isEmpty = false ∧ settle lookup p.1 p.2 = .ok p.2) :
    merge [] (.ofPairs pairs directory) "" lookup limit = .ok (ofPairs pairs directory) := by
  have hmembers : mergeMembers "" lookup [] [] (Batch.ofPairs pairs directory).members =
      .ok (ofPairs pairs directory) :=
    mergeMembers_ofPairs hnd fun p hp => ⟨(h p hp).1, (h p hp).2, rfl, rfl⟩
  exact merge_ok_iff.mpr ⟨hmembers, by rwa [ofPairs, List.length_map]⟩

theorem fault_of_merge
    (hlookup : ∀ path n, lookup path = some n →
      ∃ q, Node.question? n = some q ∧ q.form.isConcrete = true) {env : Env} {batch : Batch}
    (hb : ∀ l ∈ batch.members, ∃ name v, l.content = .binding name v) {f : Fault}
    (h : env.merge batch scope lookup limit = .error f) : f.OfBinding := by
  rw [merge] at h
  rcases Fallible.bind_error.mp h with h | ⟨merged, -, h⟩
  · exact fault_of_mergeMembers hlookup hb h
  · split_ifs at h
    exact Except.error.inj h ▸ ofBinding_overflow _ _

/-- **Where all values can be written**, a merge does not fail for one that cannot. -/
theorem merge_ne_oversized {env : Env} {batch : Batch} (henv : env.Writable)
    (hbatch : batch.Writable) (hl : 0 ≤ limit) :
    env.merge batch scope lookup limit ≠ .error .oversized := by
  intro h
  rw [merge] at h
  rcases Fallible.bind_error.mp h with h | ⟨merged, -, h⟩
  · exact mergeMembers_ne_oversized henv (fun path u hu => by cases hu) hbatch h
  · rw [overflow_of_nonneg hl] at h
    split_ifs at h
    cases h

theorem Writable.merge {env out : Env} {batch : Batch} (henv : env.Writable)
    (hbatch : batch.Writable) (h : env.merge batch scope lookup limit = .ok out) :
    out.Writable := fun path b hb => by
  rcases source_of_merge h hb with hb | ⟨l, hl, hlb⟩
  · exact henv path b hb
  · exact hlb.writable (hbatch l hl)

/-! ### Sound environments -/

/-- The entries have different paths, which are not empty and name them; there are no more than the
limit allows; and what is bound for a question is a normal answer. -/
structure Sound (lookup : String → Option Node) (limit : Int) (env : Env) : Prop where
  named : ∀ p ∈ env, p.2.name = p.1 ∧ p.1.isEmpty = false
  nodup : (Mapping.names env).Nodup
  bounded : (env.length : Int) ≤ limit
  normal : ∀ path n b, lookup path = some n → env.get? path = some b →
    Answer.IsNormalAt n b.value

theorem sound_nil (h : 0 ≤ limit) : Sound lookup limit [] where
  named := by simp
  nodup := List.nodup_nil
  bounded := by simpa using h
  normal path n b _ hb := by cases hb

theorem Binds.normal {l : Label} {path : String} {v : Value} (h : Binds scope lookup l path v)
    {n : Node} (hn : lookup path = some n) : Answer.IsNormalAt n v := by
  obtain ⟨name, given, -, -, -, hv⟩ := h
  rw [settle, hn] at hv
  exact Answer.normal_of_coerce hv

theorem Sound.append {env : Env} (hs : Sound lookup limit env) {path : String} {v : Value}
    (directory : String) (hu : env.get? path = none) (hp : path.isEmpty = false)
    (hv : ∀ n, lookup path = some n → Answer.IsNormalAt n v)
    (hl : ((env ++ [(path, (⟨path, v, directory⟩ : Binding))]).length : Int) ≤ limit) :
    Sound lookup limit (env ++ [(path, ⟨path, v, directory⟩)]) where
  named p hp' := by
    rcases List.mem_append.mp hp' with hp' | hp'
    · exact hs.named p hp'
    · obtain rfl := List.mem_singleton.mp hp'
      exact ⟨rfl, hp⟩
  nodup := Mapping.nodup_names_append_single hs.nodup _ hu
  bounded := hl
  normal path' n b hn hb := by
    rw [Mapping.get?_append] at hb
    rcases Option.or_eq_some_iff.mp hb with hb | ⟨-, hb⟩
    · exact hs.normal path' n b hn hb
    · obtain ⟨rfl, rfl⟩ : path' = path ∧ b = ⟨path, v, directory⟩ := by
        simpa using Mapping.mem_of_get? hb
      exact hv n hn

theorem Sound.merge {env out : Env} {batch : Batch} (hs : Sound lookup limit env)
    (h : env.merge batch scope lookup limit = .ok out) : Sound lookup limit out where
  named := by
    refine mergeMembers_invariant (P := fun e => ∀ p ∈ e, p.2.name = p.1 ∧ p.1.isEmpty = false)
      (fun e l path v _ he hl _ p hp => ?_) (merge_ok_iff.mp h).1 hs.named
    rcases List.mem_append.mp hp with hp | hp
    · exact he p hp
    · obtain rfl := List.mem_singleton.mp hp
      exact ⟨rfl, hl.isEmpty_path⟩
  nodup := mergeMembers_invariant (P := fun e => (Mapping.names e).Nodup)
    (fun _ _ _ _ _ he _ hn => Mapping.nodup_names_append_single he _ hn) (merge_ok_iff.mp h).1
    hs.nodup
  bounded := (merge_ok_iff.mp h).2
  normal path n b hn hb := by
    rcases source_of_merge h hb with hb | ⟨l, -, hl⟩
    · exact hs.normal path n b hn hb
    · exact hl.normal hn

end Env

end Scaffold
