import Mathlib.Data.List.Pairwise
import Scaffold.Proofs.Env
import Scaffold.Proofs.Mapping.Extend

/-! # What a merge comes to

The members of a batch supply entries, one each (`Supplies`). A merge succeeds when all of them do,
no path is given two different values (`Compatible`), and there are not too many paths; the
environment is then extended by the entries. Two different values for one path end the merge when
all members up to the second value supply an entry. They are reported as such if they can be written
(`merge_characterized`), and otherwise they are not (`long_not_duplicate`).

The merge compares a value both with what the batch supplied before and with what is bound. What was
supplied is bound (`Tracks`), so the second comparison alone decides (`mergeMembers_cons_cases`). -/

namespace Scaffold

/-- The fault reports two different values for one path. -/
def Fault.IsDuplicate : Fault → Prop
  | .data d => d.family = "DuplicateBindingError"
  | _ => False

/-- The fault is that two values differ: they are reported, or one of them cannot be written. -/
def Fault.OfDifference (f : Fault) : Prop := f.IsDuplicate ∨ f = .oversized

theorem Fault.ofDifference_differing {report : String → String → DataFault}
    (h : ∀ s t, (report s t).family = "DuplicateBindingError") (u v : Value) :
    (differing report u v).OfDifference := by
  rcases differing_cases report u v with ⟨s, t, -, -, heq⟩ | ⟨-, heq⟩ <;> rw [heq]
  · exact .inl (h s t)
  · exact .inr rfl

namespace Env

variable {scope : String} {lookup : String → Option Node} {limit : Int}

/-- The entry of a value that is bound at a path. -/
def entry (path : String) (v : Value) (directory : String) : String × Binding :=
  (path, ⟨path, v, directory⟩)

/-- The members of a batch supply entries, one each and in order: each member binds a value, and
its entry keeps the value with the directory of the member. -/
def Supplies (scope : String) (lookup : String → Option Node) (ls : List Label) (entries : Env) :
    Prop :=
  List.Forall₂ (fun l p => ∃ path v, Binds scope lookup l path v ∧ p = entry path v l.directory)
    ls entries

theorem supplies_nil_iff {entries : Env} : Supplies scope lookup [] entries ↔ entries = [] :=
  List.forall₂_nil_left_iff

theorem supplies_cons_iff {l : Label} {ls : List Label} {entries : Env} :
    Supplies scope lookup (l :: ls) entries ↔ ∃ path v rest, Binds scope lookup l path v ∧
      Supplies scope lookup ls rest ∧ entries = entry path v l.directory :: rest := by
  constructor
  · intro h
    obtain ⟨p, rest, ⟨path, v, hl, rfl⟩, hrest, rfl⟩ := List.forall₂_cons_left_iff.mp h
    exact ⟨path, v, rest, hl, hrest, rfl⟩
  · rintro ⟨path, v, rest, hl, hrest, rfl⟩
    exact .cons ⟨path, v, hl, rfl⟩ hrest

theorem supplies_append_iff {ls ls' : List Label} {entries : Env} :
    Supplies scope lookup (ls ++ ls') entries ↔ ∃ e e', Supplies scope lookup ls e ∧
      Supplies scope lookup ls' e' ∧ entries = e ++ e' := by
  constructor
  · intro h
    have hflip := List.Forall₂.flip (R := flip _) h
    exact ⟨_, _, (List.forall₂_take_append entries ls ls' hflip).flip,
      (List.forall₂_drop_append entries ls ls' hflip).flip, (List.take_append_drop _ _).symm⟩
  · rintro ⟨e, e', h, h', rfl⟩
    exact List.rel_append h h'

theorem Supplies.unique {ls : List Label} {e e' : Env} (h : Supplies scope lookup ls e)
    (h' : Supplies scope lookup ls e') : e = e' := by
  induction ls generalizing e e' with
  | nil => rw [supplies_nil_iff.mp h, supplies_nil_iff.mp h']
  | cons l ls ih =>
    obtain ⟨path, v, rest, hl, hrest, rfl⟩ := supplies_cons_iff.mp h
    obtain ⟨path', v', rest', hl', hrest', rfl⟩ := supplies_cons_iff.mp h'
    obtain ⟨rfl, rfl⟩ := hl.unique hl'
    rw [ih hrest hrest']

theorem Supplies.exists_entry {ls : List Label} {entries : Env}
    (h : Supplies scope lookup ls entries) {l : Label} (hl : l ∈ ls) :
    ∃ path v, Binds scope lookup l path v ∧ entry path v l.directory ∈ entries := by
  induction ls generalizing entries with
  | nil => cases hl
  | cons l' ls ih =>
    obtain ⟨path, v, rest, hl', hrest, rfl⟩ := supplies_cons_iff.mp h
    rcases List.mem_cons.mp hl with rfl | hl
    · exact ⟨path, v, hl', List.mem_cons_self⟩
    · obtain ⟨path', v', hbinds, hmem⟩ := ih hrest hl
      exact ⟨path', v', hbinds, List.mem_cons_of_mem _ hmem⟩

/-! ### Compatible entries -/

/-- **No path is given two different values**: what is supplied equals what is bound for its path,
and any two values supplied for one path are equal. -/
structure Compatible (env entries : Env) : Prop where
  bound : ∀ p ∈ entries, ∀ b, env.get? p.1 = some b → b.value.equal p.2.value = true
  supplied : entries.Pairwise fun p q => p.1 = q.1 → p.2.value.equal q.2.value = true

instance (env entries : Env) : Decidable (Compatible env entries) :=
  decidable_of_iff ((∀ p ∈ entries, ∀ b ∈ env.get? p.1, b.value.equal p.2.value = true) ∧
      entries.Pairwise fun p q => p.1 = q.1 → p.2.value.equal q.2.value = true)
    ⟨fun h => ⟨h.1, h.2⟩, fun h => ⟨h.bound, h.supplied⟩⟩

theorem compatible_nil (env : Env) : Compatible env [] := ⟨by simp, .nil⟩

theorem compatible_single_iff {env : Env} {p : String × Binding} : Compatible env [p] ↔
    ∀ b, env.get? p.1 = some b → b.value.equal p.2.value = true := by
  refine ⟨fun h => h.bound p (by simp), fun h => ⟨fun q hq => ?_, List.pairwise_singleton _ _⟩⟩
  rw [List.mem_singleton.mp hq]
  exact h

section

variable {env entries : Env} (h : Compatible env entries)
include h

theorem Compatible.eq_or_equal {p q : String × Binding} (hp : p ∈ entries) (hq : q ∈ entries)
    (hpq : p.1 = q.1) : p = q ∨ p.2.value.equal q.2.value = true := by
  have hsymm : Std.Symm fun p q : String × Binding =>
      p.1 = q.1 → p.2.value.equal q.2.value = true :=
    ⟨fun _ _ h hpath => Value.equal_symm (h hpath.symm)⟩
  by_cases heq : p = q
  · exact .inl heq
  · exact .inr (h.supplied.forall hp hq heq hpq)

/-- What is found for a path after the extension is the same as whatever was supplied for it. -/
theorem Compatible.same_of_get? {p : String × Binding} (hp : p ∈ entries) {b : Binding}
    (hb : (Mapping.extend env entries).get? p.1 = some b) :
    Value.same b.value p.2.value = true := by
  rw [Mapping.get?_extend] at hb
  rcases Option.or_eq_some_iff.mp hb with hb | ⟨-, hb⟩
  · exact Value.same_of_equal (h.bound p hp b hb)
  · rcases h.eq_or_equal (Mapping.mem_of_get? hb) hp rfl with heq | hequal
    · rw [← heq]
      exact Value.same_refl _
    · exact Value.same_of_equal hequal

/-- Compatible entries in another order bind the same values. -/
theorem Compatible.eq_or_equal_of_get? {entries' : Env}
    (hmem : ∀ p ∈ entries', p ∈ entries) {path : String} {b b' : Binding}
    (hb : (Mapping.extend env entries).get? path = some b)
    (hb' : (Mapping.extend env entries').get? path = some b') :
    b = b' ∨ b.value.equal b'.value = true := by
  rw [Mapping.get?_extend] at hb hb'
  cases hbound : env.get? path with
  | some c =>
    rw [hbound] at hb hb'
    exact .inl (Option.some.inj (hb.symm.trans hb'))
  | none =>
    rw [hbound, Option.none_or] at hb hb'
    have hp := Mapping.mem_of_get? hb
    have hq := hmem _ (Mapping.mem_of_get? hb')
    exact (h.eq_or_equal hp hq rfl).imp_left fun heq => (Prod.mk.inj heq).2

end

theorem Compatible.comm {env a b : Env} (h : Compatible env (a ++ b)) : Compatible env (b ++ a) where
  bound p hp := h.bound p (by rw [List.mem_append, or_comm]; exact List.mem_append.mp hp)
  supplied := (List.pairwise_append_comm fun hr hpath => Value.equal_symm (hr hpath.symm)).mp
    h.supplied

/-- **Entries are compatible if and only if the first of them are, and the others are with what
these extend the environment to.** -/
theorem compatible_append_iff {env a b : Env} :
    Compatible env (a ++ b) ↔ Compatible env a ∧ Compatible (Mapping.extend env a) b := by
  constructor
  · intro h
    obtain ⟨ha, hb, hab⟩ := List.pairwise_append.mp h.supplied
    refine ⟨⟨fun p hp => h.bound p (List.mem_append_left _ hp), ha⟩, fun q hq c hc => ?_, hb⟩
    rw [Mapping.get?_extend] at hc
    rcases Option.or_eq_some_iff.mp hc with hc | ⟨-, hc⟩
    · exact h.bound q (List.mem_append_right _ hq) c hc
    · exact hab _ (Mapping.mem_of_get? hc) q hq rfl
  · rintro ⟨ha, hb⟩
    refine ⟨fun p hp c hc => ?_, List.pairwise_append.mpr
      ⟨ha.supplied, hb.supplied, fun p hp q hq hpq => ?_⟩⟩
    · rcases List.mem_append.mp hp with hp | hp
      · exact ha.bound p hp c hc
      · exact hb.bound p hp c (Mapping.get?_of_prefix (Mapping.prefix_extend env a) hc)
    · -- both values are compared with the one that is found for their path
      obtain ⟨c, hc⟩ := Mapping.exists_get?_extend env (List.mem_map_of_mem hp)
      rw [← Value.equal_left (ha.same_of_get? hp hc)]
      exact hb.bound q hq c (hpq ▸ hc)

theorem compatible_cons_iff {env es : Env} {p : String × Binding} : Compatible env (p :: es) ↔
    Compatible env [p] ∧ Compatible (Mapping.extend env [p]) es :=
  compatible_append_iff (a := [p])

/-! ### One member -/

/-- What a batch has supplied so far is bound. -/
def Tracks (env : Env) (supplied : Mapping Value) : Prop :=
  ∀ path u, supplied.get? path = some u → ∃ b, env.get? path = some b ∧ Value.same b.value u = true

theorem tracks_nil (env : Env) : Tracks env [] := by
  intro path u hu
  cases hu

section

variable {env : Env} {supplied : Mapping Value} (ht : Tracks env supplied)
include ht

theorem Tracks.put {path directory : String} {v : Value}
    (hc : Compatible env [entry path v directory]) :
    Tracks (Mapping.extend env [entry path v directory]) (supplied.put path v) := by
  intro name u hu
  by_cases hname : name = path
  · subst hname
    rw [Mapping.get?_put_self, Option.some.injEq] at hu
    subst hu
    obtain ⟨b, hb⟩ : ∃ b, (Mapping.extend env [entry name v directory]).get? name = some b :=
      Mapping.exists_get?_extend env (List.mem_singleton_self _)
    exact ⟨b, hb, hc.same_of_get? (List.mem_singleton_self _) hb⟩
  · rw [Mapping.get?_put_of_ne supplied v hname] at hu
    obtain ⟨b, hb, hbu⟩ := ht name u hu
    exact ⟨b, Mapping.get?_of_prefix (Mapping.prefix_extend env _) hb, hbu⟩

theorem Tracks.agree_cases (path : String) (v : Value) (directory : String) :
    agree supplied path v = .ok () ∨ (¬ Compatible env [entry path v directory] ∧
      ∃ f, agree supplied path v = .error f ∧ f.OfDifference) := by
  unfold agree
  cases hu : supplied.get? path with
  | none => exact .inl rfl
  | some u =>
    by_cases huv : u.equal v = true
    · exact .inl (if_pos huv)
    · obtain ⟨b, hb, hbu⟩ := ht path u hu
      refine .inr ⟨fun hc => huv ?_, _, if_neg huv, Fault.ofDifference_differing (fun _ _ => rfl) _ _⟩
      rw [← Value.equal_left hbu]
      exact compatible_single_iff.mp hc b hb

end

theorem bind_cases (env : Env) (path : String) (v : Value) (directory : String) :
    (Compatible env [entry path v directory] ∧
      env.bind path v directory = .ok (Mapping.extend env [entry path v directory])) ∨
    (¬ Compatible env [entry path v directory] ∧
      ∃ f, env.bind path v directory = .error f ∧ f.OfDifference) := by
  rw [compatible_single_iff, bind]
  cases hb : env.get? path with
  | none =>
    refine .inl ⟨by simp [entry, hb], ?_⟩
    rw [Mapping.extend_single (Mapping.get?_eq_none_iff.mp hb)]
    rfl
  | some b =>
    by_cases hv : b.value.equal v = true
    · refine .inl ⟨by simpa [entry, hb] using hv, ?_⟩
      rw [Mapping.extend_single_of_mem (Mapping.mem_names_of_get? hb)]
      exact if_pos hv
    · exact .inr ⟨by simpa [entry, hb] using hv, _, if_neg hv,
        Fault.ofDifference_differing (fun _ _ => rfl) _ _⟩

theorem not_ofDifference_of_settle {path : String} {v : Value} {f : Fault}
    (h : settle lookup path v = .error f) : ¬ f.OfDifference := by
  unfold settle at h
  split at h
  next n hn =>
    unfold Answer.coerce at h
    split at h
    next q hq =>
      by_cases hc : q.form.isConcrete = true
      · rw [if_pos hc] at h
        obtain ⟨reason, -, rfl⟩ := Fallible.mapError_error.mp h
        simp [Fault.OfDifference, Fault.IsDuplicate, DataFault.family]
      · rw [if_neg hc] at h
        exact Except.error.inj h ▸ by simp [Fault.OfDifference, Fault.IsDuplicate]
    next => exact Except.error.inj h ▸ by simp [Fault.OfDifference, Fault.IsDuplicate]
  next => cases h

theorem mergeMembers_cons_of_binds {env : Env} {supplied : Mapping Value} {l : Label}
    {path : String} {v : Value} (hl : Binds scope lookup l path v) (ls : List Label) :
    mergeMembers scope lookup env supplied (l :: ls) = (do
      agree supplied path v
      let env ← env.bind path v l.directory
      mergeMembers scope lookup env (supplied.put path v) ls) := by
  obtain ⟨name, given, hcontent, hn, rfl, hv⟩ := hl
  simp only [mergeMembers, hcontent, hn, hv]
  rfl

/-- A member that binds nothing ends the merge, for another reason than two different values. -/
theorem mergeMembers_cons_of_unfit {l : Label} (h : ∀ path v, ¬ Binds scope lookup l path v)
    (env : Env) (supplied : Mapping Value) (ls : List Label) :
    ∃ f, mergeMembers scope lookup env supplied (l :: ls) = .error f ∧ ¬ f.OfDifference := by
  rw [mergeMembers]
  split
  next name given hl =>
    by_cases hn : name.isEmpty = true
    · exact ⟨_, if_pos hn, by simp [Fault.OfDifference, Fault.IsDuplicate, DataFault.family]⟩
    · rw [if_neg hn]
      cases hv : settle lookup (Path.join scope name) given with
      | error f => exact ⟨f, Fallible.bind_error.mpr (.inl hv), not_ofDifference_of_settle hv⟩
      | ok v => exact absurd ⟨name, given, hl, by simpa using hn, rfl, hv⟩ (h _ v)
  next => exact ⟨_, rfl, by simp [Fault.OfDifference, Fault.IsDuplicate]⟩

/-- **What a merge does with the first member that is left.** The member extends the environment by
its entry, or its value differs from one that is bound, or it binds nothing. -/
theorem mergeMembers_cons_cases {env : Env} {supplied : Mapping Value} (ht : Tracks env supplied)
    (scope : String) (lookup : String → Option Node) (l : Label) (ls : List Label) :
    (∃ path v, Binds scope lookup l path v ∧ Compatible env [entry path v l.directory] ∧
      Tracks (Mapping.extend env [entry path v l.directory]) (supplied.put path v) ∧
      mergeMembers scope lookup env supplied (l :: ls) =
        mergeMembers scope lookup (Mapping.extend env [entry path v l.directory])
          (supplied.put path v) ls) ∨
    (∃ path v, Binds scope lookup l path v ∧ ¬ Compatible env [entry path v l.directory] ∧
      ∃ f, mergeMembers scope lookup env supplied (l :: ls) = .error f ∧ f.OfDifference) ∨
    ((∀ path v, ¬ Binds scope lookup l path v) ∧
      ∃ f, mergeMembers scope lookup env supplied (l :: ls) = .error f ∧ ¬ f.OfDifference) := by
  by_cases hbinds : ∃ path v, Binds scope lookup l path v
  · obtain ⟨path, v, hl⟩ := hbinds
    have hstep : mergeMembers scope lookup env supplied (l :: ls) = _ :=
      mergeMembers_cons_of_binds hl ls
    rcases ht.agree_cases path v l.directory with hagree | ⟨hc, f, hagree, hf⟩
    · rw [hagree] at hstep
      rcases bind_cases env path v l.directory with ⟨hc, hbind⟩ | ⟨hc, f, hbind, hf⟩
      · rw [hbind] at hstep
        exact .inl ⟨path, v, hl, hc, ht.put hc, hstep⟩
      · rw [hbind] at hstep
        exact .inr (.inl ⟨path, v, hl, hc, f, hstep, hf⟩)
    · rw [hagree] at hstep
      exact .inr (.inl ⟨path, v, hl, hc, f, hstep, hf⟩)
  · simp only [not_exists] at hbinds
    exact .inr (.inr ⟨hbinds, mergeMembers_cons_of_unfit hbinds env supplied ls⟩)

/-! ### All members -/

theorem mergeMembers_ok_iff {ls : List Label} {env out : Env} {supplied : Mapping Value}
    (ht : Tracks env supplied) : mergeMembers scope lookup env supplied ls = .ok out ↔
      ∃ entries, Supplies scope lookup ls entries ∧ Compatible env entries ∧
        out = Mapping.extend env entries := by
  induction ls generalizing env supplied with
  | nil =>
    simp only [mergeMembers, Except.ok.injEq, supplies_nil_iff, exists_eq_left, compatible_nil,
      Mapping.extend_nil, true_and]
    exact eq_comm
  | cons l ls ih =>
    rcases mergeMembers_cons_cases ht scope lookup l ls with
      ⟨path, v, hl, hc, ht', hstep⟩ | ⟨path, v, hl, hc, f, hstep, -⟩ | ⟨hl, f, hstep, -⟩
    · rw [hstep, ih ht']
      constructor
      · rintro ⟨rest, hrest, hcompatible, rfl⟩
        exact ⟨_, supplies_cons_iff.mpr ⟨path, v, rest, hl, hrest, rfl⟩,
          compatible_cons_iff.mpr ⟨hc, hcompatible⟩, (Mapping.extend_append env [_] rest).symm⟩
      · rintro ⟨entries, hs, hcompatible, rfl⟩
        obtain ⟨path', v', rest, hl', hrest, rfl⟩ := supplies_cons_iff.mp hs
        obtain ⟨rfl, rfl⟩ := hl.unique hl'
        exact ⟨rest, hrest, (compatible_cons_iff.mp hcompatible).2,
          Mapping.extend_append env [_] rest⟩
    · rw [hstep]
      refine iff_of_false (by simp) ?_
      rintro ⟨entries, hs, hcompatible, -⟩
      obtain ⟨path', v', rest, hl', -, rfl⟩ := supplies_cons_iff.mp hs
      obtain ⟨rfl, rfl⟩ := hl.unique hl'
      exact hc (compatible_cons_iff.mp hcompatible).1
    · rw [hstep]
      refine iff_of_false (by simp) ?_
      rintro ⟨entries, hs, -, -⟩
      obtain ⟨path, v, rest, hl', -, -⟩ := supplies_cons_iff.mp hs
      exact hl path v hl'

/-- The members up to some point supply entries that are not compatible. -/
def Disagrees (scope : String) (lookup : String → Option Node) (env : Env) (ls : List Label) :
    Prop :=
  ∃ front entries, front <+: ls ∧ Supplies scope lookup front entries ∧ ¬ Compatible env entries

theorem not_disagrees_nil (env : Env) : ¬ Disagrees scope lookup env [] := by
  rintro ⟨front, entries, hfront, hs, hc⟩
  obtain rfl := List.prefix_nil.mp hfront
  obtain rfl := supplies_nil_iff.mp hs
  exact hc (compatible_nil env)

theorem disagrees_cons_iff {env : Env} {l : Label} {ls : List Label} :
    Disagrees scope lookup env (l :: ls) ↔ ∃ path v, Binds scope lookup l path v ∧
      (Compatible env [entry path v l.directory] →
        Disagrees scope lookup (Mapping.extend env [entry path v l.directory]) ls) := by
  constructor
  · rintro ⟨front, entries, hfront, hs, hnc⟩
    cases front with
    | nil =>
      obtain rfl := supplies_nil_iff.mp hs
      exact absurd (compatible_nil env) hnc
    | cons l' front =>
      obtain ⟨rfl, htail⟩ := List.cons_prefix_cons.mp hfront
      obtain ⟨path, v, rest, hl, hrest, rfl⟩ := supplies_cons_iff.mp hs
      exact ⟨path, v, hl, fun hc => ⟨front, rest, htail, hrest, fun hcompatible =>
        hnc (compatible_cons_iff.mpr ⟨hc, hcompatible⟩)⟩⟩
  · rintro ⟨path, v, hl, h⟩
    by_cases hc : Compatible env [entry path v l.directory]
    · obtain ⟨front, rest, hfront, hrest, hnc⟩ := h hc
      exact ⟨l :: front, _, List.cons_prefix_cons.mpr ⟨rfl, hfront⟩,
        supplies_cons_iff.mpr ⟨path, v, rest, hl, hrest, rfl⟩,
        fun hcompatible => hnc (compatible_cons_iff.mp hcompatible).2⟩
    · exact ⟨[l], _, by simp, supplies_cons_iff.mpr ⟨path, v, [], hl, .nil, rfl⟩, hc⟩

theorem difference_mergeMembers_iff {ls : List Label} {env : Env} {supplied : Mapping Value}
    (ht : Tracks env supplied) :
    (∃ f, mergeMembers scope lookup env supplied ls = .error f ∧ f.OfDifference) ↔
      Disagrees scope lookup env ls := by
  induction ls generalizing env supplied with
  | nil =>
    refine iff_of_false ?_ (not_disagrees_nil env)
    rintro ⟨f, hf, -⟩
    cases hf
  | cons l ls ih =>
    rw [disagrees_cons_iff]
    rcases mergeMembers_cons_cases ht scope lookup l ls with
      ⟨path, v, hl, hc, ht', hstep⟩ | ⟨path, v, hl, hc, f, hstep, hf⟩ | ⟨hl, f, hstep, hf⟩
    · rw [hstep, ih ht']
      constructor
      · exact fun h => ⟨path, v, hl, fun _ => h⟩
      · rintro ⟨path', v', hl', h⟩
        obtain ⟨rfl, rfl⟩ := hl.unique hl'
        exact h hc
    · exact iff_of_true ⟨f, hstep, hf⟩ ⟨path, v, hl, fun hc' => absurd hc' hc⟩
    · refine iff_of_false ?_ ?_
      · rintro ⟨f', hf', hduplicate⟩
        rw [hstep] at hf'
        exact hf (Except.error.inj hf' ▸ hduplicate)
      · rintro ⟨path, v, hl', -⟩
        exact hl path v hl'

/-! ### Clashes -/

/-- A member clashes: those in front of it supply compatible entries, and its value `v` differs from
the value `u` that was supplied last for its path, or else is bound there. -/
def Clashes (scope : String) (lookup : String → Option Node) (env : Env) (ls : List Label)
    (u v : Value) : Prop :=
  ∃ front l rest entries path b, ls = front ++ l :: rest ∧ Supplies scope lookup front entries ∧
    Compatible env entries ∧ Binds scope lookup l path v ∧
    Mapping.get? (entries.reverse ++ env) path = some b ∧ b.value = u ∧ u.equal v = false

/-- The value that was supplied last for a path, or else is bound there, is the one found there
after the extension. -/
theorem Compatible.same_of_latest {env entries : Env} (h : Compatible env entries) {path : String}
    {b c : Binding} (hb : Mapping.get? (entries.reverse ++ env) path = some b)
    (hc : (Mapping.extend env entries).get? path = some c) : Value.same c.value b.value = true := by
  rw [Mapping.get?_append] at hb
  rcases Option.or_eq_some_iff.mp hb with hb | ⟨-, hb⟩
  · exact h.same_of_get? (p := (path, b)) (List.mem_reverse.mp (Mapping.mem_of_get? hb)) hc
  · obtain rfl := Option.some.inj
      (hc.symm.trans (Mapping.get?_of_prefix (Mapping.prefix_extend env entries) hb))
    exact Value.same_refl _

theorem mem_names_latest_iff {env entries : Env} {path : String} :
    path ∈ Mapping.names (entries.reverse ++ env) ↔
      path ∈ Mapping.names (Mapping.extend env entries) := by
  have hreverse : path ∈ Mapping.names entries.reverse ↔ path ∈ Mapping.names entries := by
    rw [Mapping.names, List.map_reverse, List.mem_reverse]
    rfl
  rw [Mapping.mem_names_extend, Mapping.names_append, List.mem_append, or_comm, hreverse]

/-- A value does not fit in after compatible entries if and only if it differs from the one that was
supplied last for its path, or else is bound there. -/
theorem Compatible.concat_iff {env entries : Env} (h : Compatible env entries) {path : String}
    {v : Value} {directory : String} : ¬ Compatible env (entries ++ [entry path v directory]) ↔
      ∃ b, Mapping.get? (entries.reverse ++ env) path = some b ∧ b.value.equal v = false := by
  rw [compatible_append_iff, and_iff_right h, compatible_single_iff]
  simp only [entry, not_forall, Bool.not_eq_true, exists_prop]
  constructor
  · rintro ⟨c, hc, hcv⟩
    obtain ⟨b, hb⟩ := Mapping.exists_get?_of_mem_names
      (mem_names_latest_iff.mpr (Mapping.mem_names_of_get? hc))
    exact ⟨b, hb, by rwa [← Value.equal_left (h.same_of_latest hb hc)]⟩
  · rintro ⟨b, hb, hbv⟩
    obtain ⟨c, hc⟩ := Mapping.exists_get?_of_mem_names
      (mem_names_latest_iff.mp (Mapping.mem_names_of_get? hb))
    exact ⟨c, hc, by rwa [Value.equal_left (h.same_of_latest hb hc)]⟩

/-- **Where members disagree, one of them clashes.** -/
theorem disagrees_iff {env : Env} {ls : List Label} :
    Disagrees scope lookup env ls ↔ ∃ u v, Clashes scope lookup env ls u v := by
  constructor
  · rintro ⟨front, entries, ⟨rest, rfl⟩, hs, hc⟩
    -- the first member whose entry is not compatible with those in front of it
    induction front using List.reverseRecOn generalizing entries rest with
    | nil =>
      obtain rfl := supplies_nil_iff.mp hs
      exact absurd (compatible_nil env) hc
    | append_singleton front l ih =>
      obtain ⟨before, e, hbefore, hlast, rfl⟩ := supplies_append_iff.mp hs
      obtain ⟨path, v, e, hl, he, rfl⟩ := supplies_cons_iff.mp hlast
      obtain rfl := supplies_nil_iff.mp he
      rw [List.append_assoc, List.singleton_append]
      by_cases hcompatible : Compatible env before
      · obtain ⟨b, hb, hbv⟩ := hcompatible.concat_iff.mp hc
        exact ⟨_, v, front, l, rest, before, path, b, rfl, hbefore, hcompatible, hl, hb, rfl, hbv⟩
      · exact ih before (l :: rest) hbefore hcompatible
  · rintro ⟨u, v, front, l, rest, entries, path, b, rfl, hs, hc, hl, hb, rfl, hbv⟩
    refine ⟨front ++ [l], entries ++ [entry path v l.directory], ⟨rest, by simp⟩, ?_,
      hc.concat_iff.mpr ⟨b, hb, hbv⟩⟩
    exact supplies_append_iff.mpr ⟨_, _, hs, supplies_cons_iff.mpr ⟨path, v, [], hl, .nil, rfl⟩, rfl⟩

/-- What a batch has supplied after further entries. -/
def record (supplied : Mapping Value) (entries : Env) : Mapping Value :=
  entries.foldl (fun m p => m.put p.1 p.2.value) supplied

theorem get?_record {path : String} : ∀ {entries : Env} {supplied : Mapping Value},
    (record supplied entries).get? path =
      ((Mapping.get? entries.reverse path).map Binding.value).or (supplied.get? path)
  | [], _ => rfl
  | p :: entries, supplied => by
    have hrest : (record supplied (p :: entries)).get? path = _ :=
      @get?_record path entries (supplied.put p.1 p.2.value)
    rw [hrest, List.reverse_cons, Mapping.get?_append, Option.map_or, Option.or_assoc]
    congr 1
    by_cases hp : path = p.1
    · rw [hp, Mapping.get?_put_self, Mapping.get?, List.lookup_cons_self, Option.map_some,
        Option.some_or]
    · have hnone : Mapping.get? [p] path = none := by
        rw [Mapping.get?, List.lookup_cons, beq_false_of_ne hp]
        rfl
      rw [Mapping.get?_put_of_ne supplied _ hp, hnone, Option.map_none, Option.none_or]

/-- Members that supply compatible entries are merged, and the merge goes on behind them. -/
theorem mergeMembers_append {front : List Label} (rest : List Label) {env entries : Env}
    {supplied : Mapping Value} (ht : Tracks env supplied) (hs : Supplies scope lookup front entries)
    (hc : Compatible env entries) : mergeMembers scope lookup env supplied (front ++ rest) =
      mergeMembers scope lookup (Mapping.extend env entries) (record supplied entries) rest := by
  induction front generalizing env entries supplied with
  | nil =>
    obtain rfl := supplies_nil_iff.mp hs
    rw [Mapping.extend_nil]
    rfl
  | cons l front ih =>
    obtain ⟨path, v, entries, hl, hfront, rfl⟩ := supplies_cons_iff.mp hs
    obtain ⟨hfirst, hrest⟩ := compatible_cons_iff.mp hc
    rcases mergeMembers_cons_cases ht scope lookup l (front ++ rest) with
      ⟨path', v', hl', -, ht', hstep⟩ | ⟨path', v', hl', hc', -⟩ | ⟨hl', -⟩
    · obtain ⟨rfl, rfl⟩ := hl.unique hl'
      rw [List.cons_append, hstep, ih ht' hfront hrest]
      exact congrArg (mergeMembers scope lookup · _ rest) (Mapping.extend_append env [_] entries).symm
    · obtain ⟨rfl, rfl⟩ := hl.unique hl'
      exact absurd hfirst hc'
    · exact absurd hl (hl' path v)

/-- **A clash ends the merge**, with a fault that is told with the texts of the two values. -/
theorem mergeMembers_of_clashes {env : Env} {ls : List Label} {u v : Value}
    (h : Clashes scope lookup env ls u v) :
    ∃ report : String → String → DataFault, (∀ s t, (report s t).family = "DuplicateBindingError") ∧
      mergeMembers scope lookup env [] ls = .error (.differing report u v) := by
  obtain ⟨front, l, rest, entries, path, b, rfl, hs, hc, hl, hb, rfl, hbv⟩ := h
  rw [mergeMembers_append _ (tracks_nil env) hs hc, mergeMembers_cons_of_binds hl, agree, get?_record,
    Env.bind, Mapping.get?_extend]
  rw [Mapping.get?_append] at hb
  cases hlatest : Mapping.get? entries.reverse path with
  | some c =>
    rw [hlatest, Option.some_or, Option.some.injEq] at hb
    subst hb
    refine ⟨.conflict path, fun _ _ => rfl, ?_⟩
    simp only [Option.map_some, Option.some_or, hbv]
    rfl
  | none =>
    rw [hlatest, Option.none_or] at hb
    refine ⟨.rebinding path, fun _ _ => rfl, ?_⟩
    simp only [hb, Option.map_none, Option.none_or, Option.some_or, hbv]
    rfl

/-! ### Merges -/

/-- A merge that succeeds extends the environment by compatible entries, within the limit. -/
theorem merge_ok_iff_extend {env out : Env} {batch : Batch} :
    env.merge batch scope lookup limit = .ok out ↔
      ∃ entries, Supplies scope lookup batch.members entries ∧ Compatible env entries ∧
        ((Mapping.extend env entries).length : Int) ≤ limit ∧ out = Mapping.extend env entries := by
  rw [merge_ok_iff, mergeMembers_ok_iff (tracks_nil env)]
  constructor
  · rintro ⟨⟨entries, hs, hc, rfl⟩, hlimit⟩
    exact ⟨entries, hs, hc, hlimit, rfl⟩
  · rintro ⟨entries, hs, hc, hlimit, rfl⟩
    exact ⟨⟨entries, hs, hc, rfl⟩, hlimit⟩

theorem merge_of_clashes {env : Env} {batch : Batch} {u v : Value}
    (h : Clashes scope lookup env batch.members u v) :
    ((u.Writable ∧ v.Writable) ∧
      ∃ f, env.merge batch scope lookup limit = .error f ∧ f.IsDuplicate) ∨
    (¬ (u.Writable ∧ v.Writable) ∧ env.merge batch scope lookup limit = .error .oversized) := by
  obtain ⟨report, hfamily, hmembers⟩ := mergeMembers_of_clashes h
  have hmerge : env.merge batch scope lookup limit = .error (.differing report u v) :=
    Fallible.bind_error.mpr (.inl hmembers)
  rcases Fault.differing_cases report u v with ⟨s, t, hu, hv, heq⟩ | ⟨hnot, heq⟩
  · rw [heq] at hmerge
    exact .inl ⟨⟨Option.isSome_of_eq_some hu, Option.isSome_of_eq_some hv⟩, _, hmerge, hfamily s t⟩
  · exact .inr ⟨hnot, heq ▸ hmerge⟩

theorem disagrees_of_duplicate {env : Env} {batch : Batch} {f : Fault}
    (h : env.merge batch scope lookup limit = .error f) (hf : f.IsDuplicate) :
    Disagrees scope lookup env batch.members := by
  refine (difference_mergeMembers_iff (tracks_nil env)).mp ⟨f, ?_, .inl hf⟩
  rcases Fallible.bind_error.mp h with h | ⟨merged, -, h⟩
  · exact h
  · unfold overflow at h
    split_ifs at h
    all_goals
      rw [← Except.error.inj h] at hf
      simp [Fault.IsDuplicate, DataFault.family] at hf

theorem duplicate_merge_iff {env : Env} {batch : Batch} :
    (∃ f, env.merge batch scope lookup limit = .error f ∧ f.IsDuplicate) ↔
      ∃ u v, Clashes scope lookup env batch.members u v ∧ u.Writable ∧ v.Writable := by
  constructor
  · rintro ⟨f, h, hf⟩
    obtain ⟨u, v, hclash⟩ := disagrees_iff.mp (disagrees_of_duplicate h hf)
    rcases @merge_of_clashes scope lookup limit env batch u v hclash with ⟨hw, -⟩ | ⟨-, hover⟩
    · exact ⟨u, v, hclash, hw⟩
    · rw [Except.error.inj (h.symm.trans hover)] at hf
      exact hf.elim
  · rintro ⟨u, v, hclash, hw⟩
    rcases @merge_of_clashes scope lookup limit env batch u v hclash with ⟨-, h⟩ | ⟨hnot, -⟩
    · exact h
    · exact absurd hw hnot

/-- **A merge succeeds if and only if every member binds a value, no path is given two different
values, and there are no more paths than the limit allows.** What is new is then put at the end: the
first entry that was supplied for each path. **Where the members up to some point bind values that
differ**, two values clash. The merge fails because of two different values if and only if both can
be written; if one cannot, this is what the merge fails with. -/
theorem merge_characterized {env : Env} (hnd : (Mapping.names env).Nodup) (batch : Batch)
    (scope : String) (lookup : String → Option Node) (limit : Int) :
    (∀ out, env.merge batch scope lookup limit = .ok out ↔
      ∃ entries, Supplies scope lookup batch.members entries ∧ Compatible env entries ∧
        ((Mapping.names (env ++ entries)).toFinset.card : Int) ≤ limit ∧
        out = env ++ Mapping.added env entries) ∧
    (Disagrees scope lookup env batch.members ↔
      ∃ u v, Clashes scope lookup env batch.members u v) ∧
    ((∃ f, env.merge batch scope lookup limit = .error f ∧ f.IsDuplicate) ↔
      ∃ u v, Clashes scope lookup env batch.members u v ∧ u.Writable ∧ v.Writable) ∧
    ∀ u v, Clashes scope lookup env batch.members u v → ¬ (u.Writable ∧ v.Writable) →
      env.merge batch scope lookup limit = .error .oversized := by
  refine ⟨fun out => ?_, disagrees_iff, duplicate_merge_iff, fun u v hclash hnot => ?_⟩
  · rw [merge_ok_iff_extend]
    refine exists_congr fun entries => ?_
    rw [Mapping.length_extend hnd]
    rfl
  · exact ((merge_of_clashes hclash).resolve_left fun h => hnot h.1).2

/-- A count that has been answered, as a text. -/
def counted : Env := [("app.n", ⟨"app.n", .str "3", "a"⟩)]

/-- The question about the count. -/
def countAt (path : String) : Option Node :=
  if path = "app.n" then
    some (.node ⟨⟨.question ⟨.text .none, "n", .none, .none, .none, .none, .none⟩, ""⟩, none⟩ [])
  else none

/-- The count again, as a number, and two values for another name. -/
def recount (second : Value) : Batch where
  directory := "b"
  members :=
    [⟨.binding "n" (.int 3), "b"⟩, ⟨.binding "x" (.int 1), "b"⟩, ⟨.binding "x" second, "c"⟩]

theorem recount_supplies (second : Value) : Supplies "app" countAt (recount second).members
    [entry "app.n" (.str "3") "b", entry "app.x" (.int 1) "b", entry "app.x" second "c"] :=
  .cons ⟨_, _, ⟨"n", _, rfl, rfl, rfl, rfl⟩, rfl⟩
    (.cons ⟨_, _, ⟨"x", _, rfl, rfl, rfl, rfl⟩, rfl⟩
      (.cons ⟨_, _, ⟨"x", _, rfl, rfl, rfl, rfl⟩, rfl⟩ .nil))

theorem recount_clashes {second : Value} (h : (Value.int 1).equal second = false) :
    Clashes "app" countAt counted (recount second).members (.int 1) second := by
  refine ⟨[⟨.binding "n" (.int 3), "b"⟩, ⟨.binding "x" (.int 1), "b"⟩],
    ⟨.binding "x" second, "c"⟩, [], [entry "app.n" (.str "3") "b", entry "app.x" (.int 1) "b"],
    "app.x", ⟨"app.x", .int 1, "b"⟩, rfl, ?_, by decide, ⟨"x", _, rfl, rfl, rfl, rfl⟩, rfl, rfl, h⟩
  exact .cons ⟨_, _, ⟨"n", _, rfl, rfl, rfl, rfl⟩, rfl⟩
    (.cons ⟨_, _, ⟨"x", _, rfl, rfl, rfl, rfl⟩, rfl⟩ .nil)

/-- The second value for the other name equals the first one, differs from it, or is too long to be
reported. -/
theorem recount_characterized : (Mapping.names counted).Nodup ∧
    counted.merge (recount (.bool true)) "app" countAt 2 =
      .ok (counted ++ [("app.x", ⟨"app.x", .int 1, "b"⟩)]) ∧
    (∃ f, counted.merge (recount (.bool false)) "app" countAt 2 = .error f ∧ f.IsDuplicate) ∧
    counted.merge (recount .long) "app" countAt 2 = .error .oversized := by
  have hnd : (Mapping.names counted).Nodup := List.nodup_singleton _
  obtain ⟨hok, -⟩ := merge_characterized hnd (recount (.bool true)) "app" countAt 2
  obtain ⟨-, -, hduplicate, -⟩ := merge_characterized hnd (recount (.bool false)) "app" countAt 2
  obtain ⟨-, -, -, hlong⟩ := merge_characterized hnd (recount .long) "app" countAt 2
  refine ⟨hnd, (hok _).mpr ⟨_, recount_supplies _, by decide, by decide, rfl⟩,
    hduplicate.mpr ?_, ?_⟩
  · exact ⟨_, _, recount_clashes (by decide), rfl, rfl⟩
  · exact hlong _ _ (recount_clashes (Value.not_equal_long rfl))
      fun h => Value.not_writable_long h.2

/-- Two different values for one name are not reported if one is too long to be written. -/
theorem long_not_duplicate : Disagrees "app" countAt counted (recount .long).members ∧
    ¬ ∃ f, counted.merge (recount .long) "app" countAt 2 = .error f ∧ f.IsDuplicate := by
  have hclash := @recount_clashes .long (Value.not_equal_long rfl)
  refine ⟨disagrees_iff.mpr ⟨_, _, hclash⟩, ?_⟩
  rintro ⟨f, hf, hduplicate⟩
  rcases @merge_of_clashes _ _ 2 _ _ _ _ hclash with ⟨hw, -⟩ | ⟨-, hover⟩
  · exact Value.not_writable_long hw.2
  · rw [Except.error.inj (hf.symm.trans hover)] at hduplicate
    exact hduplicate

end Env

end Scaffold
