import Scaffold.Proofs.Env.Merge

/-! # Merging one batch after another

Two merges in a row extend the environment by the entries of both batches (`mergeThen_ok_iff`), and
succeed when these are compatible and the outcome is within the limit: the limit on the way there is
no further condition. So a batch may be split anywhere (`merge_split`), and two batches may change
places (`mergeThen_comm`): the outcomes bind the same paths to equal values, or to the very same NaN
(`nan_mergeThen_comm`). A batch that is merged again changes nothing, unless it gives NaN to a path
that no question has (`merge_again`). -/

namespace Scaffold.Env

variable {scope s₁ s₂ : String} {lookup : String → Option Node} {limit : Int}
  {env out out' : Env} {batch c₁ c₂ : Batch}

/-- A batch merged at a scope, and then another one at another scope. -/
def mergeThen (env : Env) (c₁ : Batch) (s₁ : String) (c₂ : Batch) (s₂ : String)
    (lookup : String → Option Node) (limit : Int) : Except Fault Env := do
  let merged ← env.merge c₁ s₁ lookup limit
  merged.merge c₂ s₂ lookup limit

theorem mergeThen_ok_iff : env.mergeThen c₁ s₁ c₂ s₂ lookup limit = .ok out ↔
    ∃ e₁ e₂, Supplies s₁ lookup c₁.members e₁ ∧ Supplies s₂ lookup c₂.members e₂ ∧
      Compatible env (e₁ ++ e₂) ∧ ((Mapping.extend env (e₁ ++ e₂)).length : Int) ≤ limit ∧
      out = Mapping.extend env (e₁ ++ e₂) := by
  rw [mergeThen, Fallible.bind_ok]
  constructor
  · rintro ⟨merged, h₁, h₂⟩
    obtain ⟨e₁, hs₁, hc₁, -, rfl⟩ := merge_ok_iff_extend.mp h₁
    obtain ⟨e₂, hs₂, hc₂, hlimit, rfl⟩ := merge_ok_iff_extend.mp h₂
    rw [← Mapping.extend_append] at hlimit ⊢
    exact ⟨e₁, e₂, hs₁, hs₂, compatible_append_iff.mpr ⟨hc₁, hc₂⟩, hlimit, rfl⟩
  · rintro ⟨e₁, e₂, hs₁, hs₂, hc, hlimit, rfl⟩
    obtain ⟨hc₁, hc₂⟩ := compatible_append_iff.mp hc
    rw [Mapping.extend_append] at hlimit ⊢
    have hgrow := (Mapping.prefix_extend (Mapping.extend env e₁) e₂).length_le
    exact ⟨_, merge_ok_iff_extend.mpr ⟨e₁, hs₁, hc₁, by omega, rfl⟩,
      merge_ok_iff_extend.mpr ⟨e₂, hs₂, hc₂, hlimit, rfl⟩⟩

/-! ### Splitting a batch -/

/-- **A batch may be split anywhere**: merging all members at once, and merging the first of them
and then the others, succeed alike and with the same outcome. -/
theorem merge_split (env : Env) (c₁ c₂ : Batch) (directory scope : String)
    (lookup : String → Option Node) (limit : Int) (out : Env) :
    env.merge ⟨directory, c₁.members ++ c₂.members⟩ scope lookup limit = .ok out ↔
      env.mergeThen c₁ scope c₂ scope lookup limit = .ok out := by
  rw [merge_ok_iff_extend, mergeThen_ok_iff]
  constructor
  · rintro ⟨entries, hs, hc, hlimit, rfl⟩
    obtain ⟨e₁, e₂, hs₁, hs₂, rfl⟩ := supplies_append_iff.mp hs
    exact ⟨e₁, e₂, hs₁, hs₂, hc, hlimit, rfl⟩
  · rintro ⟨e₁, e₂, hs₁, hs₂, hc, hlimit, rfl⟩
    exact ⟨e₁ ++ e₂, supplies_append_iff.mpr ⟨e₁, e₂, hs₁, hs₂, rfl⟩, hc, hlimit, rfl⟩

/-! ### Exchanging two batches -/

theorem exists_mergeThen_comm (h : env.mergeThen c₁ s₁ c₂ s₂ lookup limit = .ok out) :
    ∃ out', env.mergeThen c₂ s₂ c₁ s₁ lookup limit = .ok out' := by
  obtain ⟨e₁, e₂, hs₁, hs₂, hc, hlimit, rfl⟩ := mergeThen_ok_iff.mp h
  rw [Mapping.length_extend_comm] at hlimit
  exact ⟨_, mergeThen_ok_iff.mpr ⟨e₂, e₁, hs₂, hs₁, hc.comm, hlimit, rfl⟩⟩

/-- **Two batches may change places**: merging them in either order succeeds alike, and then the
outcomes bind the same paths, to equal values or to the very same NaN. -/
theorem mergeThen_comm (env : Env) (c₁ : Batch) (s₁ : String) (c₂ : Batch) (s₂ : String)
    (lookup : String → Option Node) (limit : Int) :
    ((∃ out, env.mergeThen c₁ s₁ c₂ s₂ lookup limit = .ok out) ↔
      ∃ out', env.mergeThen c₂ s₂ c₁ s₁ lookup limit = .ok out') ∧
    ∀ out out', env.mergeThen c₁ s₁ c₂ s₂ lookup limit = .ok out →
      env.mergeThen c₂ s₂ c₁ s₁ lookup limit = .ok out' →
      (∀ path, path ∈ Mapping.names out ↔ path ∈ Mapping.names out') ∧
      ∀ path b b', out.get? path = some b → out'.get? path = some b' →
        b.value.equal b'.value = true ∨ (b = b' ∧ b.value.isNaN = true) := by
  refine ⟨⟨fun ⟨_, h⟩ => exists_mergeThen_comm h, fun ⟨_, h⟩ => exists_mergeThen_comm h⟩,
    fun out out' h h' => ?_⟩
  obtain ⟨e₁, e₂, hs₁, hs₂, hc, -, rfl⟩ := mergeThen_ok_iff.mp h
  obtain ⟨e₂', e₁', hs₂', hs₁', -, -, rfl⟩ := mergeThen_ok_iff.mp h'
  obtain rfl := hs₁.unique hs₁'
  obtain rfl := hs₂.unique hs₂'
  refine ⟨fun path => ?_, fun path b b' hb hb' => ?_⟩
  · rw [Mapping.mem_names_extend, Mapping.mem_names_extend, Mapping.names_append,
      Mapping.names_append, List.mem_append, List.mem_append, or_comm (a := path ∈ e₁.names)]
  · have hmem : ∀ p ∈ e₂ ++ e₁, p ∈ e₁ ++ e₂ := fun p hp => by
      rw [List.mem_append, or_comm]
      exact List.mem_append.mp hp
    rcases hc.eq_or_equal_of_get? hmem hb hb' with rfl | hequal
    · cases hnan : b.value.isNaN with
      | true => exact .inr ⟨rfl, rfl⟩
      | false => exact .inl (Value.equal_self_iff.mpr hnan)
    · exact .inl hequal

/-- A number and a truth value that equals it, for one path: each order keeps the value that came
first. -/
theorem one_mergeThen_comm : ∃ out out' b b',
    mergeThen [] (.ofPairs [("x", .int 1)] "") "" (.ofPairs [("x", .bool true)] "") ""
      (fun _ => none) 1 = .ok out ∧
    mergeThen [] (.ofPairs [("x", .bool true)] "") "" (.ofPairs [("x", .int 1)] "") ""
      (fun _ => none) 1 = .ok out' ∧
    out.get? "x" = some b ∧ out'.get? "x" = some b' ∧ b.value = .int 1 ∧ b'.value = .bool true ∧
    b.value.equal b'.value = true := by
  obtain ⟨-, hsame⟩ := mergeThen_comm [] (.ofPairs [("x", .int 1)] "") ""
    (.ofPairs [("x", .bool true)] "") "" (fun _ => none) 1
  obtain ⟨-, hvalues⟩ := hsame _ _ rfl rfl
  refine ⟨_, _, _, _, rfl, rfl, rfl, rfl, rfl, rfl, ?_⟩
  exact (hvalues "x" _ _ rfl rfl).resolve_right fun h => by cases h.2

/-- NaN is bound to the path in either order, and differs from itself. -/
theorem nan_mergeThen_comm : ∃ out out' b b',
    mergeThen [] (.ofPairs [("x", .float ⟨0x7FF8000000000000⟩)] "") "" (.ofPairs [] "") ""
      (fun _ => none) 1000 = .ok out ∧
    mergeThen [] (.ofPairs [] "") "" (.ofPairs [("x", .float ⟨0x7FF8000000000000⟩)] "") ""
      (fun _ => none) 1000 = .ok out' ∧
    out.get? "x" = some b ∧ out'.get? "x" = some b' ∧ b.value.equal b'.value = false :=
  ⟨_, _, _, _, rfl, rfl, rfl, rfl, by decide⟩

/-! ### Merging a batch again -/

/-- A member of the batch gives NaN to a path that no question has. -/
def GivesNaN (scope : String) (lookup : String → Option Node) (batch : Batch) : Prop :=
  ∃ l ∈ batch.members, ∃ name v, l.content = .binding name v ∧ v.isNaN = true ∧
    lookup (Path.join scope name) = none

theorem givesNaN_of_binds {l : Label} (hl : l ∈ batch.members) {path : String} {v : Value}
    (h : Binds scope lookup l path v) (hv : v.isNaN = true) : GivesNaN scope lookup batch := by
  obtain ⟨name, given, hcontent, -, rfl, hsettle⟩ := h
  refine ⟨l, hl, name, given, hcontent, ?_⟩
  unfold settle at hsettle
  split at hsettle
  next n hn =>
    obtain ⟨q, -, -, hnormal⟩ := Answer.normal_of_coerce hsettle
    rw [hnormal.not_isNaN] at hv
    cases hv
  next hnone =>
    rw [Except.ok.inj hsettle]
    exact ⟨hv, hnone⟩

theorem merge_self_of_merge (hnan : ¬ GivesNaN scope lookup batch)
    (h : env.merge batch scope lookup limit = .ok out) :
    out.merge batch scope lookup limit = .ok out := by
  refine merge_bound (merge_ok_iff.mp h).2 fun l hl => ?_
  obtain ⟨path, v, b, hbinds, hb, hsame⟩ := bound_of_merge h l hl
  have hv : v.isNaN = false := by
    by_contra hv
    exact hnan (givesNaN_of_binds hl hbinds (by simpa using hv))
  refine ⟨path, v, b, hbinds, hb, Value.equal_iff.mpr ⟨?_, hsame⟩⟩
  rwa [Value.isNaN_eq_of_same hsame]

theorem disagrees_of_givesNaN (hnan : GivesNaN scope lookup batch)
    (h : env.merge batch scope lookup limit = .ok out) :
    Disagrees scope lookup out batch.members := by
  obtain ⟨entries, hs, -, -, -⟩ := merge_ok_iff_extend.mp h
  refine ⟨batch.members, entries, List.prefix_refl _, hs, fun hc => ?_⟩
  obtain ⟨l, hl, name, given, hcontent, hgiven, hnone⟩ := hnan
  obtain ⟨path, v, hbinds, hentry⟩ := hs.exists_entry hl
  obtain ⟨path', v', b, hbinds', hb, -⟩ := bound_of_merge h l hl
  obtain ⟨rfl, rfl⟩ := hbinds.unique hbinds'
  -- the value is bound as it was given, and equals nothing
  have hv : v = given := by
    obtain ⟨name', given', hcontent', -, rfl, hsettle⟩ := hbinds
    obtain ⟨rfl, rfl⟩ := Content.binding.inj (hcontent.symm.trans hcontent')
    rw [settle, hnone] at hsettle
    exact (Except.ok.inj hsettle).symm
  have hnotNaN : v.isNaN = false :=
    (Value.equal_iff.mp (Value.equal_symm (hc.bound _ hentry b hb))).1
  rw [hv, hgiven] at hnotNaN
  cases hnotNaN

/-- What clashes when a batch is merged again is NaN: the values are the same as the one that has
been bound. -/
theorem isNaN_of_clashes (h : env.merge batch scope lookup limit = .ok out) {u v : Value}
    (hclash : Clashes scope lookup out batch.members u v) : u.isNaN = true ∧ v.isNaN = true := by
  obtain ⟨front, l, rest, entries, path, b, hls, -, hc, hl, hb, rfl, hdiffers⟩ := hclash
  obtain ⟨path', v', bound, hl', hbound, hsame⟩ := bound_of_merge h l (by simp [hls])
  obtain ⟨rfl, rfl⟩ := hl.unique hl'
  have hlatest := hc.same_of_latest hb (Mapping.get?_of_prefix (Mapping.prefix_extend out _) hbound)
  have huv := Value.same_trans (Value.same_symm hlatest) hsame
  have hu : b.value.isNaN = true := by
    by_contra hu
    rw [Value.equal_iff.mpr ⟨by simpa using hu, huv⟩] at hdiffers
    cases hdiffers
  exact ⟨hu, Value.isNaN_eq_of_same huv ▸ hu⟩

theorem duplicate_of_givesNaN (hnan : GivesNaN scope lookup batch)
    (h : env.merge batch scope lookup limit = .ok out) :
    ∃ f, out.merge batch scope lookup limit = .error f ∧ f.IsDuplicate := by
  obtain ⟨u, v, hclash⟩ := disagrees_iff.mp (disagrees_of_givesNaN hnan h)
  obtain ⟨hu, hv⟩ := isNaN_of_clashes h hclash
  exact duplicate_merge_iff.mpr
    ⟨u, v, hclash, Value.writable_of_isNaN hu, Value.writable_of_isNaN hv⟩

/-- **A batch that is merged again changes nothing**, unless it gives NaN to a path that no question
has: then it gives the path two different values. -/
theorem merge_again (env : Env) (batch : Batch) (scope : String) (lookup : String → Option Node)
    (limit : Int) (out : Env) (h : env.merge batch scope lookup limit = .ok out) :
    (¬ GivesNaN scope lookup batch → out.merge batch scope lookup limit = .ok out) ∧
    (GivesNaN scope lookup batch →
      ∃ f, out.merge batch scope lookup limit = .error f ∧ f.IsDuplicate) :=
  ⟨fun hnan => merge_self_of_merge hnan h, fun hnan => duplicate_of_givesNaN hnan h⟩

/-- A number is given again under the spelling of an equal truth value; NaN is given again. -/
theorem one_merge_again :
    (merge [] (.ofPairs [("x", .int 1), ("x", .bool true)] "") "" (fun _ => none) 1 =
      .ok [("x", ⟨"x", .int 1, ""⟩)] ∧
    merge [("x", ⟨"x", .int 1, ""⟩)] (.ofPairs [("x", .int 1), ("x", .bool true)] "") ""
      (fun _ => none) 1 = .ok [("x", ⟨"x", .int 1, ""⟩)]) ∧
    merge [] (.ofPairs [("x", .float ⟨0x7FF8000000000000⟩)] "") "" (fun _ => none) 1 =
      .ok [("x", ⟨"x", .float ⟨0x7FF8000000000000⟩, ""⟩)] ∧
    ∃ f, merge [("x", ⟨"x", .float ⟨0x7FF8000000000000⟩, ""⟩)]
      (.ofPairs [("x", .float ⟨0x7FF8000000000000⟩)] "") "" (fun _ => none) 1 = .error f ∧
      f.IsDuplicate := by
  obtain ⟨hone, -⟩ := merge_again [] (.ofPairs [("x", .int 1), ("x", .bool true)] "") ""
    (fun _ => none) 1 _ rfl
  obtain ⟨-, hnan⟩ := merge_again [] (.ofPairs [("x", .float ⟨0x7FF8000000000000⟩)] "") ""
    (fun _ => none) 1 _ rfl
  refine ⟨⟨rfl, hone ?_⟩, rfl, hnan ⟨_, List.mem_cons_self, "x", _, rfl, by decide, rfl⟩⟩
  rintro ⟨l, hl, name, v, hcontent, hv, -⟩
  change l ∈ [_, _] at hl
  simp only [List.mem_cons, List.not_mem_nil, or_false] at hl
  rcases hl with rfl | rfl <;> cases hcontent <;> cases hv

end Scaffold.Env
