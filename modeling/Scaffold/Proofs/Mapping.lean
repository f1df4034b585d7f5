import Scaffold.Mapping

/-! # Looking up in mappings

What is found under a name is an entry of the mapping (`mem_of_get?`), stays found when entries are
put at the end (`get?_of_prefix`), and is every entry of that name when no name occurs twice
(`get?_of_mem`). -/

namespace Scaffold.Mapping

variable {α β : Type}

theorem get?_append (m m' : Mapping α) (name : String) :
    get? (m ++ m') name = (get? m name).or (get? m' name) := List.lookup_append

theorem get?_of_prefix {m m' : Mapping α} (h : m <+: m') {name : String} {a : α}
    (ha : get? m name = some a) : get? m' name = some a := h.lookup_eq_some ha

/-- Whatever is found in the first mapping is found in the second. -/
def Within (m m' : Mapping α) : Prop :=
  ∀ name a, get? m name = some a → get? m' name = some a

theorem Within.refl (m : Mapping α) : Within m m := fun _ _ h => h

theorem Within.trans {m m' m'' : Mapping α} (h : Within m m') (h' : Within m' m'') :
    Within m m'' := fun name a ha => h' name a (h name a ha)

theorem mem_of_get? {m : Mapping α} {name : String} {a : α} (h : get? m name = some a) :
    (name, a) ∈ m := by
  obtain ⟨m₁, m₂, rfl, -⟩ := List.lookup_eq_some_iff.mp h
  simp

theorem get?_eq_none_iff {m : Mapping α} {name : String} :
    get? m name = none ↔ name ∉ names m := by
  rw [get?, List.lookup_eq_none_iff, names]
  simp only [bne_iff_ne, ne_eq, List.mem_map, not_exists, not_and]
  exact forall₂_congr fun p _ => not_congr eq_comm

theorem get?_of_mem {m : Mapping α} (hm : (names m).Nodup) {name : String} {a : α}
    (h : (name, a) ∈ m) : get? m name = some a := by
  obtain ⟨m₁, m₂, rfl⟩ := List.append_of_mem h
  refine List.lookup_eq_some_iff.mpr ⟨m₁, m₂, rfl, fun p hp => ?_⟩
  simp only [names, List.map_append, List.map_cons] at hm
  have := (List.nodup_append.mp hm).2.2 p.1 (List.mem_map_of_mem hp) name (by simp)
  simpa using this.symm

/-- The look-up of a mapping whose contents went through a function. -/
theorem get?_map (f : α → β) (m : Mapping α) (name : String) :
    get? (m.map fun p => (p.1, f p.2)) name = (get? m name).map f := by
  induction m with
  | nil => rfl
  | cons p m ih =>
    obtain ⟨n, a⟩ := p
    simp only [get?, List.map_cons, List.lookup_cons] at ih ⊢
    cases name == n <;> simp [ih]

/-- The mapping with entries written to it in order. -/
def putAll (m : Mapping α) (entries : List (String × α)) : Mapping α :=
  entries.foldl (fun m p => put m p.1 p.2) m

theorem putAll_cons (m : Mapping α) (p : String × α) (entries : List (String × α)) :
    putAll m (p :: entries) = putAll (put m p.1 p.2) entries := rfl

theorem get?_putAll : ∀ {entries : List (String × α)} {m : Mapping α} {name : String} {a : α},
    get? (putAll m entries) name = some a → get? m name = some a ∨ (name, a) ∈ entries
  | [], _, _, _, h => .inl h
  | (n, b) :: entries, m, name, a, h => by
    rw [putAll_cons] at h
    rcases get?_putAll h with h | h
    · by_cases hn : name = n
      · subst hn
        rw [get?_put_self, Option.some.injEq] at h
        exact .inr (by simp [← h])
      · rw [get?_put_of_ne m b hn] at h
        exact .inl h
    · exact .inr (by simp [h])

theorem isSome_get?_putAll {name : String} : ∀ {entries : List (String × α)} {m : Mapping α},
    (∃ a, get? m name = some a) ∨ (∃ a, (name, a) ∈ entries) →
      ∃ a, get? (putAll m entries) name = some a
  | [], _, h => by
    rcases h with h | ⟨a, h⟩
    · exact h
    · simp at h
  | (n, b) :: entries, m, h => by
    rw [putAll_cons]
    refine isSome_get?_putAll ?_
    dsimp only
    by_cases hn : name = n
    · subst hn
      exact .inl ⟨b, get?_put_self m name b⟩
    · rw [get?_put_of_ne m b hn]
      rcases h with h | ⟨a, h⟩
      · exact .inl h
      · exact .inr ⟨a, by simpa [hn] using h⟩

/-- Where no name occurs twice, the order of the entries does not matter. -/
theorem get?_eq_of_mem_iff {m m' : Mapping α} (hm : (names m).Nodup) (hm' : (names m').Nodup)
    (h : ∀ p, p ∈ m ↔ p ∈ m') (name : String) : get? m name = get? m' name := by
  refine Option.ext fun a => ⟨fun ha => ?_, fun ha => ?_⟩
  · exact get?_of_mem hm' ((h _).mp (mem_of_get? ha))
  · exact get?_of_mem hm ((h _).mpr (mem_of_get? ha))

/-- Entries of different names are found after they were written in order. -/
theorem get?_ofPairs {pairs : List (String × α)} (h : (names pairs).Nodup) (name : String) :
    get? (ofPairs pairs) name = get? pairs name := by
  have hmem : ∀ a, get? (ofPairs pairs) name = some a → (name, a) ∈ pairs := fun a ha =>
    (get?_putAll (m := []) ha).resolve_left nofun
  refine Option.ext fun a => ⟨fun ha => get?_of_mem h (hmem a ha), fun ha => ?_⟩
  obtain ⟨b, hb⟩ := isSome_get?_putAll (m := []) (.inr ⟨a, mem_of_get? ha⟩)
  obtain rfl := Option.some.inj ((get?_of_mem h (hmem b hb)).symm.trans ha)
  exact hb

theorem get?_append_single_eq_none {m : Mapping α} {name key : String} {a : α} :
    get? (m ++ [(key, a)]) name = none ↔ get? m name = none ∧ name ≠ key := by
  rw [get?_append, Option.or_eq_none_iff]
  refine and_congr_right fun _ => ?_
  rw [get?_eq_none_iff]
  simp [names]

theorem nodup_names_append_single {m : Mapping α} (hm : (names m).Nodup) {name : String} (a : α)
    (h : get? m name = none) : (names (m ++ [(name, a)])).Nodup := by
  rw [names, List.map_append, List.nodup_append]
  refine ⟨hm, by simp, fun n hn n' hn' => ?_⟩
  obtain rfl : n' = name := by simpa using hn'
  rintro rfl
  exact get?_eq_none_iff.mp h hn

end Scaffold.Mapping
