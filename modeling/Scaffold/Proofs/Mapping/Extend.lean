import Mathlib.Data.Finset.Card
import Mathlib.Data.List.Dedup
import Scaffold.Proofs.Mapping

/-! # Extending mappings

A mapping is extended by another one when the first entry of each name that it lacks is put at its
end (`extend`). A look-up then goes to the first mapping, and to the second where that finds nothing
(`get?_extend`). Extending by one mapping after another is extending by both (`extend_append`); the
number of entries does not depend on which came first (`length_extend_comm`), and it is the number
of different names (`length_extend`). -/

namespace Scaffold.Mapping

variable {α : Type}

/-- The entries of other names than those taken. -/
def without (m : Mapping α) (taken : List String) : Mapping α := m.filter fun p => p.1 ∉ taken

/-- The first entry of each name, in order. -/
def firsts : Mapping α → Mapping α
  | [] => []
  | p :: m => p :: without (firsts m) [p.1]

/-- What is new in the second mapping: the first entry of each name that the first one lacks. -/
def added (m m' : Mapping α) : Mapping α := firsts (without m' (names m))

/-- The first mapping with what is new in the second one put at the end. -/
def extend (m m' : Mapping α) : Mapping α := m ++ added m m'

/-! ### Leaving out names -/

theorem names_cons (p : String × α) (m : Mapping α) : names (p :: m) = p.1 :: names m := rfl

theorem names_append (m m' : Mapping α) : names (m ++ m') = names m ++ names m' := List.map_append

theorem length_names (m : Mapping α) : (names m).length = m.length := List.length_map _

theorem mem_names_of_get? {m : Mapping α} {name : String} {a : α} (h : get? m name = some a) :
    name ∈ names m := List.mem_map_of_mem (mem_of_get? h)

theorem exists_get?_of_mem_names {m : Mapping α} {name : String} (h : name ∈ names m) :
    ∃ a, get? m name = some a :=
  Option.ne_none_iff_exists'.mp fun hnone => get?_eq_none_iff.mp hnone h

theorem mem_names_without {m : Mapping α} {taken : List String} {name : String} :
    name ∈ names (without m taken) ↔ name ∈ names m ∧ name ∉ taken := by
  simp only [names, without, List.mem_map, List.mem_filter, decide_eq_true_eq]
  constructor
  · rintro ⟨p, ⟨hp, hn⟩, rfl⟩
    exact ⟨⟨p, hp, rfl⟩, hn⟩
  · rintro ⟨⟨p, hp, rfl⟩, hn⟩
    exact ⟨p, ⟨hp, hn⟩, rfl⟩

theorem without_without (m : Mapping α) (taken taken' : List String) :
    without (without m taken) taken' = without m (taken ++ taken') := by
  rw [without, without, List.filter_filter, without]
  refine List.filter_congr fun p _ => ?_
  simp [Bool.and_comm]

theorem without_congr {m : Mapping α} {taken taken' : List String}
    (h : ∀ name, name ∈ taken ↔ name ∈ taken') : without m taken = without m taken' :=
  List.filter_congr fun p _ => decide_eq_decide.mpr (not_congr (h p.1))

theorem get?_without (m : Mapping α) {taken : List String} {name : String} (h : name ∉ taken) :
    get? (without m taken) name = get? m name := by
  induction m with
  | nil => rfl
  | cons p m ih =>
    obtain ⟨n, a⟩ := p
    rw [without] at ih ⊢
    by_cases hn : n ∈ taken
    · have hne : (name == n) = false := by simpa using fun heq : name = n => h (heq ▸ hn)
      rw [List.filter_cons_of_neg (by simpa using hn), ih, get?, get?, List.lookup_cons, hne]
    · rw [List.filter_cons_of_pos (by simpa using hn)]
      simp only [get?, List.lookup_cons] at ih ⊢
      rw [ih]

/-! ### First entries -/

theorem mem_names_firsts {m : Mapping α} {name : String} :
    name ∈ names (firsts m) ↔ name ∈ names m := by
  induction m with
  | nil => rfl
  | cons p m ih =>
    rw [firsts, names_cons, names_cons, List.mem_cons, List.mem_cons, mem_names_without, ih,
      List.mem_singleton]
    tauto

theorem nodup_names_firsts (m : Mapping α) : (names (firsts m)).Nodup := by
  induction m with
  | nil => exact List.nodup_nil
  | cons p m ih =>
    rw [firsts, names_cons]
    refine List.nodup_cons.mpr ⟨fun hp => ?_, ih.sublist (List.filter_sublist.map _)⟩
    exact (mem_names_without.mp hp).2 (List.mem_singleton_self _)

theorem get?_firsts (m : Mapping α) (name : String) : get? (firsts m) name = get? m name := by
  induction m with
  | nil => rfl
  | cons p m ih =>
    obtain ⟨n, a⟩ := p
    rw [firsts, get?, get?, List.lookup_cons, List.lookup_cons]
    cases hn : name == n with
    | true => rfl
    | false => exact (get?_without _ (by simpa using hn)).trans ih

/-- Leaving out names and taking first entries may be done in either order. -/
theorem firsts_without (m : Mapping α) (taken : List String) :
    firsts (without m taken) = without (firsts m) taken := by
  induction m with
  | nil => rfl
  | cons p m ih =>
    by_cases hp : p.1 ∈ taken
    · have hskip : ∀ l : Mapping α, without (p :: l) taken = without l taken := fun l =>
        List.filter_cons_of_neg (by simpa using hp)
      rw [hskip, firsts, hskip, ih, without_without]
      refine without_congr fun name => ?_
      rw [List.mem_append, List.mem_singleton]
      exact ⟨.inr, fun h => h.elim (fun heq => heq ▸ hp) id⟩
    · have hkeep : ∀ l : Mapping α, without (p :: l) taken = p :: without l taken := fun l =>
        List.filter_cons_of_pos (by simpa using hp)
      rw [hkeep, firsts, firsts, hkeep, ih, without_without, without_without]
      exact congrArg _ (without_congr fun name => by rw [List.mem_append, List.mem_append, or_comm])

theorem firsts_append (m m' : Mapping α) :
    firsts (m ++ m') = firsts m ++ without (firsts m') (names m) := by
  induction m with
  | nil => exact (List.filter_eq_self.mpr (by simp [names])).symm
  | cons p m ih =>
    rw [List.cons_append, firsts, firsts, ih, without, List.filter_append, List.cons_append]
    refine congrArg (fun l => p :: (without (firsts m) [p.1] ++ l)) ?_
    refine (without_without _ _ _).trans (without_congr fun name => ?_)
    rw [List.mem_append, List.mem_singleton, names_cons, List.mem_cons, or_comm]

/-! ### Extensions -/

theorem prefix_extend (m m' : Mapping α) : m <+: extend m m' := List.prefix_append _ _

theorem get?_extend (m m' : Mapping α) (name : String) :
    get? (extend m m') name = (get? m name).or (get? m' name) := by
  rw [extend, get?_append, added, get?_firsts]
  cases h : get? m name with
  | some a => rfl
  | none => rw [get?_without m' (get?_eq_none_iff.mp h)]

theorem mem_names_added {m m' : Mapping α} {name : String} :
    name ∈ names (added m m') ↔ name ∈ names m' ∧ name ∉ names m := by
  rw [added, mem_names_firsts, mem_names_without]

theorem mem_names_extend {m m' : Mapping α} {name : String} :
    name ∈ names (extend m m') ↔ name ∈ names m ∨ name ∈ names m' := by
  rw [extend, names_append, List.mem_append, mem_names_added]
  tauto

theorem exists_get?_extend (m : Mapping α) {m' : Mapping α} {name : String} (h : name ∈ names m') :
    ∃ a, get? (extend m m') name = some a :=
  exists_get?_of_mem_names (mem_names_extend.mpr (.inr h))

theorem extend_nil (m : Mapping α) : extend m [] = m := List.append_nil m

theorem extend_single_of_mem {m : Mapping α} {p : String × α} (h : p.1 ∈ names m) :
    extend m [p] = m := by
  have hnone : without [p] (names m) = [] := List.filter_cons_of_neg (by simpa using h)
  rw [extend, added, hnone]
  exact List.append_nil m

theorem extend_single {m : Mapping α} {p : String × α} (h : p.1 ∉ names m) :
    extend m [p] = m ++ [p] := by
  have hkept : without [p] (names m) = [p] := List.filter_cons_of_pos (by simpa using h)
  rw [extend, added, hkept]
  rfl

/-- Extending by one mapping and then by another is extending by both. -/
theorem extend_append (m a b : Mapping α) : extend m (a ++ b) = extend (extend m a) b := by
  have hnew : without (without b (names m)) (names (without a (names m))) =
      without b (names (extend m a)) := by
    rw [without_without]
    refine without_congr fun name => ?_
    rw [List.mem_append, mem_names_without, mem_names_extend]
    tauto
  have hsplit : without (a ++ b) (names m) = without a (names m) ++ without b (names m) :=
    List.filter_append _ _
  rw [extend, added, hsplit, firsts_append, ← firsts_without, hnew, ← List.append_assoc]
  rfl

example : extend [("a", 1)] [("b", 2), ("a", 3), ("b", 4)] = [("a", 1), ("b", 2)] := by decide

theorem length_added (m m' : Mapping α) :
    (added m m').length = ((names m').toFinset \ (names m).toFinset).card := by
  have hnames : (names (added m m')).toFinset = (names m').toFinset \ (names m).toFinset := by
    ext name
    simp [mem_names_added]
  have hcard := List.toFinset_card_of_nodup (nodup_names_firsts (without m' (names m)))
  rw [← hnames, added, hcard, length_names]

/-- An extension has as many entries as there are different names in the two mappings. -/
theorem length_extend {m : Mapping α} (hm : (names m).Nodup) (m' : Mapping α) :
    (extend m m').length = (names (m ++ m')).toFinset.card := by
  have hlength : m.length = (names m).toFinset.card := by
    rw [List.toFinset_card_of_nodup hm, length_names]
  rw [extend, List.length_append, length_added, hlength, names_append, List.toFinset_append,
    Finset.union_comm, ← Finset.card_sdiff_add_card, Nat.add_comm]

theorem length_extend_comm (m a b : Mapping α) :
    (extend m (a ++ b)).length = (extend m (b ++ a)).length := by
  rw [extend, extend, List.length_append, List.length_append, length_added, length_added,
    names_append, names_append, List.toFinset_append, List.toFinset_append, Finset.union_comm]

end Scaffold.Mapping
