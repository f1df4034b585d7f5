import Mathlib.Data.List.DropRight
import Scaffold.Text.Blank

/-! # Pieces and blanks

The pieces of a text are those of the library's `List.splitOn` (`split_eq_splitOn`): joined by the
separator they give the text again (`intercalate_pieces`), and texts without the separator are the
pieces of what they are joined to (`pieces_intercalate`).

Trimming takes away the characters of a class around a text that has none of them at its ends
(`trim_padded`), and nothing else (`exists_padded`). -/

namespace Scaffold.Text

variable {sep : Char} {p : Char → Bool} {s : String} {ps : List String}

/-! ### Pieces -/

theorem split_eq_splitOn (sep : Char) (cs : List Char) : split sep cs = cs.splitOn sep := by
  induction cs with
  | nil => rfl
  | cons c cs ih =>
    rw [split, List.splitOn_cons_eq_if_modifyHead, ← ih]
    simp only [beq_iff_eq]
    split_ifs
    · rfl
    · cases hs : split sep cs with
      | nil => exact absurd hs (split_ne_nil sep cs)
      | cons p ps => rfl

theorem pieces_eq (sep : Char) (s : String) :
    pieces sep s = (s.toList.splitOn sep).map String.ofList := by rw [pieces, split_eq_splitOn]

theorem intercalate_pieces (sep : Char) (s : String) :
    (String.singleton sep).intercalate (pieces sep s) = s := by
  rw [← String.toList_inj, String.toList_intercalate, pieces_eq, List.map_map]
  have hid : String.toList ∘ String.ofList = id := funext fun _ => String.toList_ofList
  rw [hid, List.map_id, String.toList_singleton, List.intercalate_splitOn]

theorem pieces_intercalate (h : ∀ p ∈ ps, sep ∉ p.toList) (hne : ps ≠ []) :
    pieces sep ((String.singleton sep).intercalate ps) = ps := by
  rw [pieces_eq, String.toList_intercalate, String.toList_singleton, List.splitOn_intercalate,
    List.map_map]
  · have hid : String.ofList ∘ String.toList = id := funext fun _ => String.ofList_toList
    rw [hid, List.map_id]
  · simpa using h
  · simpa using hne

theorem not_mem_of_mem_split {cs : List Char} : ∀ {q : List Char}, q ∈ split sep cs → sep ∉ q := by
  induction cs with
  | nil => simp [split]
  | cons c cs ih =>
    intro q hq
    rw [split] at hq
    split_ifs at hq with hc
    · rcases List.mem_cons.mp hq with rfl | hq
      · exact List.not_mem_nil
      · exact ih hq
    · cases hs : split sep cs with
      | nil => exact absurd hs (split_ne_nil sep cs)
      | cons p ps =>
        rw [hs] at hq ih
        rcases List.mem_cons.mp hq with rfl | hq
        · rw [List.mem_cons, not_or]
          exact ⟨Ne.symm hc, ih List.mem_cons_self⟩
        · exact ih (List.mem_cons_of_mem _ hq)

/-- No piece has the separator in it. -/
theorem not_mem_of_mem_pieces {q : String} (h : q ∈ pieces sep s) : sep ∉ q.toList := by
  obtain ⟨cs, hcs, rfl⟩ := List.mem_map.mp h
  rw [String.toList_ofList]
  exact not_mem_of_mem_split hcs

/-! ### Trimming -/

/-- All characters of the text are of the class. -/
def AllOf (p : Char → Bool) (s : String) : Prop := ∀ c ∈ s.toList, p c = true

/-- The text has no character of the class at either end. -/
def BareOf (p : Char → Bool) (s : String) : Prop :=
  (∀ c ∈ s.toList.head?, p c = false) ∧ ∀ c ∈ s.toList.getLast?, p c = false

instance (p : Char → Bool) (s : String) : Decidable (AllOf p s) :=
  decidable_of_iff (s.toList.all p = true) List.all_eq_true

instance (p : Char → Bool) (s : String) : Decidable (BareOf p s) :=
  decidable_of_iff ((s.toList.head?.all fun c => !p c) = true ∧
    (s.toList.getLast?.all fun c => !p c) = true) (by simp [BareOf, Option.all_eq_true])

theorem dropWhile_padded {cs a b : List Char} (ha : ∀ c ∈ a, p c = true)
    (hcs : ∀ c ∈ cs.head?, p c = false) (hne : cs ≠ []) :
    (a ++ cs ++ b).dropWhile p = cs ++ b := by
  obtain ⟨c, cs, rfl⟩ := List.exists_cons_of_ne_nil hne
  have hc : p c = false := hcs c rfl
  rw [List.append_assoc, List.dropWhile_append_of_pos ha, List.cons_append,
    List.dropWhile_cons_of_neg (by simp [hc])]

theorem trimChars_padded {cs a b : List Char} (ha : ∀ c ∈ a, p c = true)
    (hb : ∀ c ∈ b, p c = true) (hhead : ∀ c ∈ cs.head?, p c = false)
    (hlast : ∀ c ∈ cs.getLast?, p c = false) : trimChars p (a ++ cs ++ b) = cs := by
  rw [trimChars]
  by_cases hne : cs = []
  · subst hne
    rw [List.append_nil, List.dropWhile_append_of_pos ha, List.dropWhile_eq_nil_iff.mpr hb]
    rfl
  · have hrev : (b.reverse ++ cs.reverse ++ []).dropWhile p = cs.reverse ++ [] :=
      dropWhile_padded (by simpa using hb) (by simpa using hlast) (by simpa using hne)
    rw [dropWhile_padded ha hhead hne, List.reverse_append]
    rw [List.append_nil, List.append_nil] at hrev
    rw [hrev, List.reverse_reverse]

theorem exists_padded_chars (p : Char → Bool) (cs : List Char) : ∃ a b,
    (∀ c ∈ a, p c = true) ∧ (∀ c ∈ b, p c = true) ∧ cs = a ++ trimChars p cs ++ b := by
  refine ⟨cs.takeWhile p, (cs.dropWhile p).rtakeWhile p, fun c hc => List.mem_takeWhile_imp hc,
    fun c hc => List.mem_rtakeWhile_imp hc, ?_⟩
  have htrim : trimChars p cs = (cs.dropWhile p).rdropWhile p := rfl
  rw [htrim, List.append_assoc, List.rdropWhile_append_rtakeWhile, List.takeWhile_append_dropWhile]

theorem head?_trimChars {cs : List Char} {c : Char} (h : c ∈ (trimChars p cs).head?) :
    p c = false := by
  obtain ⟨rest, hrest⟩ : trimChars p cs <+: cs.dropWhile p := List.rdropWhile_prefix ..
  have hnot := List.head?_dropWhile_not p cs
  rw [← hrest, List.head?_append, h] at hnot
  exact hnot

theorem getLast?_trimChars {cs : List Char} {c : Char} (h : c ∈ (trimChars p cs).getLast?) :
    p c = false := by
  rw [trimChars, List.getLast?_reverse] at h
  have hnot := List.head?_dropWhile_not p (cs.dropWhile p).reverse
  rw [h] at hnot
  exact hnot

/-- What is around a bare text is taken away. -/
theorem trim_padded {a b : String} (ha : AllOf p a) (hb : AllOf p b) (hs : BareOf p s) :
    trim p (a ++ s ++ b) = s := by
  rw [trim, String.toList_append, String.toList_append, trimChars_padded ha hb hs.1 hs.2,
    String.ofList_toList]

/-- Nothing else is taken away. -/
theorem exists_padded (p : Char → Bool) (s : String) :
    ∃ a b, AllOf p a ∧ AllOf p b ∧ s = a ++ trim p s ++ b := by
  obtain ⟨a, b, ha, hb, hs⟩ := exists_padded_chars p s.toList
  refine ⟨.ofList a, .ofList b, ?_, ?_, ?_⟩
  · rwa [AllOf, String.toList_ofList]
  · rwa [AllOf, String.toList_ofList]
  · rw [trim, ← String.ofList_append, ← String.ofList_append, ← hs, String.ofList_toList]

theorem bareOf_trim (p : Char → Bool) (s : String) : BareOf p (trim p s) := by
  rw [BareOf, trim, String.toList_ofList]
  exact ⟨fun _ => head?_trimChars, fun _ => getLast?_trimChars⟩

end Scaffold.Text
