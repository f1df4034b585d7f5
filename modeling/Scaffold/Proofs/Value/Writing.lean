import Mathlib.Algebra.Order.Field.Basic
import Mathlib.Algebra.Order.Ring.Unbundled.Rat
import Mathlib.Tactic.Positivity
import Scaffold.Fault
import Scaffold.Proofs.Value.Equality

/-! # Values that can be written

A value can be written unless it holds an integer of too many digits (`writable_int_iff`). A fault
that is told with the text of a value, or with the texts of two, comes about if these can be
written; otherwise it is that a value is too long (`Fault.flawAbout_cases`,
`Fault.differing_cases`). What holds the same as a value that can be written can be written
(`Value.Writable.of_same`): no binary fraction is as large as an integer that cannot be. -/

namespace Scaffold

/-! ### Binary fractions -/

namespace Binary64

theorem significand_lt (x : Binary64) : x.significand < 2 ^ 53 := by
  have hpow : Nat.pow 2 52 = 4503599627370496 := rfl
  have hfraction : x.fraction < 4503599627370496 := Nat.mod_lt _ (by decide)
  unfold significand
  split <;> omega

theorem exponent_le (x : Binary64) : x.exponent ≤ 972 := by
  have hbiased : x.biased < 2048 := Nat.mod_lt _ (by decide)
  unfold exponent
  omega

theorem magnitude_nonneg (x : Binary64) : 0 ≤ x.magnitude := by
  unfold magnitude
  positivity

/-- A binary fraction has fewer digits before the point than an integer may have. -/
theorem magnitude_lt (x : Binary64) : x.magnitude < (10 ^ Text.mostDigits : Nat) := by
  have hdigits : 53 + x.exponent.toNat ≤ Text.mostDigits := by
    have hexponent := x.exponent_le
    unfold Text.mostDigits
    omega
  have hnumerator : x.significand * Nat.pow 2 x.exponent.toNat < 10 ^ Text.mostDigits :=
    calc x.significand * 2 ^ x.exponent.toNat
        < 2 ^ 53 * 2 ^ x.exponent.toNat :=
          Nat.mul_lt_mul_of_pos_right x.significand_lt (Nat.two_pow_pos _)
      _ = 2 ^ (53 + x.exponent.toNat) := (Nat.pow_add 2 53 _).symm
      _ ≤ 10 ^ (53 + x.exponent.toNat) := Nat.pow_le_pow_left (by decide) _
      _ ≤ 10 ^ Text.mostDigits := Nat.pow_le_pow_right (by decide) hdigits
  have hdivisor : (1 : Rat) ≤ (Nat.pow 2 (-x.exponent).toNat : Nat) :=
    Nat.one_le_cast.mpr (Nat.one_le_two_pow)
  calc x.magnitude
      ≤ x.significand * (Nat.pow 2 x.exponent.toNat : Nat) :=
        div_le_self (mul_nonneg (Nat.cast_nonneg _) (Nat.cast_nonneg _)) hdivisor
    _ = (x.significand * Nat.pow 2 x.exponent.toNat : Nat) := (Nat.cast_mul _ _).symm
    _ < (10 ^ Text.mostDigits : Nat) := Nat.cast_lt.mpr hnumerator

/-- An integer that a binary fraction is equal to can be written. -/
theorem natAbs_lt_of_toRat_eq {x : Binary64} {i : Int} (h : x.toRat = i) :
    i.natAbs < 10 ^ Text.mostDigits := by
  have habs : ((i.natAbs : Nat) : Rat) = x.magnitude := by
    rw [Nat.cast_natAbs, Int.cast_abs, ← h, toRat]
    split
    · rw [abs_neg, abs_of_nonneg x.magnitude_nonneg]
    · rw [abs_of_nonneg x.magnitude_nonneg]
  exact Nat.cast_lt.mp (habs.trans_lt x.magnitude_lt)

end Binary64

/-! ### Values -/

/-- The integers that can be written are those of at most `mostDigits` digits. -/
theorem Text.isSome_decimal?_iff {i : Int} :
    (decimal? i).isSome = true ↔ i.natAbs < 10 ^ mostDigits :=
  Option.isSome_ite.trans (Nat.length_toDigits_le_iff (by decide) (by decide))

namespace Value

/-- The value has a text. -/
def Writable (v : Value) : Prop := v.repr?.isSome = true

theorem writable_int_iff {i : Int} : (int i).Writable ↔ i.natAbs < 10 ^ Text.mostDigits :=
  Text.isSome_decimal?_iff

@[simp]
theorem writable_none : Value.none.Writable := rfl

@[simp]
theorem writable_bool (b : Bool) : (bool b).Writable := by cases b <;> rfl

@[simp]
theorem writable_float (x : Binary64) : (float x).Writable := rfl

@[simp]
theorem writable_str (s : String) : (str s).Writable := rfl

theorem isSome_reprs? : ∀ {vs : List Value}, (reprs? vs).isSome = true ↔ ∀ v ∈ vs, v.Writable
  | [] => by simp [reprs?]
  | v :: vs => by
    rw [List.forall_mem_cons, ← isSome_reprs?, Writable, reprs?]
    cases v.repr? <;> cases reprs? vs <;> simp

@[simp]
theorem writable_list {vs : List Value} : (list vs).Writable ↔ ∀ v ∈ vs, v.Writable := by
  rw [Writable, repr?, Option.isSome_map, isSome_reprs?]

@[simp]
theorem writable_tuple {vs : List Value} : (tuple vs).Writable ↔ ∀ v ∈ vs, v.Writable := by
  rw [Writable, repr?, Option.isSome_map, isSome_reprs?]

@[simp]
theorem writable_set {vs : List Value} : (set vs).Writable ↔ ∀ v ∈ vs, v.Writable := by
  cases vs with
  | nil => simp [Writable, repr?]
  | cons v vs => rw [Writable, repr?, Option.isSome_map, isSome_reprs?]; exact List.cons_ne_nil _ _

theorem isSome_reprEntries? : ∀ {es : List (Value × Value)},
    (reprEntries? es).isSome = true ↔ ∀ e ∈ es, e.1.Writable ∧ e.2.Writable
  | [] => by simp [reprEntries?]
  | (k, v) :: es => by
    rw [List.forall_mem_cons, ← isSome_reprEntries?, Writable, Writable, reprEntries?, reprEntry?]
    cases k.repr? <;> cases v.repr? <;> cases reprEntries? es <;> simp

@[simp]
theorem writable_dict {es : List (Value × Value)} :
    (dict es).Writable ↔ ∀ e ∈ es, e.1.Writable ∧ e.2.Writable := by
  rw [Writable, repr?, Option.isSome_map, isSome_reprEntries?]

/-- The least integer that is too long to be written. -/
def long : Value := .int (10 ^ Text.mostDigits : Nat)

theorem not_writable_long : ¬ long.Writable := by
  rw [long, writable_int_iff, Int.natAbs_natCast]
  exact Nat.lt_irrefl _

theorem repr?_long : long.repr? = .none := by simpa [Writable] using not_writable_long

theorem writable_of_isNaN {v : Value} (h : v.isNaN = true) : v.Writable := by
  cases v with
  | float x => exact writable_float x
  | _ => cases h

/-! What holds the same can be written alike. -/

/-- Of the values that stand for a number, those for a long integer cannot be written. -/
theorem writable_iff_of_number {v : Value} {n : Number} (h : v.number? = some n) :
    v.Writable ↔ ∀ i : Int, n = .rational i → i.natAbs < 10 ^ Text.mostDigits := by
  cases v with
  | bool b =>
    obtain rfl := Option.some.inj h
    have hone : 1 < 10 ^ Text.mostDigits := Nat.one_lt_pow (by decide) (by decide)
    refine iff_of_true (writable_bool b) fun i hi => ?_
    have hi := Number.rational.inj hi
    cases b with
    | false =>
      obtain rfl : i = 0 := Rat.intCast_inj.mp hi.symm
      exact Nat.zero_lt_of_lt hone
    | true =>
      obtain rfl : i = 1 := Rat.intCast_inj.mp hi.symm
      exact hone
  | int i =>
    obtain rfl := Option.some.inj h
    rw [writable_int_iff]
    refine ⟨fun hi j hj => ?_, fun hi => hi i rfl⟩
    rwa [← Rat.intCast_inj.mp (Number.rational.inj hj)]
  | float x =>
    obtain rfl := Option.some.inj h
    refine iff_of_true (writable_float x) fun i hi => ?_
    unfold numberOf at hi
    split_ifs at hi
    exact Binary64.natAbs_lt_of_toRat_eq (Number.rational.inj hi)
  | _ => cases h

theorem writable_of_same_number {v w : Value} {n : Number} (hn : v.number? = some n)
    (h : same v w = true) (hv : v.Writable) : w.Writable := by
  rw [writable_iff_of_number ((same_number_iff hn).mp h)]
  exact (writable_iff_of_number hn).mp hv

theorem forall_writable_of_same {vs ws : List Value}
    (ih : ∀ v ∈ vs, ∀ w, same v w = true → v.Writable → w.Writable)
    (h : List.Forall₂ (fun v w => same v w = true) vs ws) (hvs : ∀ v ∈ vs, v.Writable) :
    ∀ w ∈ ws, w.Writable := by
  induction h with
  | nil => simp
  | cons h _ iht =>
    rw [List.forall_mem_cons] at ih hvs ⊢
    exact ⟨ih.1 _ h hvs.1, iht ih.2 hvs.2⟩

/-- **What holds the same as a value that can be written can be written.** -/
theorem Writable.of_same {v w : Value} (h : same v w = true) (hv : v.Writable) : w.Writable := by
  induction v using Value.induction generalizing w with
  | none => exact same_none_iff.mp h ▸ hv
  | str s => exact same_str_iff.mp h ▸ hv
  | bool | int | float => exact writable_of_same_number rfl h hv
  | list vs ih =>
    obtain ⟨ws, rfl, hws⟩ := same_list_iff.mp h
    exact writable_list.mpr (forall_writable_of_same (fun v hv w => ih v hv) hws
      (writable_list.mp hv))
  | tuple vs ih =>
    obtain ⟨ws, rfl, hws⟩ := same_tuple_iff.mp h
    exact writable_tuple.mpr (forall_writable_of_same (fun v hv w => ih v hv) hws
      (writable_tuple.mp hv))
  | set vs ih =>
    obtain ⟨ws, rfl, -, hws⟩ := same_set_iff.mp h
    rw [writable_set] at hv ⊢
    intro w hw
    obtain ⟨v, hmem, hsame⟩ := hws w hw
    exact ih v hmem hsame (hv v hmem)
  | dict es ih =>
    obtain ⟨fs, rfl, -, hfs⟩ := same_dict_iff.mp h
    rw [writable_dict] at hv ⊢
    intro f hf
    obtain ⟨e, he, hkey, hvalue⟩ := hfs f hf
    exact ⟨(ih e he).1 hkey (hv e he).1, (ih e he).2 hvalue (hv e he).2⟩

theorem not_equal_long {v : Value} (h : v.Writable) : equal v long = false :=
  Bool.eq_false_iff.mpr fun hequal => not_writable_long (h.of_same (same_of_equal hequal))

end Value

/-! ### Faults -/

namespace Fault

theorem flawAbout_cases (text : Option String) (flaw : String → Flaw) :
    (∃ t, text = some t ∧ flawAbout text flaw = .flaw (flaw t)) ∨
      (text = none ∧ flawAbout text flaw = .oversized) := by
  cases text with
  | none => exact .inr ⟨rfl, rfl⟩
  | some t => exact .inl ⟨t, rfl, rfl⟩

theorem differing_cases (report : String → String → DataFault) (u v : Value) :
    (∃ s t, u.repr? = some s ∧ v.repr? = some t ∧ differing report u v = .data (report s t)) ∨
      (¬(u.Writable ∧ v.Writable) ∧ differing report u v = .oversized) := by
  unfold differing Value.Writable
  cases u.repr? <;> cases v.repr? <;> simp

theorem differing_ne_oversized {report : String → String → DataFault} {u v : Value}
    (hu : u.Writable) (hv : v.Writable) : differing report u v ≠ .oversized := by
  rcases differing_cases report u v with ⟨s, t, -, -, h⟩ | ⟨hnot, -⟩
  · rw [h]
    exact Fault.noConfusion
  · exact absurd ⟨hu, hv⟩ hnot

end Fault

end Scaffold
