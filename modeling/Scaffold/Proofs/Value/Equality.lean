import Mathlib.Data.List.Forall2
import Scaffold.Value.Equality

/-! # Holding the same is an equivalence

`Value.same` is reflexive, symmetric and transitive through all nestings (`same_refl`, `same_symm`,
`same_trans`), and comparing equal does not tell the same values apart (`equal_left`). The lemmas
`same_*_iff` say of each kind of value what it is the same as; texts, truth values and tuples of
texts are the same only as themselves. -/

namespace Scaffold.Value

/-- A property that passes from what a value holds to the value holds of every value. -/
theorem induction {P : Value → Prop} (none : P .none) (bool : ∀ b, P (.bool b))
    (int : ∀ i, P (.int i)) (float : ∀ x, P (.float x)) (str : ∀ s, P (.str s))
    (list : ∀ vs, (∀ v ∈ vs, P v) → P (.list vs)) (tuple : ∀ vs, (∀ v ∈ vs, P v) → P (.tuple vs))
    (set : ∀ vs, (∀ v ∈ vs, P v) → P (.set vs))
    (dict : ∀ es : List (Value × Value), (∀ e ∈ es, P e.1 ∧ P e.2) → P (.dict es)) (v : Value) :
    P v :=
  Value.rec (motive_1 := P) (motive_2 := fun vs => ∀ v ∈ vs, P v)
    (motive_3 := fun es => ∀ e ∈ es, P e.1 ∧ P e.2) (motive_4 := fun e => P e.1 ∧ P e.2)
    none bool int float str list tuple set dict
    (by simp) (fun _ _ h hs => List.forall_mem_cons.mpr ⟨h, hs⟩)
    (by simp) (fun _ _ h hs => List.forall_mem_cons.mpr ⟨h, hs⟩)
    (fun _ _ h₁ h₂ => ⟨h₁, h₂⟩) v

/-! ### What a value is the same as -/

attribute [local simp] same sameInOrder sameTable sameEntryTable sameEntry

theorem sameInOrder_iff : ∀ {xs ys : List Value},
    sameInOrder xs ys = true ↔ List.Forall₂ (fun x y => same x y = true) xs ys
  | [], [] => by simp
  | [], _ :: _ => by simp
  | _ :: _, [] => by simp
  | x :: xs, y :: ys => by
    rw [sameInOrder, Bool.and_eq_true, sameInOrder_iff, List.forall₂_cons]

theorem same_none_iff {w : Value} : same .none w = true ↔ w = .none := by
  cases w <;> simp [sameNumber, number?]

theorem same_str_iff {s : String} {w : Value} : same (.str s) w = true ↔ w = .str s := by
  cases w with
  | str t => rw [same, beq_iff_eq, str.injEq, eq_comm]
  | _ => simp [sameNumber, number?]

theorem same_number_iff {v w : Value} {m : Number} (h : v.number? = some m) :
    same v w = true ↔ w.number? = some m := by
  have hs : same v w = sameNumber v w := by cases v <;> simp_all [number?]
  rw [hs, sameNumber, h]
  cases w.number? with
  | none => simp
  | some n => rw [beq_iff_eq, Option.some.injEq, eq_comm]

theorem same_list_iff {xs : List Value} {w : Value} : same (.list xs) w = true ↔
    ∃ ys, w = .list ys ∧ List.Forall₂ (fun x y => same x y = true) xs ys := by
  cases w <;> simp [sameNumber, number?, sameInOrder_iff]

theorem same_tuple_iff {xs : List Value} {w : Value} : same (.tuple xs) w = true ↔
    ∃ ys, w = .tuple ys ∧ List.Forall₂ (fun x y => same x y = true) xs ys := by
  cases w <;> simp [sameNumber, number?, sameInOrder_iff]

theorem same_set_iff {xs : List Value} {w : Value} : same (.set xs) w = true ↔
    ∃ ys, w = .set ys ∧ (∀ x ∈ xs, ∃ y ∈ ys, same x y = true) ∧
      ∀ y ∈ ys, ∃ x ∈ xs, same x y = true := by
  cases w <;> simp [sameNumber, number?, sameTable_eq_map, coversBoth_map]

theorem sameEntry_iff {e f : Value × Value} :
    sameEntry e f = true ↔ same e.1 f.1 = true ∧ same e.2 f.2 = true := by
  obtain ⟨k, v⟩ := e
  rw [sameEntry, Bool.and_eq_true]

theorem same_dict_iff {es : List (Value × Value)} {w : Value} : same (.dict es) w = true ↔
    ∃ fs, w = .dict fs ∧
      (∀ e ∈ es, ∃ f ∈ fs, same e.1 f.1 = true ∧ same e.2 f.2 = true) ∧
      ∀ f ∈ fs, ∃ e ∈ es, same e.1 f.1 = true ∧ same e.2 f.2 = true := by
  cases w
  case dict fs =>
    rw [same, sameEntryTable_eq_map, coversBoth_map]
    simp only [sameEntry_iff, dict.injEq, exists_eq_left']
  all_goals simp [sameNumber, number?]

/-! ### The equivalence -/

theorem same_refl (v : Value) : same v v = true := by
  induction v using Value.induction with
  | none => exact same_none_iff.mpr rfl
  | bool b => exact (same_number_iff rfl).mpr rfl
  | int i => exact (same_number_iff rfl).mpr rfl
  | float x => exact (same_number_iff rfl).mpr rfl
  | str s => exact same_str_iff.mpr rfl
  | list vs ih => exact same_list_iff.mpr ⟨vs, rfl, List.forall₂_same.mpr ih⟩
  | tuple vs ih => exact same_tuple_iff.mpr ⟨vs, rfl, List.forall₂_same.mpr ih⟩
  | set vs ih =>
    exact same_set_iff.mpr ⟨vs, rfl, fun v hv => ⟨v, hv, ih v hv⟩, fun v hv => ⟨v, hv, ih v hv⟩⟩
  | dict es ih =>
    exact same_dict_iff.mpr ⟨es, rfl, fun e he => ⟨e, he, ih e he⟩, fun e he => ⟨e, he, ih e he⟩⟩

theorem forall₂_same_symm {vs ws : List Value}
    (ih : ∀ v ∈ vs, ∀ w, same v w = true → same w v = true)
    (h : List.Forall₂ (fun v w => same v w = true) vs ws) :
    List.Forall₂ (fun v w => same v w = true) ws vs := by
  induction h with
  | nil => exact .nil
  | cons h _ iht =>
    exact .cons (ih _ (by simp) _ h) (iht fun v hv => ih v (List.mem_cons_of_mem _ hv))

theorem same_symm {v w : Value} (h : same v w = true) : same w v = true := by
  induction v using Value.induction generalizing w with
  | none => rw [same_none_iff.mp h]; exact same_refl _
  | bool b => exact (same_number_iff ((same_number_iff rfl).mp h)).mpr rfl
  | int i => exact (same_number_iff ((same_number_iff rfl).mp h)).mpr rfl
  | float x => exact (same_number_iff ((same_number_iff rfl).mp h)).mpr rfl
  | str s => rw [same_str_iff.mp h]; exact same_refl _
  | list vs ih =>
    obtain ⟨ws, rfl, hws⟩ := same_list_iff.mp h
    exact same_list_iff.mpr ⟨vs, rfl, forall₂_same_symm (fun v hv w => ih v hv) hws⟩
  | tuple vs ih =>
    obtain ⟨ws, rfl, hws⟩ := same_tuple_iff.mp h
    exact same_tuple_iff.mpr ⟨vs, rfl, forall₂_same_symm (fun v hv w => ih v hv) hws⟩
  | set vs ih =>
    obtain ⟨ws, rfl, hvw, hwv⟩ := same_set_iff.mp h
    refine same_set_iff.mpr ⟨vs, rfl, fun w hw => ?_, fun v hv => ?_⟩
    · obtain ⟨v, hv, h⟩ := hwv w hw
      exact ⟨v, hv, ih v hv h⟩
    · obtain ⟨w, hw, h⟩ := hvw v hv
      exact ⟨w, hw, ih v hv h⟩
  | dict es ih =>
    obtain ⟨fs, rfl, hef, hfe⟩ := same_dict_iff.mp h
    refine same_dict_iff.mpr ⟨es, rfl, fun f hf => ?_, fun e he => ?_⟩
    · obtain ⟨e, he, h₁, h₂⟩ := hfe f hf
      exact ⟨e, he, (ih e he).1 h₁, (ih e he).2 h₂⟩
    · obtain ⟨f, hf, h₁, h₂⟩ := hef e he
      exact ⟨f, hf, (ih e he).1 h₁, (ih e he).2 h₂⟩

theorem forall₂_same_trans {us vs ws : List Value}
    (ih : ∀ u ∈ us, ∀ v w, same u v = true → same v w = true → same u w = true)
    (h : List.Forall₂ (fun u v => same u v = true) us vs)
    (h' : List.Forall₂ (fun v w => same v w = true) vs ws) :
    List.Forall₂ (fun u w => same u w = true) us ws := by
  induction h generalizing ws with
  | nil => exact h'
  | cons h _ iht =>
    cases h' with
    | cons h' ht' =>
      exact .cons (ih _ (by simp) _ _ h h')
        (iht (fun u hu => ih u (List.mem_cons_of_mem _ hu)) ht')

theorem same_trans {u v w : Value} (h : same u v = true) (h' : same v w = true) :
    same u w = true := by
  induction u using Value.induction generalizing v w with
  | none => rwa [same_none_iff.mp h] at h'
  | bool b =>
    have hv := (same_number_iff rfl).mp h
    exact (same_number_iff rfl).mpr ((same_number_iff hv).mp h')
  | int i =>
    have hv := (same_number_iff rfl).mp h
    exact (same_number_iff rfl).mpr ((same_number_iff hv).mp h')
  | float x =>
    have hv := (same_number_iff rfl).mp h
    exact (same_number_iff rfl).mpr ((same_number_iff hv).mp h')
  | str s => rwa [same_str_iff.mp h] at h'
  | list us ih =>
    obtain ⟨vs, rfl, hvs⟩ := same_list_iff.mp h
    obtain ⟨ws, rfl, hws⟩ := same_list_iff.mp h'
    exact same_list_iff.mpr ⟨ws, rfl, forall₂_same_trans (fun u hu v w => ih u hu) hvs hws⟩
  | tuple us ih =>
    obtain ⟨vs, rfl, hvs⟩ := same_tuple_iff.mp h
    obtain ⟨ws, rfl, hws⟩ := same_tuple_iff.mp h'
    exact same_tuple_iff.mpr ⟨ws, rfl, forall₂_same_trans (fun u hu v w => ih u hu) hvs hws⟩
  | set us ih =>
    obtain ⟨vs, rfl, huv, hvu⟩ := same_set_iff.mp h
    obtain ⟨ws, rfl, hvw, hwv⟩ := same_set_iff.mp h'
    refine same_set_iff.mpr ⟨ws, rfl, fun u hu => ?_, fun w hw => ?_⟩
    · obtain ⟨v, hv, h₁⟩ := huv u hu
      obtain ⟨w, hw, h₂⟩ := hvw v hv
      exact ⟨w, hw, ih u hu h₁ h₂⟩
    · obtain ⟨v, hv, h₂⟩ := hwv w hw
      obtain ⟨u, hu, h₁⟩ := hvu v hv
      exact ⟨u, hu, ih u hu h₁ h₂⟩
  | dict es ih =>
    obtain ⟨fs, rfl, hef, hfe⟩ := same_dict_iff.mp h
    obtain ⟨gs, rfl, hfg, hgf⟩ := same_dict_iff.mp h'
    refine same_dict_iff.mpr ⟨gs, rfl, fun e he => ?_, fun g hg => ?_⟩
    · obtain ⟨f, hf, h₁, h₂⟩ := hef e he
      obtain ⟨g, hg, h₃, h₄⟩ := hfg f hf
      exact ⟨g, hg, (ih e he).1 h₁ h₃, (ih e he).2 h₂ h₄⟩
    · obtain ⟨f, hf, h₃, h₄⟩ := hgf g hg
      obtain ⟨e, he, h₁, h₂⟩ := hfe f hf
      exact ⟨e, he, (ih e he).1 h₁ h₃, (ih e he).2 h₂ h₄⟩

/-! ### Comparing equal -/

theorem isNaN_iff {v : Value} : v.isNaN = true ↔ v.number? = some .nan := by
  cases v with
  | float x =>
    have hx : x.isNaN = true → x.isFinite = false := by
      simp only [Binary64.isNaN, Binary64.isFinite, Bool.and_eq_true, beq_iff_eq]
      rintro ⟨h, -⟩
      simp [h]
    simp only [isNaN, number?, numberOf, Option.some.injEq]
    cases hf : x.isFinite <;> cases hn : x.isNaN <;> simp_all
  | _ => simp [isNaN, number?]

theorem isNaN_eq_of_same {v w : Value} (h : same v w = true) : v.isNaN = w.isNaN := by
  rw [Bool.eq_iff_iff, isNaN_iff, isNaN_iff]
  exact ⟨fun hv => (same_number_iff hv).mp h, fun hw => (same_number_iff hw).mp (same_symm h)⟩

theorem equal_iff {v w : Value} : equal v w = true ↔ v.isNaN = false ∧ same v w = true := by
  simp [equal]

theorem same_of_equal {v w : Value} (h : equal v w = true) : same v w = true := (equal_iff.mp h).2

theorem equal_self_iff {v : Value} : equal v v = true ↔ v.isNaN = false := by
  rw [equal_iff]
  exact and_iff_left (same_refl v)

theorem equal_symm {v w : Value} (h : equal v w = true) : equal w v = true := by
  obtain ⟨hn, hs⟩ := equal_iff.mp h
  exact equal_iff.mpr ⟨isNaN_eq_of_same hs ▸ hn, same_symm hs⟩

/-- The same values compare equal to the same values. -/
theorem equal_left {u v : Value} (h : same u v = true) (w : Value) : equal u w = equal v w := by
  rw [Bool.eq_iff_iff, equal_iff, equal_iff, isNaN_eq_of_same h]
  exact and_congr_right fun _ => ⟨same_trans (same_symm h), same_trans h⟩

/-! ### Values that are the same only as themselves -/

theorem eq_of_same_bool {a b : Bool} (h : same (.bool a) (.bool b) = true) : a = b := by
  have := (same_number_iff (m := .rational (if a then 1 else 0)) rfl).mp h
  cases a <;> cases b <;> simp_all [number?]

theorem eq_of_forall₂_same_str {ss ts : List String}
    (h : List.Forall₂ (fun v w => same v w = true) (ss.map .str) (ts.map .str)) : ss = ts := by
  induction ss generalizing ts with
  | nil => cases ts <;> simp_all
  | cons s ss ih =>
    cases ts with
    | nil => simp at h
    | cons t ts =>
      obtain ⟨hs, ht⟩ := List.forall₂_cons.mp h
      rw [ih ht, str.inj (same_str_iff.mp hs)]

end Scaffold.Value
