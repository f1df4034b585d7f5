import Mathlib.Tactic.SplitIfs
import Scaffold.Answer
import Scaffold.Branch
import Scaffold.Proofs.Outcome
import Scaffold.Proofs.Value.Equality
import Scaffold.Proofs.Value.Writing

/-! # Normal answers

An answer is normal when it is a text, a truth value, one of the choices, or a tuple of choices
without repetition, as the kind of its question asks. Coercion gives normal answers
(`coerceForm_normal`, `normal_of_coerce`) and leaves them as they are (`coerceForm_of_normal`,
`coerce_of_normal`); no two different ones are the same (`IsNormal.eq_of_same`). What becomes an
answer can be written (`writable_of_coerce`), and so can the answer (`IsNormal.writable`). A normal
answer selects a branch (`Branch.exists_ofAnswer`). -/

namespace Scaffold.Answer

/-- The value is in the normal form of the answers of a kind. -/
def IsNormal (kind : AnswerKind) (choices : List Value) (v : Value) : Prop :=
  match kind with
  | .text => ∃ s, v = .str s
  | .boolean => ∃ b, v = .bool b
  | .enum => ∃ s, v = .str s ∧ (Value.str s).among choices = true
  | .list => ∃ ss : List String, v = .tuple (ss.map .str) ∧ ss.Nodup ∧
      ∀ s ∈ ss, (Value.str s).among choices = true

/-- The value is a normal answer to the question at a node. -/
def IsNormalAt (n : Node) (v : Value) : Prop :=
  ∃ q, Node.question? n = some q ∧ q.form.isConcrete = true ∧
    IsNormal q.form.kind (Node.choices n) v

/-! ### Coercion -/

theorem isChoice_iff {choices : List Value} {v : Value} : isChoice choices v = true ↔
    ∃ s, v = .str s ∧ (Value.str s).among choices = true := by
  cases v <;> simp [isChoice]

theorem among_map_str {s : String} {ss : List String} :
    (Value.str s).among (ss.map .str) = true ↔ s ∈ ss := by
  simp only [Value.among, List.any_map, List.any_eq_true, Function.comp_apply, Value.equal_iff,
    Value.same_str_iff, Value.str.injEq]
  exact ⟨fun ⟨t, ht, _, h⟩ => h ▸ ht, fun h => ⟨s, h, rfl, rfl⟩⟩

theorem coerceItems_ok {choices : List Value} : ∀ {vs : List Value} {kept : List String}
    {ws : List Value}, kept.Nodup → (∀ s ∈ kept, (Value.str s).among choices = true) →
    coerceItems choices (kept.map .str) vs = .ok ws →
    ∃ ss : List String, ws = ss.map .str ∧ ss.Nodup ∧
      ∀ s ∈ ss, (Value.str s).among choices = true
  | [], kept, ws, hnd, hch, h => by
    rw [coerceItems, Except.ok.injEq] at h
    exact ⟨kept, h.symm, hnd, hch⟩
  | v :: vs, kept, ws, hnd, hch, h => by
    rw [coerceItems] at h
    split at h
    next hv =>
      obtain ⟨s, rfl, hs⟩ := isChoice_iff.mp hv
      by_cases hk : s ∈ kept
      · rw [if_pos (among_map_str.mpr hk)] at h
        exact coerceItems_ok hnd hch h
      · rw [if_neg (fun ha => hk (among_map_str.mp ha))] at h
        have hnd' : (kept ++ [s]).Nodup := by
          rw [List.nodup_append]
          refine ⟨hnd, by simp, fun t ht t' ht' => ?_⟩
          rw [List.mem_singleton.mp ht']
          rintro rfl
          exact hk ht
        refine coerceItems_ok hnd' (fun t ht => ?_) (by simpa using h)
        rcases List.mem_append.mp ht with ht | ht
        · exact hch t ht
        · rw [List.mem_singleton.mp ht]; exact hs
    next => cases h

theorem coerceText_normal {choices : List Value} {v w : Value} (h : coerceText v = .ok w) :
    IsNormal .text choices w := by
  cases v <;> simp only [coerceText, reduceCtorEq, Except.ok.injEq] at h
  case int =>
    split at h
    · exact ⟨_, (Except.ok.inj h).symm⟩
    · cases h
  case float => exact ⟨_, h.symm⟩
  case str => exact ⟨_, h.symm⟩

theorem coerceBoolean_normal {choices : List Value} {v w : Value} (h : coerceBoolean v = .ok w) :
    IsNormal .boolean choices w := by
  cases v <;> simp only [coerceBoolean, reduceCtorEq, Except.ok.injEq] at h
  case bool => exact ⟨_, h.symm⟩
  case str =>
    split_ifs at h
    · exact ⟨_, (Except.ok.inj h).symm⟩
    · exact ⟨_, (Except.ok.inj h).symm⟩

theorem coerceChoice_normal {choices : List Value} {v w : Value}
    (h : coerceChoice choices v = .ok w) : IsNormal .enum choices w := by
  unfold coerceChoice at h
  split_ifs at h with hc
  rw [← Except.ok.inj h]
  exact isChoice_iff.mp hc

theorem coerceList_normal {choices : List Value} {v w : Value}
    (h : coerceList choices v = .ok w) : IsNormal .list choices w := by
  have hitems : ∀ {vs : List Value}, (coerceItems choices [] vs).map Value.tuple = .ok w →
      IsNormal .list choices w := by
    intro vs h
    obtain ⟨ws, hws, rfl⟩ := Fallible.map_ok.mp h
    rw [← List.map_nil (f := Value.str)] at hws
    obtain ⟨ss, rfl, hss⟩ := coerceItems_ok List.nodup_nil (by simp) hws
    exact ⟨ss, rfl, hss⟩
  cases v <;> simp only [coerceList, reduceCtorEq] at h <;> exact hitems h

theorem coerceForm_normal {form : Form} {choices : List Value} {v w : Value}
    (h : coerceForm form choices v = .ok w) : IsNormal form.kind choices w := by
  unfold coerceForm at h
  cases hk : form.kind <;> simp only [hk] at h
  · exact coerceText_normal h
  · exact coerceBoolean_normal h
  · exact coerceChoice_normal h
  · exact coerceList_normal h

theorem normal_of_coerce {n : Node} {v w : Value} {path : String} (h : coerce n v path = .ok w) :
    IsNormalAt n w := by
  unfold coerce at h
  split at h
  next q hq =>
    split at h
    next hc => exact ⟨q, hq, hc, coerceForm_normal (Fallible.mapError_ok.mp h)⟩
    next => cases h
  next => cases h

theorem writable_of_coerceItems {choices : List Value} : ∀ {vs kept ws : List Value},
    coerceItems choices kept vs = .ok ws → ∀ v ∈ vs, v.Writable
  | [], _, _, _ => by simp
  | v :: vs, kept, ws, h => by
    rw [coerceItems] at h
    split at h
    next hv =>
      obtain ⟨s, rfl, -⟩ := isChoice_iff.mp hv
      exact List.forall_mem_cons.mpr ⟨Value.writable_str s, writable_of_coerceItems h⟩
    next => cases h

theorem writable_of_coerceForm {form : Form} {choices : List Value} {v w : Value}
    (h : coerceForm form choices v = .ok w) : v.Writable := by
  unfold coerceForm at h
  cases hk : form.kind <;> simp only [hk] at h
  case text =>
    cases v <;> simp only [coerceText, reduceCtorEq] at h
    case int =>
      split at h
      next s hs => exact Option.isSome_of_eq_some hs
      next => cases h
    all_goals simp
  case boolean =>
    cases v <;> simp only [coerceBoolean, reduceCtorEq] at h
    all_goals simp
  case enum =>
    unfold coerceChoice at h
    split_ifs at h with hc
    obtain ⟨s, rfl, -⟩ := isChoice_iff.mp hc
    exact Value.writable_str s
  case list =>
    cases v <;> simp only [coerceList, reduceCtorEq] at h
    case str => simp
    all_goals
      obtain ⟨ws, hws, -⟩ := Fallible.map_ok.mp h
      simpa using writable_of_coerceItems hws

/-- A value that becomes an answer can be written. -/
theorem writable_of_coerce {n : Node} {v w : Value} {path : String} (h : coerce n v path = .ok w) :
    v.Writable := by
  unfold coerce at h
  split at h
  · split at h
    · exact writable_of_coerceForm (Fallible.mapError_ok.mp h)
    · cases h
  · cases h

/-- A value that is no answer to a concrete question is a fault of the data. -/
theorem mismatch_of_coerce {n : Node} {q : Question} (hq : Node.question? n = some q)
    (hc : q.form.isConcrete = true) {v : Value} {path : String} {f : Fault}
    (h : coerce n v path = .error f) : ∃ m, f = .data (.mismatch m) := by
  rw [coerce, hq] at h
  simp only [hc, if_true] at h
  obtain ⟨reason, -, rfl⟩ := Fallible.mapError_error.mp h
  exact ⟨_, rfl⟩

/-! ### Normal answers -/

/-- Choices without repetition are kept as they are. -/
theorem coerceItems_of_nodup {choices : List Value} : ∀ {ss kept : List String},
    (kept ++ ss).Nodup → (∀ s ∈ ss, (Value.str s).among choices = true) →
    coerceItems choices (kept.map .str) (ss.map .str) = .ok ((kept ++ ss).map .str)
  | [], kept, _, _ => by rw [List.map_nil, coerceItems, List.append_nil]
  | s :: ss, kept, hnd, hch => by
    have hs : s ∉ kept := fun hk => (List.nodup_append.mp hnd).2.2 s hk s (by simp) rfl
    have hkept : kept.map Value.str ++ [.str s] = (kept ++ [s]).map .str := by simp
    rw [List.append_cons] at hnd ⊢
    rw [List.map_cons, coerceItems, if_pos (isChoice_iff.mpr ⟨s, rfl, hch s (by simp)⟩),
      if_neg (fun ha => hs (among_map_str.mp ha)), hkept]
    exact coerceItems_of_nodup hnd fun t ht => hch t (by simp [ht])

/-- **A normal answer is left as it is.** -/
theorem coerceForm_of_normal {form : Form} {choices : List Value} {v : Value}
    (h : IsNormal form.kind choices v) : coerceForm form choices v = .ok v := by
  unfold coerceForm
  cases hk : form.kind <;> rw [hk] at h
  case text => obtain ⟨s, rfl⟩ := h; rfl
  case boolean => obtain ⟨b, rfl⟩ := h; rfl
  case enum => exact if_pos (isChoice_iff.mpr h)
  case list =>
    obtain ⟨ss, rfl, hnd, hch⟩ := h
    have hitems : coerceItems choices (List.map .str []) (ss.map .str) = .ok (ss.map .str) :=
      coerceItems_of_nodup hnd hch
    exact Fallible.map_ok.mpr ⟨_, hitems, rfl⟩

theorem coerce_of_normal {n : Node} {v : Value} (h : IsNormalAt n v) (path : String) :
    coerce n v path = .ok v := by
  obtain ⟨q, hq, hc, hv⟩ := h
  rw [coerce, hq]
  simp only [hc, if_true, coerceForm_of_normal hv]
  rfl

theorem IsNormal.not_isNaN {kind : AnswerKind} {choices : List Value} {v : Value}
    (h : IsNormal kind choices v) : v.isNaN = false := by
  cases kind with
  | text => obtain ⟨s, rfl⟩ := h; rfl
  | boolean => obtain ⟨b, rfl⟩ := h; rfl
  | enum => obtain ⟨s, rfl, -⟩ := h; rfl
  | list => obtain ⟨ss, rfl, -⟩ := h; rfl

theorem IsNormal.writable {kind : AnswerKind} {choices : List Value} {v : Value}
    (h : IsNormal kind choices v) : v.Writable := by
  cases kind with
  | text => obtain ⟨s, rfl⟩ := h; exact Value.writable_str s
  | boolean => obtain ⟨b, rfl⟩ := h; exact Value.writable_bool b
  | enum => obtain ⟨s, rfl, -⟩ := h; exact Value.writable_str s
  | list => obtain ⟨ss, rfl, -⟩ := h; simp

theorem IsNormal.eq_of_same {kind : AnswerKind} {choices choices' : List Value} {v w : Value}
    (hv : IsNormal kind choices v) (hw : IsNormal kind choices' w)
    (h : Value.same v w = true) : v = w := by
  cases kind with
  | text => obtain ⟨s, rfl⟩ := hv; exact (Value.same_str_iff.mp h).symm
  | boolean =>
    obtain ⟨b, rfl⟩ := hv
    obtain ⟨c, rfl⟩ := hw
    rw [Value.eq_of_same_bool h]
  | enum => obtain ⟨s, rfl, -⟩ := hv; exact (Value.same_str_iff.mp h).symm
  | list =>
    obtain ⟨ss, rfl, -⟩ := hv
    obtain ⟨ts, rfl, -⟩ := hw
    obtain ⟨ys, hys, hall⟩ := Value.same_tuple_iff.mp h
    rw [← Value.tuple.inj hys] at hall
    rw [Value.eq_of_forall₂_same_str hall]

end Scaffold.Answer

namespace Scaffold.Branch

theorem allHashable_map_str (ss : List String) : Value.allHashable (ss.map .str) = true := by
  induction ss with
  | nil => rfl
  | cons s ss ih => simp [Value.allHashable, Value.hashable, ih]

theorem selection_map_str (ss : List String) :
    selection (.tuple (ss.map .str)) = .ok (ss.map .str) := by
  unfold selection
  cases ss with
  | nil => rfl
  | cons s ss => exact if_pos (allHashable_map_str (s :: ss))

/-- A normal answer to a question selects a branch below it. -/
theorem exists_ofAnswer {n : Node} {q : Question} (hq : Node.question? n = some q) {v : Value}
    (hv : Answer.IsNormal q.form.kind (Node.choices n) v)
    (hs : q.form.offersOptions = true → (Node.choices n).all Value.seekable = true) :
    ∃ b, ofAnswer n v = .ok b := by
  unfold ofAnswer
  rw [hq, Option.map_some]
  cases hf : q.form
  case list =>
    rw [hf] at hv hs
    obtain ⟨ss, rfl, -⟩ := hv
    rw [selection_map_str]
    exact ⟨_, if_pos (hs rfl)⟩
  all_goals exact ⟨_, rfl⟩

end Scaffold.Branch
