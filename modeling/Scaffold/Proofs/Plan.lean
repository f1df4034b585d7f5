import Mathlib.Data.List.Forall2
import Scaffold.Plan
import Scaffold.Proofs.Mapping
import Scaffold.Proofs.Outcome
import Scaffold.Proofs.Value.Equality

/-! # Plans of bound values

A plan can be made of any values under paths that are not empty (`Plan.snapshot_eq`). The order in
which they were bound does not matter (`Plan.sorted_eq`). If the same paths are bound to the same
values, the plans are the same (`Plan.same_of_agree`). -/

namespace Scaffold

theorem Entry.ofFields_eq {path : String} (h : path.isEmpty = false) (v : Value) :
    Entry.ofFields [("path", .str path), ("value", v)] = .ok ⟨path, v⟩ := by
  unfold ofFields Validation.Checked.required Validation.Checked.field
  simp [Mapping.get?, Validation.readNonempty, Validation.readString, bind, Except.bind, h,
    Validation.Checked.under, Validation.Checked.zip, Except.map, List.lookup_cons]

theorem Directive.same_refl (d : Directive) : Directive.same d d = true := by
  have hmodel := Value.same_refl (.tuple (d.model.map fun p => .tuple [.str p.1, p.2]))
  rw [Value.same] at hmodel
  simp [same, hmodel]

namespace Plan

/-- Bound values in the order of their paths. -/
def sorted (context : Mapping Value) : Mapping Value :=
  context.mergeSort fun a b => decide (a.1 ≤ b.1)

theorem mem_sorted {context : Mapping Value} {p : String × Value} :
    p ∈ sorted context ↔ p ∈ context := List.mem_mergeSort

theorem mapM_entries {context : Mapping Value} (h : ∀ p ∈ context, p.1.isEmpty = false) :
    (context.mapM fun p => Entry.ofFields [("path", .str p.1), ("value", p.2)]) =
      .ok (context.map fun p => ⟨p.1, p.2⟩) := by
  induction context with
  | nil => rfl
  | cons p context ih =>
    rw [List.mapM_cons, Entry.ofFields_eq (h p (by simp)), ih fun q hq => h q (by simp [hq])]
    rfl

/-- A plan can be made if no path is empty. -/
theorem snapshot_eq {context : Mapping Value} (h : ∀ p ∈ context, p.1.isEmpty = false)
    (outputs : List Directive) :
    snapshot context outputs = .ok ⟨(sorted context).map fun p => ⟨p.1, p.2⟩, outputs⟩ := by
  have hsorted : ∀ p ∈ sorted context, p.1.isEmpty = false := fun p hp =>
    h p (mem_sorted.mp hp)
  have hentries := mapM_entries hsorted
  rw [sorted] at hentries
  rw [snapshot]
  simp only [hentries]
  rfl

theorem perm_names_sorted (context : Mapping Value) :
    (Mapping.names (sorted context)).Perm (Mapping.names context) :=
  (List.mergeSort_perm context _).map Prod.fst

theorem nodup_names_sorted {context : Mapping Value} (h : (Mapping.names context).Nodup) :
    (Mapping.names (sorted context)).Nodup := (perm_names_sorted context).nodup_iff.mpr h

/-- The values of a plan are the values that it was made of. -/
theorem get?_context {context : Mapping Value} (h : (Mapping.names context).Nodup)
    (outputs : List Directive) (path : String) :
    (Plan.context ⟨(sorted context).map fun p => ⟨p.1, p.2⟩, outputs⟩).get? path =
      context.get? path := by
  rw [Plan.context, List.map_map]
  have hsorted := nodup_names_sorted h
  rw [show (sorted context).map ((fun e : Entry => (e.path, e.value)) ∘ fun p => ⟨p.1, p.2⟩) =
    sorted context from List.map_id _, Mapping.get?_ofPairs hsorted]
  exact Mapping.get?_eq_of_mem_iff hsorted h (fun _ => mem_sorted) path

/-! ### Two plans -/

/-- Two mappings hold the same at a path, or nothing. -/
def AgreeAt (m m' : Mapping Value) (path : String) : Prop :=
  Option.Rel (fun v w => Value.same v w = true) (m.get? path) (m'.get? path)

theorem pairwise_sorted (m : Mapping Value) : (Mapping.names (sorted m)).Pairwise (· ≤ ·) := by
  rw [Mapping.names, List.pairwise_map]
  refine (List.pairwise_mergeSort (fun a b c hab hbc => ?_) (fun a b => ?_) m).imp fun h => ?_
  · exact decide_eq_true (String.le_trans (of_decide_eq_true hab) (of_decide_eq_true hbc))
  · rw [Bool.or_eq_true, decide_eq_true_eq, decide_eq_true_eq]
    exact String.le_total a.1 b.1
  · exact of_decide_eq_true h

theorem names_sorted_eq {m m' : Mapping Value} (hm : (Mapping.names m).Nodup)
    (hm' : (Mapping.names m').Nodup)
    (h : ∀ name, name ∈ Mapping.names m ↔ name ∈ Mapping.names m') :
    Mapping.names (sorted m) = Mapping.names (sorted m') := by
  have hperm := (List.perm_ext_iff_of_nodup hm hm').mpr h
  exact List.Perm.eq_of_pairwise (fun _ _ _ _ => String.le_antisymm) (pairwise_sorted m)
    (pairwise_sorted m') ((perm_names_sorted m).trans (hperm.trans (perm_names_sorted m').symm))

theorem forall₂_of_names {R : String × Value → String × Value → Prop} :
    ∀ {m m' : Mapping Value}, Mapping.names m = Mapping.names m' →
      (∀ p ∈ m, ∀ q ∈ m', p.1 = q.1 → R p q) → List.Forall₂ R m m'
  | [], [], _, _ => .nil
  | p :: m, q :: m', hn, h => by
    obtain ⟨hpq, hn⟩ := List.cons.inj hn
    exact .cons (h p (by simp) q (by simp) hpq)
      (forall₂_of_names hn fun p hp q hq => h p (by simp [hp]) q (by simp [hq]))

/-- The order in which values were bound does not matter once they are sorted. -/
theorem sorted_eq {m m' : Mapping Value} (hm : (Mapping.names m).Nodup)
    (hm' : (Mapping.names m').Nodup) (h : ∀ path, m.get? path = m'.get? path) :
    sorted m = sorted m' := by
  have hnames : ∀ name, name ∈ Mapping.names m ↔ name ∈ Mapping.names m' := fun name => by
    rw [← not_iff_not, ← Mapping.get?_eq_none_iff, ← Mapping.get?_eq_none_iff, h]
  have hall : List.Forall₂ (· = ·) (sorted m) (sorted m') := by
    refine forall₂_of_names (names_sorted_eq hm hm' hnames) fun p hp q hq hpq => ?_
    have hp' := Mapping.get?_of_mem hm (mem_sorted.mp hp)
    have hq' := Mapping.get?_of_mem hm' (mem_sorted.mp hq)
    rw [hpq, h, hq'] at hp'
    exact Prod.ext hpq (Option.some.inj hp').symm
  rwa [List.forall₂_eq_eq_eq] at hall

theorem pairwise_lt_sorted {m : Mapping Value} (hm : (Mapping.names m).Nodup) :
    (Mapping.names (sorted m)).Pairwise (· < ·) := by
  refine ((pairwise_sorted m).and (nodup_names_sorted hm)).imp fun ⟨hle, hne⟩ => ?_
  by_contra hlt
  exact hne (String.le_antisymm hle (String.not_lt.mp hlt))

theorem pairwise_of_forall₂ {α : Type} {r : α → α → Bool} {as bs : List α}
    (h : List.Forall₂ (fun a b => r a b = true) as bs) : pairwise r as bs = true := by
  induction h with
  | nil => rfl
  | cons hab _ ih => rw [pairwise, hab, ih]; rfl

theorem same_refl (p : Plan) : same p p = true := by
  rw [same, Bool.and_eq_true]
  refine ⟨pairwise_of_forall₂ (List.forall₂_same.mpr fun e _ => ?_),
    pairwise_of_forall₂ (List.forall₂_same.mpr fun d _ => Directive.same_refl d)⟩
  simp [Entry.same, Value.same_refl]

/-- Plans of the same values and the same outputs are the same. -/
theorem same_of_agree {m m' : Mapping Value} (hm : (Mapping.names m).Nodup)
    (hm' : (Mapping.names m').Nodup) (h : ∀ path, AgreeAt m m' path) (outputs : List Directive) :
    same ⟨(sorted m).map fun p => ⟨p.1, p.2⟩, outputs⟩
      ⟨(sorted m').map fun p => ⟨p.1, p.2⟩, outputs⟩ = true := by
  have hnames : ∀ name, name ∈ Mapping.names m ↔ name ∈ Mapping.names m' := by
    intro name
    have hrel := h name
    unfold AgreeAt at hrel
    rw [← not_iff_not, ← Mapping.get?_eq_none_iff, ← Mapping.get?_eq_none_iff]
    generalize Mapping.get? m name = x at hrel ⊢
    generalize Mapping.get? m' name = y at hrel ⊢
    cases hrel <;> simp
  rw [same, Bool.and_eq_true]
  refine ⟨pairwise_of_forall₂ ?_, pairwise_of_forall₂ ?_⟩
  · rw [List.forall₂_map_left_iff, List.forall₂_map_right_iff]
    refine forall₂_of_names (names_sorted_eq hm hm' hnames) fun p hp q hq hpq => ?_
    have hp' := Mapping.get?_of_mem hm (mem_sorted.mp hp)
    have hq' := Mapping.get?_of_mem hm' (mem_sorted.mp hq)
    have hrel := h p.1
    rw [AgreeAt, hp', hpq, hq'] at hrel
    cases hrel with
    | some hv => simp [Entry.same, hpq, hv]
  · exact List.forall₂_same.mpr fun d _ => Directive.same_refl d

end Plan

end Scaffold
