import Mathlib.Data.List.Induction
import Mathlib.Data.List.Lex
import Scaffold.Draft
import Scaffold.Proofs.Value.Writing

/-! # Positions in a draft

A position of a draft is a list of slot numbers that leads from the root to a slot; the root slot is
at `[]`. A cell that is shared is at several positions, one that lies below itself at infinitely many.
Document order is Mathlib's lexicographic order on `List ℕ`: a slot comes before the slots below it,
and these come before those below the next slot (`lt_slot_iff`).

* `Draft.At`: the slot at a position and the cells that it lies below.
* `Draft.IsTree`: all that is reached are nodes, and each is in one slot, the root in none.
* `Draft.FaultAt`: what is wrong with the slot at a position.

A draft is a tree if and only if nothing is wrong at any position (`isTree_iff`). What is wrong is a
flaw where the values that are no nodes can be written (`Draft.SlotsWritable`). -/

namespace Scaffold.Draft

variable {d : Draft} {p q : List Nat} {chain chain' : List (Fin d.size)} {s s' : Slot d.size}
  {i j : Fin d.size} {k : Nat}

/-! ### Document order -/

/-- Before the `k`-th slot of a cell come what is before the cell, the cell itself, and all that
lies below an earlier slot of it. -/
theorem lt_slot_iff : q < p ++ [k] ↔ q < p ∨ q = p ∨ ∃ j < k, p ++ [j] <+: q := by
  induction p generalizing q with
  | nil =>
    cases q with
    | nil => simp
    | cons a q => simp [List.cons_lt_cons_iff]
  | cons b p ih =>
    cases q with
    | nil => simp
    | cons a q =>
      have hhead : ∀ j, b :: p ++ [j] <+: a :: q ↔ b = a ∧ p ++ [j] <+: q := fun j => by
        rw [List.cons_append, List.cons_prefix_cons]
      rw [List.cons_append, List.cons_lt_cons_iff, ih, List.cons_lt_cons_iff, List.cons.injEq]
      simp only [hhead]
      grind

/-! ### Slots at positions -/

/-- The slot at a position, and the cells above it from its owner up to the root. -/
inductive At (d : Draft) : List Nat → List (Fin d.size) → Slot d.size → Prop
  | root : At d [] [] d.root
  | slot {p : List Nat} {chain : List (Fin d.size)} {i : Fin d.size} {k : Nat} {s : Slot d.size} :
      At d p chain (.node i) → (d.cell i).slots[k]? = some s → At d (p ++ [k]) (i :: chain) s

theorem at_nil_iff : d.At [] chain s ↔ chain = [] ∧ s = d.root := by
  refine ⟨fun h => ?_, fun ⟨hc, hs⟩ => hc ▸ hs ▸ .root⟩
  generalize hp : ([] : List Nat) = p at h
  cases h with
  | root => exact ⟨rfl, rfl⟩
  | slot => simp at hp

theorem at_slot_iff : d.At (p ++ [k]) chain s ↔
    ∃ i above, d.At p above (.node i) ∧ chain = i :: above ∧ (d.cell i).slots[k]? = some s := by
  refine ⟨fun h => ?_, fun ⟨i, above, h, hc, hs⟩ => hc ▸ .slot h hs⟩
  generalize hp : p ++ [k] = r at h
  cases h with
  | root => simp at hp
  | slot h hs =>
    obtain ⟨rfl, hk⟩ := List.append_inj' hp rfl
    obtain rfl := List.singleton_inj.mp hk
    exact ⟨_, _, h, rfl, hs⟩

/-- At a position there is one slot. -/
theorem At.unique (h : d.At p chain s) (h' : d.At p chain' s') : chain = chain' ∧ s = s' := by
  induction h generalizing chain' s' with
  | root =>
    obtain ⟨rfl, rfl⟩ := at_nil_iff.mp h'
    exact ⟨rfl, rfl⟩
  | slot _ hs ih =>
    obtain ⟨j, above, hj, rfl, hs'⟩ := at_slot_iff.mp h'
    obtain ⟨rfl, hij⟩ := ih hj
    obtain rfl := Slot.node.inj hij
    rw [hs] at hs'
    exact ⟨rfl, Option.some.inj hs'⟩

/-- The cells above a slot are at earlier positions. -/
theorem At.exists_of_mem_chain (h : d.At p chain s) (hi : i ∈ chain) :
    ∃ q above, q < p ∧ d.At q above (.node i) := by
  induction h with
  | root => simp at hi
  | slot h _ ih =>
    rcases List.mem_cons.mp hi with rfl | hi
    · exact ⟨_, _, lt_slot_iff.mpr (.inr (.inl rfl)), h⟩
    · obtain ⟨q, above, hq, hat⟩ := ih hi
      exact ⟨q, above, lt_slot_iff.mpr (.inl hq), hat⟩

/-- A slot that is reached from the root. -/
inductive Reachable (d : Draft) : Slot d.size → Prop
  | root : Reachable d d.root
  | slot {i : Fin d.size} {s : Slot d.size} : Reachable d (.node i) → s ∈ (d.cell i).slots → Reachable d s

theorem At.reachable (h : d.At p chain s) : d.Reachable s := by
  induction h with
  | root => exact .root
  | slot _ hs ih => exact .slot ih (List.mem_of_getElem? hs)

theorem Reachable.exists_at (h : d.Reachable s) : ∃ p chain, d.At p chain s := by
  induction h with
  | root => exact ⟨_, _, .root⟩
  | slot _ hs ih =>
    obtain ⟨p, chain, h⟩ := ih
    obtain ⟨k, hk⟩ := List.getElem?_of_mem hs
    exact ⟨_, _, .slot h hk⟩

/-! ### Trees and faults -/

/-- A child slot that a cell is reached by: the `k`-th slot of a reached cell holds it. -/
def Holds (d : Draft) (slot : Fin d.size × Nat) (i : Fin d.size) : Prop :=
  d.Reachable (.node slot.1) ∧ (d.cell slot.1).slots[slot.2]? = some (.node i)

/-- A node is the root or held by a child slot. -/
theorem Reachable.root_or_exists_holds (h : d.Reachable (.node i)) :
    d.root = .node i ∨ ∃ slot, d.Holds slot i := by
  generalize hs : Slot.node i = s at h
  cases h with
  | root => exact .inl rfl
  | @slot j _ hj hmem =>
    obtain ⟨k, hk⟩ := List.getElem?_of_mem hmem
    exact .inr ⟨(j, k), hj, hs ▸ hk⟩

/-- A draft is a tree if all that is reached are nodes, the root in no child slot and every other
node in exactly one. -/
structure IsTree (d : Draft) : Prop where
  nodes : ∀ v, ¬ d.Reachable (.alien v)
  root : ∀ i, d.root = .node i → ∀ slot, ¬ d.Holds slot i
  owned : ∀ i, d.Reachable (.node i) → d.root ≠ .node i → ∃! slot, d.Holds slot i

/-- What is wrong with the slot at a position: it holds no node, its owner or a node above that, or
a node that is at an earlier position. Each is a flaw, unless what is no node cannot be written. -/
inductive FaultAt (d : Draft) (p : List Nat) : Fault → Prop
  | notANode {chain : List (Fin d.size)} {v : Value} : d.At p chain (.alien v) →
      FaultAt d p (.flawAbout v.repr? (.notANode (d.owner chain)))
  | cycle {chain : List (Fin d.size)} {i : Fin d.size} : d.At p chain (.node i) → i ∈ chain →
      FaultAt d p (.flaw (.cycle (d.variant i)))
  | shared {chain above : List (Fin d.size)} {i : Fin d.size} {q : List Nat} :
      d.At p chain (.node i) → i ∉ chain → q < p → d.At q above (.node i) →
      FaultAt d p (.flaw (.shared (d.variant i)))

/-- What is no node can be written, wherever it is reached. -/
def SlotsWritable (d : Draft) : Prop := ∀ v, d.Reachable (.alien v) → v.Writable

theorem IsTree.slotsWritable (h : d.IsTree) : d.SlotsWritable := fun v hv => absurd hv (h.nodes v)

theorem slotsWritable_of_nodes (hroot : ∃ i, d.root = .node i)
    (h : ∀ i, ∀ s ∈ (d.cell i).slots, ∃ j, s = .node j) : d.SlotsWritable := fun v hv => by
  generalize hs : Slot.alien v = s at hv
  cases hv with
  | root =>
    obtain ⟨i, hi⟩ := hroot
    cases hs.trans hi
  | @slot i _ _ hmem =>
    obtain ⟨j, hj⟩ := h i s hmem
    cases hs.trans hj

/-- What is wrong is a flaw, or a value that is no node and cannot be written. -/
theorem FaultAt.flaw_or_oversized {f : Fault} (h : d.FaultAt p f) :
    (∃ flaw, f = .flaw flaw) ∨ (f = .oversized ∧ ¬ d.SlotsWritable) := by
  cases h with
  | @notANode chain v hat =>
    rcases Fault.flawAbout_cases v.repr? (.notANode (d.owner chain)) with ⟨t, -, heq⟩ | ⟨hnone, heq⟩
    · exact .inl ⟨_, heq⟩
    · refine .inr ⟨heq, fun hw => ?_⟩
      have hv := hw v hat.reachable
      rw [Value.Writable, hnone] at hv
      cases hv
  | cycle => exact .inl ⟨_, rfl⟩
  | shared => exact .inl ⟨_, rfl⟩

/-- Something is wrong at every position of a cell but the first. -/
theorem At.exists_faultAt (h : d.At p chain (.node i)) (h' : d.At q chain' (.node i))
    (hlt : q < p) : ∃ f, d.FaultAt p f := by
  by_cases hi : i ∈ chain
  · exact ⟨_, .cycle h hi⟩
  · exact ⟨_, .shared h hi hlt h'⟩

/-- At a position at most one thing is wrong. -/
theorem FaultAt.unique {f g : Fault} (h : d.FaultAt p f) (h' : d.FaultAt p g) : f = g := by
  cases h with
  | notANode hat =>
    cases h' with
    | notANode hat' =>
      obtain ⟨rfl, hv⟩ := hat.unique hat'
      rw [Slot.alien.inj hv]
    | cycle hat' => cases (hat.unique hat').2
    | shared hat' => cases (hat.unique hat').2
  | cycle hat hi =>
    cases h' with
    | notANode hat' => cases (hat.unique hat').2
    | cycle hat' => rw [Slot.node.inj (hat.unique hat').2]
    | shared hat' hi' =>
      obtain ⟨rfl, hij⟩ := hat.unique hat'
      obtain rfl := Slot.node.inj hij
      exact absurd hi hi'
  | shared hat hi =>
    cases h' with
    | notANode hat' => cases (hat.unique hat').2
    | cycle hat' hi' =>
      obtain ⟨rfl, hij⟩ := hat.unique hat'
      obtain rfl := Slot.node.inj hij
      exact absurd hi' hi
    | shared hat' => rw [Slot.node.inj (hat.unique hat').2]

/-- In a tree a node is at one position. -/
theorem IsTree.position_unique (ht : d.IsTree) (h : d.At p chain (.node i))
    (h' : d.At q chain' (.node i)) : p = q := by
  generalize hs : Slot.node i = s at h
  induction h generalizing i q chain' with
  | root =>
    cases q using List.reverseRecOn with
    | nil => rfl
    | append_singleton q l =>
      obtain ⟨j, above, hj, -, hl⟩ := at_slot_iff.mp h'
      exact absurd ⟨hj.reachable, hl⟩ (ht.root i hs.symm (j, l))
  | @slot p chain j k s h hk ih =>
    subst hs
    cases q using List.reverseRecOn with
    | nil => exact absurd ⟨h.reachable, hk⟩ (ht.root i (at_nil_iff.mp h').2.symm (j, k))
    | append_singleton q l =>
      obtain ⟨j', above, hj, -, hl⟩ := at_slot_iff.mp h'
      have hholds : d.Holds (j, k) i := ⟨h.reachable, hk⟩
      have hroot : d.root ≠ .node i := fun hr => ht.root i hr _ hholds
      have hsame : (j, k) = (j', l) :=
        (ht.owned i h'.reachable hroot).unique hholds ⟨hj.reachable, hl⟩
      obtain ⟨rfl, rfl⟩ := Prod.mk.inj hsame
      rw [ih hj rfl]

theorem IsTree.not_faultAt (ht : d.IsTree) (f : Fault) : ¬ d.FaultAt p f := fun h => by
  have hne : ∀ {q i chain above}, q < p → d.At p chain (.node i) → ¬ d.At q above (.node i) :=
    fun hlt h h' => hlt.ne (ht.position_unique h' h)
  cases h with
  | notANode h => exact ht.nodes _ h.reachable
  | cycle h hi =>
    obtain ⟨q, above, hlt, hq⟩ := h.exists_of_mem_chain hi
    exact hne hlt h hq
  | shared h _ hlt hq => exact hne hlt h hq

/-- **A draft is a tree if and only if nothing is wrong at any position.** -/
theorem isTree_iff : d.IsTree ↔ ∀ p f, ¬ d.FaultAt p f := by
  refine ⟨fun h _ => h.not_faultAt, fun h => ?_⟩
  -- two positions of one cell are the same, as something would be wrong at the later one
  have hpos : ∀ {p q i chain above}, d.At p chain (.node i) → d.At q above (.node i) → p = q := by
    intro p q i chain above hp hq
    rcases lt_trichotomy p q with hlt | rfl | hlt
    · obtain ⟨f, hf⟩ := hq.exists_faultAt hp hlt
      exact absurd hf (h q f)
    · rfl
    · obtain ⟨f, hf⟩ := hp.exists_faultAt hq hlt
      exact absurd hf (h p f)
  refine ⟨fun v hv => ?_, fun i hr ⟨j, k⟩ ⟨hj, hk⟩ => ?_, fun i hi hr => ?_⟩
  · obtain ⟨p, chain, hat⟩ := hv.exists_at
    exact h p _ (.notANode hat)
  · obtain ⟨p, chain, hat⟩ := hj.exists_at
    have hnil := hpos (hr ▸ At.root) (.slot hat hk)
    simp at hnil
  · obtain ⟨⟨j, k⟩, hj, hk⟩ := hi.root_or_exists_holds.resolve_left hr
    refine ⟨(j, k), ⟨hj, hk⟩, fun ⟨j', k'⟩ ⟨hj', hk'⟩ => ?_⟩
    obtain ⟨p, chain, hp⟩ := hj.exists_at
    obtain ⟨p', chain', hp'⟩ := hj'.exists_at
    obtain ⟨rfl, hkk⟩ := List.append_inj' (hpos (.slot hp hk) (.slot hp' hk')) rfl
    obtain rfl := List.singleton_inj.mp hkk
    exact Prod.ext (Slot.node.inj (hp.unique hp').2).symm rfl

end Scaffold.Draft
