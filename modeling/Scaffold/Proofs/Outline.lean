import Mathlib.Data.Fintype.Card
import Scaffold.Proofs.Outcome
import Scaffold.Proofs.Position

/-! # The outline of a draft

`Draft.grow` goes through the positions of a draft in document order. What it has passed is known by
the cells that it has seen (`Draft.Passed`), and what it gives for a slot is either the labels of a
tree of different cells that follows the slots of the draft, or the first fault (`Draft.grown_grow`).
The cells along a chain differ, so the fuel never runs out.

* `Draft.outline_cases`: the outline is the tree of cells that spans the draft, or the first fault.
* `Draft.walk_eq`: the labels of a spanning tree are those met on a walk. -/

namespace Scaffold

/-! ### Trees of cells -/

namespace Tree

theorem mapAll_eq_map {α β : Type} (f : α → β) (ts : List (Tree α)) :
    mapAll f ts = ts.map (map f) := by
  induction ts with
  | nil => rfl
  | cons t ts ih => rw [mapAll, ih, List.map_cons]

theorem label_map {α β : Type} (f : α → β) (t : Tree α) : (t.map f).label = f t.label := by
  cases t; rfl

theorem children_map {α β : Type} (f : α → β) (t : Tree α) :
    (t.map f).children = t.children.map (map f) := by
  cases t
  rw [map, children, mapAll_eq_map, children]

theorem subtreesAll_map {α β : Type} {f : α → β} {ts : List (Tree α)}
    (h : ∀ t ∈ ts, (t.map f).subtrees = t.subtrees.map (map f)) :
    subtreesAll (ts.map (map f)) = (subtreesAll ts).map (map f) := by
  induction ts with
  | nil => rfl
  | cons t ts ih =>
    rw [List.map_cons, subtreesAll, h t (by simp), ih fun t' ht' => h t' (by simp [ht']),
      subtreesAll, List.map_append]

theorem subtrees_map {α β : Type} (f : α → β) (t : Tree α) :
    (t.map f).subtrees = t.subtrees.map (map f) := by
  induction t using Tree.induction with
  | node a cs ih =>
    rw [subtrees, List.map_cons, map, mapAll_eq_map, subtrees, subtreesAll_map ih]

theorem labels_map {α β : Type} (f : α → β) (t : Tree α) : (t.map f).labels = t.labels.map f := by
  rw [labels_eq_map_subtrees, labels_eq_map_subtrees, subtrees_map, List.map_map, List.map_map]
  exact List.map_congr_left fun u _ => label_map f u

theorem size_map {α β : Type} (f : α → β) (t : Tree α) : (t.map f).size = t.size := by
  rw [← length_labels, labels_map, List.length_map, length_labels]

theorem size_le_sizes {α : Type} {t : Tree α} {ts : List (Tree α)} (h : t ∈ ts) :
    t.size ≤ sizes ts := by
  induction ts with
  | nil => simp at h
  | cons u ts ih =>
    rw [sizes]
    rcases List.mem_cons.mp h with rfl | h
    · exact Nat.le_add_right ..
    · exact (ih h).trans (Nat.le_add_left ..)

end Tree

namespace Draft

variable {d : Draft} {p q : List Nat} {chain seen : List (Fin d.size)} {s : Slot d.size}
  {i : Fin d.size} {k : Nat} {f : Fault} {c : Tree (Fin d.size)}

/-- The tree of the labels of a tree of cells. -/
def labelled (d : Draft) (c : Tree (Fin d.size)) : Tree Label := c.map fun i => (d.cell i).label

/-- The children of every node of a tree of cells are what its slots hold, in order. -/
def Follows (d : Draft) (c : Tree (Fin d.size)) : Prop :=
  ∀ t ∈ c.subtrees, (d.cell t.label).slots = t.children.map fun u => .node u.label

theorem follows_node_iff {cs : List (Tree (Fin d.size))} : d.Follows (.node i cs) ↔
    (d.cell i).slots = (cs.map fun u => .node u.label) ∧ ∀ c ∈ cs, d.Follows c := by
  rw [Follows, Tree.subtrees, Tree.subtreesAll_eq_flatMap, List.forall_mem_cons]
  refine and_congr_right fun _ => ⟨fun h c hc t ht => ?_, fun h t ht => ?_⟩
  · exact h t (List.mem_flatMap.mpr ⟨c, hc, ht⟩)
  · obtain ⟨c, hc, ht⟩ := List.mem_flatMap.mp ht
    exact h c hc t ht

/-- A tree of different cells that starts at the root, follows the slots and comes to all that is
reached. -/
structure Spans (d : Draft) (c : Tree (Fin d.size)) : Prop where
  root : d.root = .node c.label
  follows : d.Follows c
  nodup : c.labels.Nodup
  mem_labels : ∀ i, i ∈ c.labels ↔ d.Reachable (.node i)

/-! ### What is passed -/

/-- The position lies before another one or below it. -/
def Through (p q : List Nat) : Prop := q < p ∨ p <+: q

/-- The positions of a stretch have been passed: nothing is wrong there, and the cells seen are those
that are met there. -/
structure Passed (d : Draft) (stretch : List Nat → Prop) (seen : List (Fin d.size)) : Prop where
  faultless : ∀ q, stretch q → ∀ f, ¬ d.FaultAt q f
  mem_seen : ∀ i, i ∈ seen ↔ ∃ q chain, stretch q ∧ d.At q chain (.node i)
  nodup : seen.Nodup

/-- The fault at a position before which nothing is wrong. -/
def FirstFault (d : Draft) (p : List Nat) (f : Fault) : Prop :=
  d.FaultAt p f ∧ ∀ q < p, ∀ g, ¬ d.FaultAt q g

theorem FirstFault.unique {g : Fault} (h : d.FirstFault p f) (h' : d.FirstFault q g) :
    p = q ∧ f = g := by
  rcases lt_trichotomy p q with hlt | rfl | hlt
  · exact absurd h.1 (h'.2 p hlt f)
  · exact ⟨rfl, h.1.unique h'.1⟩
  · exact absurd h'.1 (h.2 q hlt g)

theorem FaultAt.exists_at (h : d.FaultAt p f) : ∃ chain s, d.At p chain s := by
  cases h with
  | notANode h => exact ⟨_, _, h⟩
  | cycle h => exact ⟨_, _, h⟩
  | shared h => exact ⟨_, _, h⟩

theorem At.of_prefix (h : d.At q chain s) (hp : p <+: q) : ∃ chain s, d.At p chain s := by
  induction h with
  | root =>
    obtain rfl := List.prefix_nil.mp hp
    exact ⟨_, _, .root⟩
  | slot h hs ih =>
    rcases List.prefix_concat_iff.mp hp with rfl | hp
    · exact ⟨_, _, .slot h hs⟩
    · exact ih hp

/-- Stretches with the same slots have been passed together. -/
theorem Passed.congr {b b' : List Nat → Prop} (h : d.Passed b seen)
    (hb : ∀ q chain s, d.At q chain s → (b q ↔ b' q)) : d.Passed b' seen where
  faultless q hq f hf := by
    obtain ⟨chain, s, hat⟩ := hf.exists_at
    exact h.faultless q ((hb q chain s hat).mpr hq) f hf
  mem_seen i := by
    rw [h.mem_seen]
    exact exists₂_congr fun q chain => and_congr_left fun hat => hb q chain _ hat
  nodup := h.nodup

theorem passed_root : d.Passed (· < []) [] where
  faultless q hq := absurd hq (List.not_lt_nil q)
  mem_seen i := by simp
  nodup := .nil

/-- A cell that has not been seen is passed on the way to its first slot. -/
theorem Passed.enter (h : d.Passed (· < p) seen) (hat : d.At p chain (.node i)) (hi : i ∉ seen) :
    d.Passed (· < p ++ [0]) (i :: seen) := by
  have hlt : ∀ q, q < p ++ [0] ↔ q < p ∨ q = p := fun q => by rw [lt_slot_iff]; simp
  have hnew : ∀ q above, q < p → ¬ d.At q above (.node i) := fun q above hq h' =>
    hi ((h.mem_seen i).mpr ⟨q, above, hq, h'⟩)
  refine ⟨fun q hq f hf => ?_, fun j => ?_, List.nodup_cons.mpr ⟨hi, h.nodup⟩⟩
  · rcases (hlt q).mp hq with hq | rfl
    · exact h.faultless q hq f hf
    · cases hf with
      | notANode hat' => cases (hat.unique hat').2
      | cycle hat' hmem =>
        obtain rfl := Slot.node.inj (hat.unique hat').2
        obtain ⟨q, above, hq, hat⟩ := hat'.exists_of_mem_chain hmem
        exact hnew q above hq hat
      | shared hat' _ hq hat'' =>
        obtain rfl := Slot.node.inj (hat.unique hat').2
        exact hnew _ _ hq hat''
  · rw [List.mem_cons, h.mem_seen]
    constructor
    · rintro (rfl | ⟨q, above, hq, hat⟩)
      · exact ⟨p, chain, (hlt p).mpr (.inr rfl), hat⟩
      · exact ⟨q, above, (hlt q).mpr (.inl hq), hat⟩
    · rintro ⟨q, above, hq, hat'⟩
      rcases (hlt q).mp hq with hq | rfl
      · exact .inr ⟨q, above, hq, hat'⟩
      · exact .inl (Slot.node.inj (hat'.unique hat).2)

/-- Before a slot comes what comes before the slot in front of it or lies below that. -/
theorem lt_next_slot_iff : q < p ++ [k + 1] ↔ Through (p ++ [k]) q := by
  rw [Through, lt_slot_iff, lt_slot_iff]
  simp only [Nat.lt_succ_iff_lt_or_eq]
  grind

/-- All slots of a cell have been passed once the last one has. -/
theorem Passed.leave (h : d.Passed (· < p ++ [(d.cell i).slots.length]) seen)
    (hat : d.At p chain (.node i)) : d.Passed (Through p) seen := by
  refine h.congr fun q above s hq => ?_
  rw [lt_slot_iff, Through]
  refine or_congr_right ⟨?_, fun hp => ?_⟩
  · rintro (rfl | ⟨j, -, hj⟩)
    · exact List.prefix_rfl
    · exact (List.prefix_append p [j]).trans hj
  · obtain ⟨r, rfl⟩ := hp
    cases r with
    | nil => exact .inl (List.append_nil p)
    | cons j r =>
      have hslot : p ++ [j] <+: p ++ j :: r := ⟨r, by rw [List.append_assoc]; rfl⟩
      obtain ⟨above, s, hj⟩ := hq.of_prefix hslot
      obtain ⟨i', above', hi', -, hs⟩ := at_slot_iff.mp hj
      obtain rfl := Slot.node.inj (hi'.unique hat).2
      exact .inr ⟨j, (List.getElem?_eq_some_iff.mp hs).1, hslot⟩

/-! ### Growing -/

/-- What is grown for the slot at a position: the labels of a tree of cells, or the first fault. -/
inductive Grown (d : Draft) (p : List Nat) (s : Slot d.size) (seen : List (Fin d.size)) :
    Except Fault (Tree Label × List (Fin d.size)) → Prop
  | tree {c : Tree (Fin d.size)} : s = .node c.label → d.Follows c →
      d.Passed (Through p) (c.labels.reverse ++ seen) →
      Grown d p s seen (.ok (d.labelled c, c.labels.reverse ++ seen))
  | fault {q : List Nat} {f : Fault} : d.FirstFault q f → Grown d p s seen (.error f)

/-- What is grown for the slots of a cell from its `k`-th on. -/
inductive GrownAll (d : Draft) (p : List Nat) (k : Nat) (slots : List (Slot d.size))
    (seen : List (Fin d.size)) : Except Fault (List (Tree Label) × List (Fin d.size)) → Prop
  | trees {cs : List (Tree (Fin d.size))} : slots = (cs.map fun c => .node c.label) →
      (∀ c ∈ cs, d.Follows c) →
      d.Passed (· < p ++ [k + slots.length]) ((Tree.labelsAll cs).reverse ++ seen) →
      GrownAll d p k slots seen (.ok (cs.map d.labelled, (Tree.labelsAll cs).reverse ++ seen))
  | fault {q : List Nat} {f : Fault} : d.FirstFault q f → GrownAll d p k slots seen (.error f)

theorem grownAll_thread
    {step : List (Fin d.size) → Slot d.size → Except Fault (Tree Label × List (Fin d.size))}
    (hstep : ∀ {k : Nat} {s : Slot d.size} {seen : List (Fin d.size)},
      d.At (p ++ [k]) chain s → d.Passed (· < p ++ [k]) seen →
        Grown d (p ++ [k]) s seen (step seen s)) :
    ∀ {slots : List (Slot d.size)} {k : Nat} {seen : List (Fin d.size)},
      (∀ j s, slots[j]? = some s → d.At (p ++ [k + j]) chain s) → d.Passed (· < p ++ [k]) seen →
        GrownAll d p k slots seen (thread step seen slots)
  | [], k, seen, _, hseen => @GrownAll.trees d p k [] seen [] rfl (by simp) hseen
  | s :: slots, k, seen, hslots, hseen => by
    have hgrown := hstep (hslots 0 s rfl) hseen
    rw [thread]
    generalize step seen s = r at hgrown
    cases hgrown with
    | fault hf => exact .fault hf
    | @tree c hs hc hpassed =>
      have hnext : d.Passed (· < p ++ [k + 1]) (c.labels.reverse ++ seen) :=
        hpassed.congr fun q _ _ _ => lt_next_slot_iff.symm
      have hslots' : ∀ j s, slots[j]? = some s → d.At (p ++ [k + 1 + j]) chain s := fun j s hj => by
        have hat := hslots (j + 1) s hj
        rwa [Nat.add_comm j, ← Nat.add_assoc] at hat
      have hrest := grownAll_thread hstep hslots' hnext
      generalize hr : thread step (c.labels.reverse ++ seen) slots = r at hrest
      cases hrest with
      | fault hf =>
        simp only [hr, bind, Except.bind]
        exact .fault hf
      | @trees cs hcs hfollows hpassed =>
        have hall : (Tree.labelsAll cs).reverse ++ (c.labels.reverse ++ seen) =
            (Tree.labelsAll (c :: cs)).reverse ++ seen := by
          rw [Tree.labelsAll, List.reverse_append, List.append_assoc]
        rw [hall] at hpassed hr
        simp only [hr, bind, Except.bind, pure, Except.pure]
        refine @GrownAll.trees d p k (s :: slots) seen (c :: cs) ?_ ?_ ?_
        · rw [hs, hcs, List.map_cons]
        · exact List.forall_mem_cons.mpr ⟨hc, hfollows⟩
        · rwa [List.length_cons, Nat.add_comm slots.length, ← Nat.add_assoc]

theorem mem_of_nodup_of_length (h : chain.Nodup) (hlen : chain.length = d.size) : i ∈ chain := by
  have hcard : chain.toFinset.card = Fintype.card (Fin d.size) := by
    rw [List.toFinset_card_of_nodup h, hlen, Fintype.card_fin]
  exact List.mem_toFinset.mp (Finset.eq_univ_of_card _ hcard ▸ Finset.mem_univ i)

/-- **What is grown for a slot.** The chain holds different cells, and there is fuel for the others. -/
theorem grown_grow : ∀ {fuel : Nat} {p : List Nat} {chain seen : List (Fin d.size)}
    {s : Slot d.size}, d.At p chain s → d.Passed (· < p) seen → chain.Nodup →
      chain.length + fuel = d.size → Grown d p s seen (d.grow fuel chain seen s) := by
  intro fuel
  induction fuel with
  | zero =>
    intro p chain seen s hat hseen hnodup hfuel
    cases s with
    | alien v => exact .fault ⟨.notANode hat, hseen.faultless⟩
    | node i =>
      have hi := mem_of_nodup_of_length (i := i) hnodup hfuel
      rw [grow, if_pos hi]
      exact .fault ⟨.cycle hat hi, hseen.faultless⟩
  | succ fuel ih =>
    intro p chain seen s hat hseen hnodup hfuel
    cases s with
    | alien v => exact .fault ⟨.notANode hat, hseen.faultless⟩
    | node i =>
      rw [grow]
      split_ifs with hchain hmem
      · exact .fault ⟨.cycle hat hchain, hseen.faultless⟩
      · obtain ⟨q, above, hq, hat'⟩ := (hseen.mem_seen i).mp hmem
        exact .fault ⟨.shared hat hchain hq hat', hseen.faultless⟩
      · have hslots : ∀ j s, (d.cell i).slots[j]? = some s → d.At (p ++ [0 + j]) (i :: chain) s :=
          fun j s hj => .slot hat (by rwa [Nat.zero_add])
        have hfuel' : (i :: chain).length + fuel = d.size := by rw [List.length_cons]; omega
        have hall := grownAll_thread (fun hat' hseen' => ih hat' hseen'
          (List.nodup_cons.mpr ⟨hchain, hnodup⟩) hfuel') hslots (hseen.enter hat hmem)
        generalize hr : thread _ _ _ = r at hall
        cases hall with
        | fault hf =>
          simp only [bind, Except.bind]
          exact .fault hf
        | @trees cs hcs hfollows hpassed =>
          have hlabels : (Tree.labelsAll cs).reverse ++ i :: seen =
              (Tree.labels (.node i cs)).reverse ++ seen := by
            rw [Tree.labels, List.reverse_cons, List.append_assoc]
            rfl
          have htree : Tree.node (d.cell i).label (cs.map d.labelled) =
              d.labelled (.node i cs) := by
            rw [labelled, Tree.map, Tree.mapAll_eq_map]
            rfl
          rw [Nat.zero_add, hlabels] at hpassed
          simp only [bind, Except.bind, pure, Except.pure, htree, hlabels]
          exact .tree rfl (follows_node_iff.mpr ⟨hcs, hfollows⟩) (hpassed.leave hat)

/-! ### The outline -/

/-- What is grown for the root: the labels of the tree of cells that spans the draft, if it is a tree,
and else the first fault. -/
theorem grow_cases (d : Draft) :
    (∃ c, d.Spans c ∧ d.IsTree ∧
      d.grow d.size [] [] d.root = .ok (d.labelled c, c.labels.reverse)) ∨
    ∃ p f, d.FirstFault p f ∧ d.grow d.size [] [] d.root = .error f := by
  have hgrown := grown_grow (d := d) At.root passed_root .nil (Nat.zero_add d.size)
  generalize d.grow d.size [] [] d.root = r at hgrown ⊢
  cases hgrown with
  | @fault p f hf => exact .inr ⟨p, f, hf, rfl⟩
  | @tree c hroot hfollows hpassed =>
    have hall : ∀ q, Through [] q := fun q => .inr List.nil_prefix
    rw [List.append_nil] at hpassed ⊢
    refine .inl ⟨c, ⟨hroot, hfollows, List.nodup_reverse.mp hpassed.nodup, fun i => ?_⟩, ?_, rfl⟩
    · rw [← List.mem_reverse, hpassed.mem_seen i]
      constructor
      · rintro ⟨q, chain, -, hat⟩
        exact hat.reachable
      · intro hi
        obtain ⟨q, chain, hat⟩ := hi.exists_at
        exact ⟨q, chain, hall q, hat⟩
    · exact isTree_iff.mpr fun q => hpassed.faultless q (hall q)

/-- **The outline of a draft** is that of the tree of cells that spans it, if it is a tree, and else
the fault of the first position at which something is wrong. -/
theorem outline_cases (d : Draft) :
    (∃ c, d.Spans c ∧ d.outline = .ok (d.labelled c) ∧ d.IsTree) ∨
      ∃ p f, d.FirstFault p f ∧ d.outline = .error f := by
  rcases grow_cases d with ⟨c, hc, htree, hgrow⟩ | ⟨p, f, hf, hgrow⟩
  · exact .inl ⟨c, hc, by rw [outline, hgrow]; rfl, htree⟩
  · exact .inr ⟨p, f, hf, by rw [outline, hgrow]; rfl⟩

/-- The outline fails with the first fault. -/
theorem outline_error_iff : d.outline = .error f ↔ ∃ p, d.FirstFault p f := by
  rcases outline_cases d with ⟨c, -, hc, htree⟩ | ⟨p, g, hg, hd⟩
  · refine ⟨fun h => ?_, fun ⟨p, hp⟩ => absurd hp.1 (htree.not_faultAt f)⟩
    rw [hc] at h
    cases h
  · rw [hd]
    refine ⟨fun h => ⟨p, Except.error.inj h ▸ hg⟩, fun ⟨q, hq⟩ => ?_⟩
    rw [(hg.unique hq).2]

/-- **A draft has an outline if and only if it is a tree.** -/
theorem isTree_iff_outline : d.IsTree ↔ ∃ t, d.outline = .ok t := by
  rcases outline_cases d with ⟨c, -, hc, htree⟩ | ⟨p, f, hf, hd⟩
  · exact ⟨fun _ => ⟨_, hc⟩, fun _ => htree⟩
  · refine ⟨fun htree => absurd hf.1 (htree.not_faultAt f), fun ⟨t, ht⟩ => ?_⟩
    rw [hd] at ht
    cases ht

/-- The outline of a tree is that of a tree of cells. -/
theorem spans_of_outline {t : Tree Label} (h : d.outline = .ok t) :
    ∃ c, d.Spans c ∧ t = d.labelled c := by
  rcases outline_cases d with ⟨c, hc, ht, -⟩ | ⟨p, f, -, hd⟩
  · rw [ht] at h
    exact ⟨c, hc, (Except.ok.inj h).symm⟩
  · rw [hd] at h
    cases h

/-! ### The walk -/

theorem mapM_ok {α β ε : Type} {f : α → Except ε β} {g : α → β} {as : List α}
    (h : ∀ a ∈ as, f a = .ok (g a)) : as.mapM f = .ok (as.map g) := by
  induction as with
  | nil => rfl
  | cons a as ih =>
    rw [List.mapM_cons, h a (by simp), ih fun a' ha' => h a' (by simp [ha'])]
    rfl

/-- A walk that goes deep enough meets the labels of a tree that follows the slots. -/
theorem walkFrom_eq (c : Tree (Fin d.size)) : ∀ {depth : Nat}, d.Follows c →
    c.size ≤ depth + 1 → d.walkFrom depth (.node c.label) = .ok (d.labelled c).labels := by
  induction c using Tree.induction with
  | node i cs ih =>
    intro depth hc hsize
    obtain ⟨hslots, hcs⟩ := follows_node_iff.mp hc
    rw [Tree.size] at hsize
    have hlabels : (d.labelled (.node i cs)).labels =
        (d.cell i).label :: (cs.map fun c => (d.labelled c).labels).flatten := by
      rw [labelled, Tree.map, Tree.labels, Tree.labelsAll_eq_flatMap, Tree.mapAll_eq_map,
        List.flatMap_map]
      rfl
    rw [hlabels]
    cases depth with
    | zero =>
      cases cs with
      | nil => rfl
      | cons c cs =>
        obtain ⟨a, ds⟩ := c
        simp only [Tree.sizes, Tree.size] at hsize
        omega
    | succ depth =>
      have hbelow : (d.cell i).slots.mapM (d.walkFrom depth) =
          .ok (cs.map fun c => (d.labelled c).labels) := by
        rw [hslots, List.mapM_map]
        refine mapM_ok fun c hc => ih c hc (hcs c hc) ?_
        have hle := Tree.size_le_sizes hc
        omega
      rw [Tree.label, walkFrom, hbelow]
      rfl

/-- **The walk from the root of a tree** meets every reachable cell once, in the order of the tree
that spans it. -/
theorem walk_eq (h : d.Spans c) : d.walk = .ok (c.labels.map fun i => (d.cell i).label) := by
  have hsize : c.size ≤ d.size := by
    have hle := List.Nodup.length_le_card h.nodup
    rwa [Tree.length_labels, Fintype.card_fin] at hle
  rw [walk, h.root, walkFrom_eq c h.follows (by omega), labelled, Tree.labels_map]

end Draft

end Scaffold
