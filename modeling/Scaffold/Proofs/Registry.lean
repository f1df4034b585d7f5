import Mathlib.Logic.Relation
import Scaffold.Proofs.Outline

/-! # Registering the nodes of a draft

A draft can also be checked by a search that keeps the slots ahead of it on a stack. It registers
the cells that it finds and builds a graph of the edges from owners to what they own. When it meets
a cell again, the graph built so far says whether the cell lies above the slot; when nothing is ahead,
the graph has to be a tree.

* `Registry.Step`, `Registry.Stops`: one cell is registered, or the search ends with a verdict.
* `Registry.wellFounded`: no search goes on for ever.
* `Registry.arborescence`: what is registered at the end of a search is always a tree.
* `Registry.simulates_grow`: the search does what the recursion of `Draft.grow` does. -/

namespace Scaffold

open Relation (ReflTransGen)

/-- What a search has found and what it still has ahead. -/
structure Registry (d : Draft) where
  /-- The cells found, in the order of their numbers. -/
  found : List (Fin d.size)
  /-- The edges from owners to the cells that they own. -/
  edges : List (Fin d.size × Fin d.size)
  /-- The slots ahead with their owners, the next one first. -/
  ahead : List (Option (Fin d.size) × Slot d.size)

/-- Nodes and edges form a directed tree: there is one edge less than there are nodes, all nodes are
connected, and no two edges enter one node. -/
structure Arborescence {α : Type} [DecidableEq α] (nodes : List α) (edges : List (α × α)) :
    Prop where
  count : edges.dedup.length + 1 = nodes.dedup.length
  connected : ∀ a ∈ nodes, ∀ b ∈ nodes, Relation.EqvGen (fun x y => (x, y) ∈ edges) a b
  entering : ∀ a a' b, (a, b) ∈ edges → (a', b) ∈ edges → a = a'

namespace Registry

variable {d : Draft}

/-! ### The search -/

/-- Nothing is found and the root is ahead; it has no owner. -/
def start (d : Draft) : Registry d := ⟨[], [], [(none, d.root)]⟩

/-- There is a path between two cells along the edges. -/
def Path (edges : List (Fin d.size × Fin d.size)) : Fin d.size → Fin d.size → Prop :=
  ReflTransGen fun x y => (x, y) ∈ edges

/-- The cell is the owner of a slot or lies above it in the graph of the edges. -/
def Above (edges : List (Fin d.size × Fin d.size)) (i : Fin d.size) (owner : Option (Fin d.size)) :
    Prop := ∃ j, owner = some j ∧ Path edges i j

/-- A cell that has not been found is registered below its owner, and its slots are ahead. -/
inductive Step : Registry d → Registry d → Prop
  | visit {found edges owner i ahead} : i ∉ found →
      Step ⟨found, edges, (owner, .node i) :: ahead⟩
        ⟨found ++ [i], edges ++ owner.toList.map fun j => (j, i),
          ((d.cell i).slots.map fun s => (some i, s)) ++ ahead⟩

/-- What a search says of a draft. -/
inductive Verdict where
  | tree
  | noTree
  | fault (f : Fault)

/-- The search ends: something is wrong with the next slot, or nothing is ahead. -/
inductive Stops : Registry d → Verdict → Prop
  | notANode {found edges owner v ahead} :
      Stops ⟨found, edges, (owner, .alien v) :: ahead⟩
        (.fault (.flawAbout v.repr? (.notANode (d.owner owner.toList))))
  | cycle {found edges owner i ahead} : i ∈ found → Above edges i owner →
      Stops ⟨found, edges, (owner, .node i) :: ahead⟩ (.fault (.flaw (.cycle (d.variant i))))
  | shared {found edges owner i ahead} : i ∈ found → ¬ Above edges i owner →
      Stops ⟨found, edges, (owner, .node i) :: ahead⟩ (.fault (.flaw (.shared (d.variant i))))
  | tree {found edges} : Arborescence found edges → Stops ⟨found, edges, []⟩ .tree
  | noTree {found edges} : ¬ Arborescence found edges → Stops ⟨found, edges, []⟩ .noTree

variable {d : Draft} {r r' r'' : Registry d} {i j x : Fin d.size} {s : Slot d.size} {f : Fault}
  {found chain seen : List (Fin d.size)} {edges : List (Fin d.size × Fin d.size)}
  {owner : Option (Fin d.size)} {ahead rest : List (Option (Fin d.size) × Slot d.size)}

/-- Any number of steps. -/
def Steps : Registry d → Registry d → Prop := ReflTransGen Step

theorem Step.unique (h : Step r r') (h' : Step r r'') : r' = r'' := by
  cases h
  cases h'
  rfl

theorem Stops.not_step {v : Verdict} (h : r.Stops v) : ¬ Step r r' := by
  intro hstep
  cases hstep with
  | visit hi =>
    cases h with
    | cycle hmem => exact hi hmem
    | shared hmem => exact hi hmem

theorem Stops.unique {v w : Verdict} (h : r.Stops v) (h' : r.Stops w) : v = w := by
  cases h with
  | notANode => cases h'; rfl
  | cycle _ habove =>
    cases h' with
    | cycle => rfl
    | shared _ hnot => exact absurd habove hnot
  | shared _ hnot =>
    cases h' with
    | cycle _ habove => exact absurd habove hnot
    | shared => rfl
  | tree ht =>
    cases h' with
    | tree => rfl
    | noTree hnot => exact absurd ht hnot
  | noTree hnot =>
    cases h' with
    | tree ht => exact absurd ht hnot
    | noTree => rfl

/-- A search ends in one way. -/
theorem Steps.unique {v w : Verdict} (h : Steps r r') (hv : r'.Stops v) (h' : Steps r r'')
    (hw : r''.Stops w) : v = w := by
  have hright : Relator.RightUnique (Step (d := d)) := fun _ _ _ => Step.unique
  have hstuck : ∀ {r r' : Registry d} {v}, r.Stops v → Steps r r' → r = r' := fun hv h => by
    rcases Relation.ReflTransGen.cases_head h with rfl | ⟨_, hstep, _⟩
    · rfl
    · exact absurd hstep hv.not_step
  rcases Relation.ReflTransGen.total_of_right_unique hright h h' with hto | hto
  · obtain rfl := hstuck hv hto
    exact hv.unique hw
  · obtain rfl := hstuck hw hto
    exact hv.unique hw

/-- The number of cells that have not been found. -/
def unfound (r : Registry d) : Nat := (Finset.univ \ r.found.toFinset).card

theorem Step.unfound_lt (h : Step r r') : r'.unfound < r.unfound := by
  cases h with
  | @visit found _ _ i _ hi =>
    have hsub : Finset.univ \ (found ++ [i]).toFinset ⊆ Finset.univ \ found.toFinset :=
      Finset.sdiff_subset_sdiff subset_rfl fun x hx => by
        rw [List.mem_toFinset] at hx ⊢
        exact List.mem_append_left _ hx
    exact Finset.card_lt_card ((Finset.ssubset_iff_of_subset hsub).mpr ⟨i, by simp [hi], by simp⟩)

/-- **No search goes on for ever.** -/
theorem wellFounded (d : Draft) : WellFounded fun r' r : Registry d => Step r r' :=
  Subrelation.wf Step.unfound_lt (measure unfound).wf

/-! ### The graph built so far -/

/-- The cells found differ. The edges lead from cells found to cells found in their slots, at most one
to each, and whoever owns a slot ahead has been found. -/
structure Sound (r : Registry d) : Prop where
  nodup : r.found.Nodup
  edge : ∀ e ∈ r.edges, e.1 ∈ r.found ∧ e.2 ∈ r.found ∧ .node e.2 ∈ (d.cell e.1).slots
  entering : (r.edges.map Prod.snd).Nodup
  owned : ∀ e ∈ r.ahead, ∀ j, e.1 = some j → j ∈ r.found ∧ e.2 ∈ (d.cell j).slots

theorem sound_start (d : Draft) : (start d).Sound where
  nodup := .nil
  edge := by simp [start]
  entering := .nil
  owned := by simp [start]

theorem Sound.step (h : r.Sound) (hstep : Step r r') : r'.Sound := by
  cases hstep with
  | @visit found edges owner i ahead hi =>
    refine ⟨?_, fun e he => ?_, ?_, fun e he j hj => ?_⟩
    · exact h.nodup.append (List.nodup_singleton i) (by simpa using hi)
    · rcases List.mem_append.mp he with he | he
      · obtain ⟨hsource, htarget, hslot⟩ := h.edge e he
        exact ⟨List.mem_append_left _ hsource, List.mem_append_left _ htarget, hslot⟩
      · obtain ⟨j, hj, rfl⟩ := List.mem_map.mp he
        obtain ⟨hmem, hslot⟩ := h.owned _ List.mem_cons_self j (Option.mem_toList.mp hj)
        exact ⟨List.mem_append_left _ hmem, by simp, hslot⟩
    · rw [List.map_append]
      refine h.entering.append ?_ fun k hk hk' => ?_
      · cases owner <;> simp
      · obtain ⟨e, he, rfl⟩ := List.mem_map.mp hk
        obtain ⟨e', he', hsnd⟩ := List.mem_map.mp hk'
        obtain ⟨j, -, rfl⟩ := List.mem_map.mp he'
        obtain rfl : i = e.2 := hsnd
        exact hi (h.edge e he).2.1
    · rcases List.mem_append.mp he with he | he
      · obtain ⟨s, hs, rfl⟩ := List.mem_map.mp he
        obtain rfl := Option.some.inj hj
        exact ⟨by simp, hs⟩
      · obtain ⟨hmem, hslot⟩ := h.owned e (List.mem_cons_of_mem _ he) j hj
        exact ⟨List.mem_append_left _ hmem, hslot⟩

theorem Sound.steps (h : r.Sound) (hsteps : Steps r r') : r'.Sound := by
  induction hsteps with
  | refl => exact h
  | tail _ hstep ih => exact ih.step hstep

theorem Step.mem_found (h : Step r r') (hi : i ∈ r.found) : i ∈ r'.found := by
  cases h
  exact List.mem_append_left _ hi

theorem Steps.mem_found (h : Steps r r') (hi : i ∈ r.found) : i ∈ r'.found := by
  induction h with
  | refl => exact hi
  | tail _ hstep ih => exact hstep.mem_found ih

theorem Path.mono {new : List (Fin d.size × Fin d.size)} (h : Path edges i j) :
    Path (edges ++ new) i j :=
  Relation.ReflTransGen.mono (fun _ _ hab => List.mem_append_left _ hab) _ _ h

/-- What lies above a cell that has been found does not change any more. -/
theorem Sound.path_iff (h : r.Sound) (hsteps : Steps r r') (hj : j ∈ r.found) :
    Path r'.edges i j ↔ Path r.edges i j := by
  induction hsteps with
  | refl => rfl
  | @tail t r' hsteps hstep ih =>
    rw [← ih]
    clear ih
    have ht := h.steps hsteps
    replace hj := Steps.mem_found hsteps hj
    cases hstep with
    | @visit found edges owner x ahead hx =>
      constructor
      · intro hpath
        induction hpath with
        | refl => exact .refl
        | @tail a b _ hab ihpath =>
          -- the edge that was added last enters a cell that had not been found
          rcases List.mem_append.mp hab with hab | hab
          · exact .tail (ihpath (ht.edge _ hab).1) hab
          · obtain ⟨k, -, hk⟩ := List.mem_map.mp hab
            obtain ⟨-, rfl⟩ := Prod.mk.inj hk
            exact absurd hj hx
      · exact .mono

theorem Above.mem_found (h : Above r.edges x owner) (hr : r.Sound)
    (howner : ∀ j, owner = some j → j ∈ r.found) : x ∈ r.found := by
  obtain ⟨j, hj, hpath⟩ := h
  rcases Relation.ReflTransGen.cases_head hpath with rfl | ⟨k, hk, -⟩
  · exact howner x hj
  · exact (hr.edge _ hk).1

theorem Sound.above_iff (h : r.Sound) (hsteps : Steps r r')
    (howner : ∀ j, owner = some j → j ∈ r.found) :
    Above r'.edges x owner ↔ Above r.edges x owner :=
  exists_congr fun j => and_congr_right fun hj => h.path_iff hsteps (howner j hj)

/-- Above the slots of a cell that has just been found lie the cell and what lies above it. -/
theorem Sound.above_visit (h : Sound ⟨found, edges, (owner, .node i) :: ahead⟩) (hi : i ∉ found) :
    Above (edges ++ owner.toList.map fun j => (j, i)) x (some i) ↔
      x = i ∨ Above edges x owner := by
  have hentering : ∀ k, (k, i) ∈ edges ++ (owner.toList.map fun j => (j, i)) ↔ owner = some k := by
    intro k
    rw [List.mem_append]
    constructor
    · rintro (hk | hk)
      · exact absurd (h.edge _ hk).2.1 hi
      · obtain ⟨j, hj, hji⟩ := List.mem_map.mp hk
        obtain ⟨rfl, -⟩ := Prod.mk.inj hji
        exact Option.mem_toList.mp hj
    · exact fun hk => .inr (List.mem_map.mpr ⟨k, Option.mem_toList.mpr hk, rfl⟩)
  have hstep : Steps _ _ := .single (@Step.visit d found edges owner i ahead hi)
  have howner : ∀ j, owner = some j → j ∈ found := fun j hj =>
    (h.owned _ List.mem_cons_self j hj).1
  rw [← h.above_iff hstep howner]
  constructor
  · rintro ⟨k, hk, hpath⟩
    obtain rfl := Option.some.inj hk
    rcases Relation.ReflTransGen.cases_tail hpath with rfl | ⟨k, hpath, hk⟩
    · exact .inl rfl
    · exact .inr ⟨k, (hentering k).mp hk, hpath⟩
  · rintro (rfl | ⟨k, hk, hpath⟩)
    · exact ⟨_, rfl, .refl⟩
    · exact ⟨i, rfl, hpath.tail ((hentering k).mpr hk)⟩

/-! ### The graph at the end -/

/-- The root has been found: every other cell found has an edge and a path from the root. -/
structure Begun (i : Fin d.size) (r : Registry d) : Prop where
  root : d.root = .node i
  mem_found : i ∈ r.found
  count : r.edges.length + 1 = r.found.length
  connected : ∀ j ∈ r.found, Path r.edges i j
  owned : ∀ e ∈ r.ahead, ∃ j, e.1 = some j

theorem begun_of_start (h : Step (start d) r) : ∃ i, Begun i r := by
  generalize hstart : start d = t at h
  cases h with
  | @visit found edges owner i ahead hi =>
    obtain ⟨rfl, rfl, hahead⟩ := Registry.mk.inj hstart
    obtain ⟨hslot, rfl⟩ := List.cons.inj hahead
    obtain ⟨rfl, hroot⟩ := Prod.mk.inj hslot
    refine ⟨i, hroot, by simp, by simp, fun j hj => ?_, fun e he => ?_⟩
    · obtain rfl := List.mem_singleton.mp hj
      exact .refl
    · rw [List.append_nil] at he
      obtain ⟨s, -, rfl⟩ := List.mem_map.mp he
      exact ⟨i, rfl⟩

theorem Begun.step (h : Begun i r) (hr : r.Sound) (hstep : Step r r') : Begun i r' := by
  cases hstep with
  | @visit found edges owner k ahead hk =>
    obtain ⟨j, rfl⟩ : ∃ j, owner = some j := h.owned _ List.mem_cons_self
    have hcount : edges.length + 1 = found.length := h.count
    refine ⟨h.root, List.mem_append_left _ h.mem_found, ?_, fun l hl => ?_, fun e he => ?_⟩
    · simp [hcount]
    · rcases List.mem_append.mp hl with hl | hl
      · exact Path.mono (h.connected l hl)
      · obtain rfl := List.mem_singleton.mp hl
        have hj : j ∈ found := (hr.owned _ List.mem_cons_self j rfl).1
        exact (Path.mono (h.connected j hj)).tail (by simp)
    · rcases List.mem_append.mp he with he | he
      · obtain ⟨s, -, rfl⟩ := List.mem_map.mp he
        exact ⟨k, rfl⟩
      · exact h.owned e (List.mem_cons_of_mem _ he)

theorem begun_of_steps (h : Steps (start d) r) : r = start d ∨ ∃ i, Begun i r := by
  induction h with
  | refl => exact .inl rfl
  | tail hsteps hstep ih =>
    rcases ih with rfl | ⟨i, hi⟩
    · exact .inr (begun_of_start hstep)
    · exact .inr ⟨i, hi.step ((sound_start d).steps hsteps) hstep⟩

/-- **What is registered at the end of a search is a tree.** -/
theorem arborescence (h : Steps (start d) ⟨found, edges, []⟩) : Arborescence found edges := by
  have hr := (sound_start d).steps h
  rcases begun_of_steps h with hstart | ⟨i, hi⟩
  · cases hstart
  · have hedges : edges.Nodup := .of_map Prod.snd hr.entering
    have heqv : ∀ j ∈ found, Relation.EqvGen (fun x y => (x, y) ∈ edges) i j := fun j hj =>
      Relation.EqvGen.reflTransGen_le_eqvGen _ _ _ (hi.connected j hj)
    refine ⟨?_, fun a ha b hb => ?_, fun a a' b ha ha' => ?_⟩
    · rw [hedges.dedup, hr.nodup.dedup]
      exact hi.count
    · exact .trans _ _ _ (.symm _ _ (heqv a ha)) (heqv b hb)
    · exact (Prod.mk.inj (List.inj_on_of_nodup_map hr.entering ha ha' rfl)).1

/-! ### The search and the recursion -/

/-- The search from a slot on comes to what the recursion gives for it: to the slots that were ahead
behind it with the same cells found, or to the same fault. -/
inductive Simulates {α : Type} (r : Registry d)
    (rest : List (Option (Fin d.size) × Slot d.size)) :
    Except Fault (α × List (Fin d.size)) → Prop
  | ok {a : α} {seen : List (Fin d.size)} {edges : List (Fin d.size × Fin d.size)} :
      Steps r ⟨seen.reverse, edges, rest⟩ → Simulates r rest (.ok (a, seen))
  | error {r' : Registry d} {f : Fault} : Steps r r' → r'.Stops (.fault f) →
      Simulates r rest (.error f)

/-- The cells of a chain are those that lie above its slots in the graph. -/
def Chained (edges : List (Fin d.size × Fin d.size)) (chain : List (Fin d.size)) : Prop :=
  ∀ x, x ∈ chain ↔ Above edges x chain.head?

theorem stops_alien {v : Value} (chain : List (Fin d.size)) :
    Stops ⟨found, edges, (chain.head?, .alien v) :: rest⟩
      (.fault (.flawAbout v.repr? (.notANode (d.owner chain)))) := by
  cases chain with
  | nil => exact @Stops.notANode d found edges none v rest
  | cons i chain => exact @Stops.notANode d found edges (some i) v rest

theorem stops_cycle (hreach : Steps (start d) ⟨found, edges, (chain.head?, .node i) :: rest⟩)
    (hchain : Chained edges chain) (hi : i ∈ chain) :
    Stops ⟨found, edges, (chain.head?, .node i) :: rest⟩ (.fault (.flaw (.cycle (d.variant i)))) := by
  have hsound := (sound_start d).steps hreach
  have habove := (hchain i).mp hi
  exact .cycle (habove.mem_found hsound fun j hj => (hsound.owned _ List.mem_cons_self j hj).1)
    habove

theorem simulates_thread
    {step : List (Fin d.size) → Slot d.size → Except Fault (Tree Label × List (Fin d.size))}
    (hstep : ∀ {seen : List (Fin d.size)} {edges : List (Fin d.size × Fin d.size)}
      {s : Slot d.size} {rest : List (Option (Fin d.size) × Slot d.size)},
      Steps (start d) ⟨seen.reverse, edges, (chain.head?, s) :: rest⟩ → Chained edges chain →
        Simulates ⟨seen.reverse, edges, (chain.head?, s) :: rest⟩ rest (step seen s)) :
    ∀ {slots : List (Slot d.size)} {seen : List (Fin d.size)}
      {edges : List (Fin d.size × Fin d.size)},
      Steps (start d) ⟨seen.reverse, edges, (slots.map fun s => (chain.head?, s)) ++ rest⟩ →
        Chained edges chain →
          Simulates ⟨seen.reverse, edges, (slots.map fun s => (chain.head?, s)) ++ rest⟩ rest
            (Draft.thread step seen slots)
  | [], seen, edges, _, _ => .ok .refl
  | s :: slots, seen, edges, hreach, hchain => by
    have hsim := hstep hreach hchain
    rw [Draft.thread]
    generalize step seen s = r at hsim
    cases hsim with
    | error hsteps hstops => exact .error hsteps hstops
    | @ok t seen' edges' hsteps =>
      have hsound := (sound_start d).steps hreach
      have howner : ∀ j, chain.head? = some j → j ∈ seen.reverse := fun j hj =>
        (hsound.owned _ List.mem_cons_self j hj).1
      have hchain' : Chained edges' chain := fun x =>
        (hchain x).trans (hsound.above_iff hsteps howner).symm
      have hrest := simulates_thread hstep (hreach.trans hsteps) hchain'
      generalize hr : Draft.thread step seen' slots = r at hrest
      simp only [hr, bind, Except.bind]
      cases hrest with
      | error hsteps' hstops => exact .error (hsteps.trans hsteps') hstops
      | ok hsteps' => exact .ok (hsteps.trans hsteps')

/-- **The search does what the recursion does**, slot by slot. -/
theorem simulates_grow : ∀ {fuel : Nat} {chain seen : List (Fin d.size)}
    {edges : List (Fin d.size × Fin d.size)} {s : Slot d.size}
    {rest : List (Option (Fin d.size) × Slot d.size)},
    Steps (start d) ⟨seen.reverse, edges, (chain.head?, s) :: rest⟩ → Chained edges chain →
      chain.Nodup → chain.length + fuel = d.size →
        Simulates ⟨seen.reverse, edges, (chain.head?, s) :: rest⟩ rest
          (d.grow fuel chain seen s) := by
  intro fuel
  induction fuel with
  | zero =>
    intro chain seen edges s rest hreach hchain hnodup hfuel
    cases s with
    | alien v => exact .error .refl (stops_alien chain)
    | node i =>
      have hi := Draft.mem_of_nodup_of_length (i := i) hnodup hfuel
      rw [Draft.grow, if_pos hi]
      exact .error .refl (stops_cycle hreach hchain hi)
  | succ fuel ih =>
    intro chain seen edges s rest hreach hchain hnodup hfuel
    cases s with
    | alien v => exact .error .refl (stops_alien chain)
    | node i =>
      rw [Draft.grow]
      split_ifs with hi hmem
      · exact .error .refl (stops_cycle hreach hchain hi)
      · exact .error .refl (.shared (List.mem_reverse.mpr hmem) fun h => hi ((hchain i).mpr h))
      · have hnew : i ∉ seen.reverse := fun h => hmem (List.mem_reverse.mp h)
        have hvisit := @Step.visit d seen.reverse edges chain.head? i rest hnew
        rw [← List.reverse_cons] at hvisit
        have hsound := (sound_start d).steps hreach
        have hchain' : Chained _ (i :: chain) := fun x => by
          rw [List.mem_cons, hchain x]
          exact (hsound.above_visit hnew).symm
        have hfuel' : (i :: chain).length + fuel = d.size := by rw [List.length_cons]; omega
        have hall := simulates_thread (fun hreach' hchain' => ih hreach' hchain'
          (List.nodup_cons.mpr ⟨hi, hnodup⟩) hfuel') (hreach.tail hvisit) hchain'
        generalize hr : Draft.thread _ _ _ = r at hall
        simp only [bind, Except.bind]
        cases hall with
        | error hsteps hstops => exact .error (.head hvisit hsteps) hstops
        | ok hsteps => exact .ok (.head hvisit hsteps)

end Registry

end Scaffold
