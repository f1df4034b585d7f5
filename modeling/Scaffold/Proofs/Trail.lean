import Scaffold.Proofs.Gates

/-! # Trails

The trail to a node is the way on which a traversal of the bound values comes to it
(`Assembly.Trail`). It consists of the ancestors of the node without the options among them, each
showing the one that follows (`Trail.ancestors`). The chain of nodes that a scan gives is the trail
to the question that it has found (`Setup.trail_of_scan`). -/

namespace Scaffold

namespace Assembly

/-- **The trail of a traversal** from a node to another: the nodes on the way, both included. -/
inductive Trail (context : Mapping Value) : Node → List Node → Node → Prop
  | refl (n : Node) : Trail context n [n] n
  | step {l m n : Node} {ns : List Node} : m ∈ shown context l → Trail context m ns n →
      Trail context l (l :: ns) n

variable {context context' : Mapping Value} {l m n : Node} {ns : List Node}

theorem Trail.reaches (h : Trail context l ns n) : Reaches context l n := by
  induction h with
  | refl n => exact .refl n
  | step hm _ ih => exact .step hm ih

/-- With more bound values the trail is the same. -/
theorem Trail.mono (hwithin : Mapping.Within context context') (h : Trail context l ns n) :
    Trail context' l ns n := by
  induction h with
  | refl n => exact .refl n
  | step hm _ ih => exact .step (mem_shown_mono hwithin hm) ih

theorem Trail.head? (h : Trail context l ns n) : ns.head? = some l := by
  cases h <;> rfl

theorem Trail.getLast? (h : Trail context l ns n) : ns.getLast? = some n := by
  induction h with
  | refl n => rfl
  | step _ h ih => rw [List.getLast?_cons, ih]; rfl

/-- The node is an option. -/
def isOption (n : Node) : Bool := (Node.content n).option?.isSome

theorem isOption_of_meets {s : Setup} (hn : s.Meets n) : isOption n = false := by
  unfold isOption
  rcases hn.content_cases with hc | ⟨q, hc⟩ | ⟨path, v, hc⟩ | hc | ⟨l, help, hc⟩ | ⟨r, hc⟩ <;>
    rw [hc] <;> rfl

/-- **A trail consists of the ancestors without the options**, and each of them shows a node that
the end of the trail lies below. -/
theorem Trail.ancestors {s : Setup} (hs : s.Accepted) (h : Trail context l ns n)
    (hl : s.Meets l) {above : List Node} (ha : s.descriptor.ancestors l = .ok above) :
    ∃ below, s.descriptor.ancestors n = .ok (above ++ below) ∧
      ns = below.filter (!isOption ·) ++ [n] ∧
      ∀ a ∈ below, isOption a = false → ∃ m ∈ shown context a, n ∈ m.subtrees := by
  induction h generalizing above with
  | refl n => exact ⟨[], by simpa using ha, rfl, by simp⟩
  | @step l m n ns hm h ih =>
    have hmeets := meets_of_mem_shown hs hl hm
    have hstop := isOption_of_meets hl
    have hleads : ∃ m ∈ shown context l, n ∈ m.subtrees := ⟨m, hm, h.reaches.mem_subtrees⟩
    rcases mem_children_of_mem_shown hm with hchild | ⟨c, hc, hoption, hchild⟩
    · obtain ⟨below, hn, rfl, hgates⟩ :=
        ih hmeets (Descriptor.ancestors_of_mem_children hl.1 hchild ha)
      refine ⟨l :: below, by simpa using hn, by simp [hstop], fun a hmem ho => ?_⟩
      rcases List.mem_cons.mp hmem with rfl | hmem
      · exact hleads
      · exact hgates a hmem ho
    · have hcnode := Descriptor.mem_nodes_of_mem_children hl.1 hc
      have hcabove := Descriptor.ancestors_of_mem_children hl.1 hc ha
      obtain ⟨below, hn, rfl, hgates⟩ :=
        ih hmeets (Descriptor.ancestors_of_mem_children hcnode hchild hcabove)
      have hskip : isOption c = true := hoption
      refine ⟨l :: c :: below, by simpa using hn, by simp [hstop, hskip], fun a hmem ho => ?_⟩
      rcases List.mem_cons.mp hmem with rfl | hmem
      · exact hleads
      rcases List.mem_cons.mp hmem with rfl | hmem
      · rw [hskip] at ho
        cases ho
      · exact hgates a hmem ho

end Assembly

/-! ### Chains of scans -/

namespace Setup

open Assembly

variable {s : Setup}

/-- What several scans find one of them finds. -/
theorem exists_scan_of_scanAll {chain : List Node} : ∀ {ns : List Node} {env : Env},
    (s.scanAll env ns).outcome = .ok (some chain) → ∃ n ∈ ns, ∃ mid, s.Growth env mid ∧
      (s.scan mid n).outcome = .ok (some chain) ∧ (s.scan mid n).env = (s.scanAll env ns).env
  | [], env, h => by
    rw [scanAll] at h
    cases h
  | n :: ns, env, h => by
    rw [scanAll] at h ⊢
    by_cases ho : (s.scan env n).outcome = .ok none
    · obtain ⟨houtcome, henv⟩ := Scan.next_of_none ho fun env => s.scanAll env ns
      rw [houtcome] at h
      obtain ⟨m, hm, mid, hgrowth, hfound, hmid⟩ := exists_scan_of_scanAll h
      exact ⟨m, by simp [hm], mid, (scan_ends n env).growth.trans hgrowth, hfound,
        hmid.trans henv.symm⟩
    · rw [Scan.next_of_ne ho] at h ⊢
      exact ⟨n, by simp, env, .refl s env, h, rfl⟩

/-- **The chain that a scan finds is a trail** under the bound values that the scan leaves. -/
theorem trail_of_scan (hs : s.Accepted) (n : Node) : ∀ {env : Env} {chain : List Node},
    s.Sound env → s.Meets n → (s.scan env n).outcome = .ok (some chain) →
      ∃ m, Trail (s.scan env n).env.values n chain m := by
  induction n using Tree.inner_induction with
  | h n ihc ihg =>
    intro env chain henv hn h
    cases hm : s.meet env n with
    | pass mid active =>
      have hpass := hs.passage henv hn hm
      obtain ⟨hscan, houtcome, -⟩ := scan_of_pass hm
      rw [houtcome] at h
      obtain ⟨found, hfound, h⟩ := Fallible.map_ok.mp h
      obtain ⟨rest, rfl, rfl⟩ := Option.map_eq_some_iff.mp h
      obtain ⟨c, hc, mid', hgrowth, hbelow, hout⟩ := exists_scan_of_scanAll hfound
      have hlast := (scan_ends (s := s) c mid').growth
      obtain ⟨m, htrail⟩ : ∃ m, Trail (s.scan mid' c).env.values c rest m := by
        have hsound := hgrowth.sound hpass.sound
        rcases mem_children_of_meet hm hc with hchild | ⟨o, ho, -, hchild⟩
        · exact ihc c hchild hsound (hpass.meets c hc) hbelow
        · exact ihg o ho c hchild hsound (hpass.meets c hc) hbelow
      rw [hscan, ← hout]
      exact ⟨m, .step (hpass.mem_shown (Env.within_values (hgrowth.trans hlast).grows) hc) htrail⟩
    | due =>
      rw [(scan_of_due hm).2] at h
      cases h
      exact ⟨n, .refl n⟩
    | fail out f =>
      rw [(scan_of_fail hm).2] at h
      cases h

end Setup

end Scaffold
