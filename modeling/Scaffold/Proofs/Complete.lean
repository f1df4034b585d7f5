import Scaffold.Proofs.InOrder
import Scaffold.Proofs.Run

/-! # What a ready flow lacks

A flow is ready when a scan comes to its end. That need not mean that every question reached has
been dealt with: a gate that the scan turned away from may have been opened by what was bound
further on. The only questions that a ready flow can lack lie behind such gates
(`Stage.Run.complete_iff`). -/

namespace Scaffold

open Assembly Setup

namespace Session

variable {s : Session}

/-- The node is a question that is neither bound nor optional without a default. -/
def Lacks (s : Session) (n : Node) : Prop :=
  ∃ q path, Node.content n = .question q ∧ Node.path n = .ok path ∧ s.env.get? path = none ∧
    ¬ (q.isOptional = true ∧ q.hasFallback = false)

/-- The session lacks no question that the bound values reach. -/
def Complete (s : Session) : Prop :=
  ∀ n, Reaches s.env.values s.setup.descriptor.root n → ¬ s.Lacks n

/-- A question that was passed is not lacking. -/
theorem not_lacks_of_passed (hs : s.setup.Accepted) {before : Env} {met : List Passed}
    {left : List Node} (hbefore : s.setup.Sound before)
    (hc : s.setup.Course before [s.setup.descriptor.root] met s.env left) {p : Passed}
    (hp : p ∈ met) : ¬ s.Lacks p.node := by
  rintro ⟨q, path, hq, hpath, hu, hneeded⟩
  obtain ⟨-, -, hgrow, active, hpass⟩ := Course.passage hs hc hbefore hs.meets_start p hp
  rcases hpass.question q path hq hpath with ⟨b, hb⟩ | hopt
  · rw [Mapping.get?_of_prefix hgrow hb] at hu
    cases hu
  · exact hneeded hopt

variable {before : Env} {met : List Passed} (hs : s.Sound) (hbefore : s.setup.Sound before)
  (hc : s.setup.Course before [s.setup.descriptor.root] met s.env [])
include hs hbefore hc

/-- A session lacks what lies behind the unsettled nodes of its last scan, and nothing else. -/
theorem complete_iff_of_course : s.Complete ↔
    ∀ g ∈ unsettled met, ∀ n, Reaches s.env.values g n → ¬ s.Lacks n := by
  constructor
  · intro h g hg n hn
    obtain ⟨p, hp, rfl, -⟩ := mem_unsettled.mp hg
    have hreaches := Course.reaches_start hs.accepted hc hbefore hs.accepted.meets_start
    exact h n ((hreaches.2 p hp).trans hn)
  · intro h n hn hlacks
    rcases Course.complete hs.accepted hc hbefore hs.accepted.meets_start (Mapping.Within.refl _) _
      (List.mem_singleton_self _) n hn with ⟨p, hp, rfl⟩ | ⟨p, hp, hshut, hn⟩
    · exact not_lacks_of_passed hs.accepted hbefore hc hp hlacks
    · exact h p.node (mem_unsettled.mpr ⟨p, hp, rfl, .inr hshut⟩) n hn hlacks

/-- Another scan finds what a scan of the unsettled nodes finds. -/
theorem seek_eq : s.seek.result = (s.setup.scanAll s.env (unsettled met)).found := by
  have hseek := hs.seek.ends
  have hrescan := Course.rescan hs.accepted hc hbefore hs.accepted.meets_start
    s.setup.settings.acceptDefaults s.env hs.env (List.prefix_refl _)
  rw [accepting_self] at hrescan
  rw [hrescan, List.append_nil] at hseek
  exact (hseek.unique (scanAll_ends _ _)).2

theorem complete_of_inOrder (hd : s.setup.descriptor.InOrder) : s.Complete := by
  intro n hn
  obtain ⟨p, hp, rfl⟩ := Course.passed_of_inOrder hs.accepted hd hc hbefore hs.accepted.meets_start
    s.setup.pairwise_root (List.mem_singleton_self _) hn
  exact not_lacks_of_passed hs.accepted hbefore hc hp

theorem seek_of_inOrder (hd : s.setup.descriptor.InOrder)
    (hplain : s.setup.descriptor.PlainPresets) : s.seek.result = .ok none := by
  have hinert := Course.inert_of_inOrder hs.accepted hd hplain hc hbefore hs.accepted.meets_start
    s.setup.pairwise_root s.setup.settings.acceptDefaults
  rw [accepting_self] at hinert
  have hends : s.setup.Ends s.env (unsettled met) s.env (.ok none) := by
    rw [← List.append_nil (unsettled met), ends_of_inert hinert]
    exact ends_nil_iff.mpr ⟨rfl, rfl⟩
  rw [seek_eq hs hbefore hc]
  exact ((scanAll_ends _ _).unique hends).2

end Session

namespace Stage

variable {draft : Draft} {settings : Settings} {given : Mapping Value} {s : Session}

/-- **When a ready flow is complete.** The scan that made a flow ready went from the root to its
end. The flow lacks no question that the bound values reach if and only if none lies behind the
nodes that this scan left unsettled, and another scan finds just what a scan of these nodes finds.
If the descriptor is in order, the flow is complete, and with plain presets another scan finds
nothing. -/
theorem Run.complete_iff (h : Run draft settings given (ready s)) :
    ∃ before met, s.setup.Course before [s.setup.descriptor.root] met s.env [] ∧
      (s.Complete ↔ ∀ g ∈ unsettled met, ∀ n, Reaches s.env.values g n → ¬ s.Lacks n) ∧
      s.seek.result = (s.setup.scanAll s.env (unsettled met)).found ∧
      (s.setup.descriptor.InOrder → s.Complete) ∧
      (s.setup.descriptor.InOrder → s.setup.descriptor.PlainPresets →
        s.seek.result = .ok none) := by
  obtain ⟨-, haccounted, before, met, hbefore, hc⟩ := h.fair
  have hs := haccounted.sound
  exact ⟨before, met, hc, Session.complete_iff_of_course hs hbefore hc,
    Session.seek_eq hs hbefore hc, Session.complete_of_inOrder hs hbefore hc,
    Session.seek_of_inOrder hs hbefore hc⟩

theorem lateGate_complete_iff : ∃ s, Run (.lateGate true) {} [] (ready s) ∧
    ∃ before met, s.setup.Course before [s.setup.descriptor.root] met s.env [] ∧
      s.seek.result = (s.setup.scanAll s.env (unsettled met)).found := by
  have hrun : ∀ s, ((initial (.lateGate true) {}).next none).result = .ok (ready s) →
      Run (.lateGate true) {} [] (ready s) := fun s h => .step .start h
  refine ⟨_, hrun _ rfl, ?_⟩
  obtain ⟨before, met, hc, -, hseek, -⟩ := (hrun _ rfl).complete_iff
  exact ⟨before, met, hc, hseek⟩

/-- A ready flow may lack a question that is reached, and then another scan finds it. -/
theorem lateGate_not_complete : ∃ s, Run (.lateGate true) {} [] (ready s) ∧ ¬ s.Complete ∧
    ∃ n, s.seek.result = .ok (some n) := by
  have hrun : ∀ s, ((initial (.lateGate true) {}).next none).result = .ok (ready s) →
      Run (.lateGate true) {} [] (ready s) := fun s h => .step .start h
  refine ⟨_, hrun _ rfl, fun h => ?_, ⟨_, rfl⟩⟩
  refine h _ (.step List.mem_cons_self (.step List.mem_cons_self (.refl _)))
    ⟨_, "y", rfl, rfl, rfl, ?_⟩
  rintro ⟨h, -⟩
  cases h

end Stage

end Scaffold
