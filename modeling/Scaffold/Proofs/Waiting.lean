import Scaffold.Proofs.InOrder
import Scaffold.Proofs.Run

/-! # Where a flow stands

A flow that waits stands on a question that is due, and has entered the ancestors of the question
from the root down, but no options; all gates on the way are open under the values bound. A flow
that is ready has entered the root alone (`Stage.Run.stands`). -/

namespace Scaffold

open Assembly

namespace Session

/-- The gates among the nodes above another let a traversal through to it: every question has an
answer that selects the node or what it lies below, and every conditional is satisfied. -/
structure Opens (s : Session) (above : List Node) (n : Node) : Prop where
  question : ∀ a ∈ above, ∀ q, Node.content a = .question q → ∃ path bound branch,
    Node.path a = .ok path ∧ s.env.get? path = some bound ∧
      Branch.ofAnswer a bound.value = .ok branch ∧
        ∃ m ∈ branch.nodes a.children, n ∈ m.subtrees
  conditional : ∀ a ∈ above, ∀ path expected, Node.content a = .conditional path expected →
    ∃ bound, s.env.get? path = some bound ∧ bound.value.equal expected = true

/-- The session stands on a question of the descriptor that needs an answer: it is not bound, not
optional, and without a default if defaults are accepted. The nodes entered are the ancestors of the
question without the options, and the question; the bound values open the gates among them. -/
structure StandsOn (s : Session) (n : Node) : Prop where
  mem : n ∈ s.setup.descriptor.nodes
  due : ∃ q path, Node.content n = .question q ∧ q.form.isConcrete = true ∧
    Node.path n = .ok path ∧ s.env.get? path = none ∧ q.isOptional = false ∧
      (s.setup.settings.acceptDefaults = true → q.hasFallback = false)
  reached : Reaches s.env.values s.setup.descriptor.root n
  entered : ∃ above, s.setup.descriptor.ancestors n = .ok above ∧
    s.stack.items = above.filter (!isOption ·) ++ [n] ∧ s.Opens above n

variable {s : Session} {n : Node}

/-- Nodes that show what another lies below have their gates open. -/
theorem opens_of_shown (hs : s.setup.Accepted) {above : List Node}
    (hmem : ∀ a ∈ above, a ∈ s.setup.descriptor.nodes)
    (hshown : ∀ a ∈ above, isOption a = false →
      ∃ m ∈ shown s.env.values a, n ∈ m.subtrees) : s.Opens above n where
  question a ha q hq := by
    obtain ⟨m, hm, hn⟩ := hshown a ha (by rw [isOption, hq]; rfl)
    obtain ⟨path, hp, -⟩ := hs.question (hmem a ha) hq
    obtain ⟨v, branch, hv, hbranch, hm⟩ := exists_answer_of_mem_shown hq hp hm
    rw [Env.get?_values] at hv
    obtain ⟨bound, hbound, rfl⟩ := Option.map_eq_some_iff.mp hv
    exact ⟨path, bound, branch, hp, hbound, hbranch, m, hm, hn⟩
  conditional a ha path expected hc := by
    obtain ⟨m, hm, -⟩ := hshown a ha (by rw [isOption, hc]; rfl)
    obtain ⟨v, hv, hequal⟩ := holds_of_mem_shown hc hm
    rw [Env.get?_values] at hv
    obtain ⟨bound, hbound, rfl⟩ := Option.map_eq_some_iff.mp hv
    exact ⟨bound, hbound, hequal⟩

/-- A session that waits for a question stands on it. -/
theorem Waits.standsOn (hs : s.Sound) (hw : s.Waits n) : s.StandsOn n := by
  obtain ⟨q, path, hq, hp, hu, ho, hf⟩ := hw.due
  have hn := hw.mem_nodes hs
  obtain ⟨_, -, hfits⟩ := hs.accepted.question hn hq
  obtain ⟨above, habove, hentered, hshown⟩ := hw.trail.ancestors hs.accepted
    hs.accepted.meets_root (Descriptor.ancestors_root _)
  refine ⟨hn, ⟨q, path, hq, hfits.concrete, hp, hu, ho, fun ha => by simpa [ha] using hf⟩,
    hw.reached, above, habove, hentered, opens_of_shown hs.accepted ?_ hshown⟩
  exact Descriptor.mem_nodes_of_mem_ancestors habove

end Session

namespace Stage

variable {draft : Draft} {settings : Settings} {given : Mapping Value} {stage : Stage}

/-- **Where a flow stands.** Whatever steps a flow has taken, if it waits for a question then it
stands on it, and if it is ready then it has entered the root alone. -/
theorem Run.stands (h : Run draft settings given stage) : ∀ s, stage.session? = some s →
    draft.accept = .ok s.setup.descriptor ∧ s.setup.settings = settings ∧
      (∀ n, stage = waiting s n → s.StandsOn n) ∧
      (stage = ready s → s.stack.items = [s.setup.descriptor.root]) := by
  intro s hs
  have hfair := h.fair
  cases stage with
  | waiting s' n =>
    obtain rfl := Option.some.inj hs
    obtain ⟨hf, haccounted, hw⟩ := hfair
    obtain ⟨hd, hsettings⟩ := hf.accept_eq
    refine ⟨hd, hsettings, fun m hm => ?_, nofun⟩
    obtain ⟨-, rfl⟩ := waiting.inj hm
    exact hw.standsOn haccounted.sound
  | ready s' =>
    obtain rfl := Option.some.inj hs
    obtain ⟨hd, hsettings⟩ := hfair.1.accept_eq
    refine ⟨hd, hsettings, nofun, fun _ => ?_⟩
    cases h with
    | step hrun hnext =>
      rcases step_of_next hnext with ⟨f, hf⟩ | hstep
      · cases hf
      · exact (hrun.fair.comes hstep).rested
  | _ => cases hs

/-- Once the first question has an answer, the flow stands on the one behind the gate. -/
theorem earlyGate_stands : ∃ s n, Run (.earlyGate false) {} [("x", .str "v")] (waiting s n) ∧
    Node.path n = .ok "y" ∧ s.StandsOn n := by
  obtain ⟨s, n, h, hn⟩ : ∃ s n, Run (.earlyGate false) {} [("x", .str "v")] (waiting s n) ∧
      Node.path n = .ok "y" := by
    have h₁ := @Run.step (.earlyGate false) {} _ _ _ none .start rfl
    have h₂ := @Run.step _ _ _ _ _ (some (.ofPairs [("x", .str "v")] "")) h₁ rfl
    exact ⟨_, _, h₂, rfl⟩
  obtain ⟨-, -, hstands, -⟩ := h.stands s rfl
  exact ⟨s, n, h, hn, hstands n rfl⟩

end Stage

end Scaffold
