import Scaffold.Proofs.Course
import Scaffold.Session

/-! # Environments only grow

Every value gets bound by the merge of a batch. So whatever a session is asked to do, nothing that
is bound is taken back, whether the operation succeeds or fails, and what it leaves is sound if what
it found was (`Setup.Growth`). A scan is no different, wherever it starts (`Course.growth`), and
neither is any sequence of operations (`Session.becomes_after`). -/

namespace Scaffold

namespace Setup

/-- An environment has grown into another by merges. -/
structure Growth (s : Setup) (env out : Env) : Prop where
  grows : env <+: out
  sound : s.Sound env → s.Sound out

variable {s : Setup} {env mid out : Env} {n : Node}

theorem Growth.refl (s : Setup) (env : Env) : s.Growth env env := ⟨List.prefix_refl _, id⟩

theorem Growth.trans (h : s.Growth env mid) (h' : s.Growth mid out) : s.Growth env out :=
  ⟨h.grows.trans h'.grows, fun henv => h'.sound (h.sound henv)⟩

/-! ### Binding -/

theorem growth_of_supply {batch : Batch} {anchor : Node} {event : Event}
    (h : s.supply env batch anchor = .ok (out, event)) : s.Growth env out := by
  obtain ⟨scope, -, h⟩ := Fallible.bind_ok.mp h
  obtain ⟨merged, hmerge, h⟩ := Fallible.bind_ok.mp h
  obtain ⟨rfl, -⟩ := Prod.mk.inj (Except.ok.inj h)
  exact ⟨Env.prefix_of_merge hmerge, fun henv => henv.merge hmerge⟩

theorem growth_of_answer {v : Value} {event : Event} (h : s.answer env n v = .ok (out, event)) :
    s.Growth env out := by
  rw [answer] at h
  split at h
  · exact growth_of_supply h
  · cases h

theorem growth_of_acceptDefault {events : List Event}
    (h : s.acceptDefault env n = .ok (out, events)) : s.Growth env out := by
  rw [acceptDefault] at h
  split at h
  · obtain ⟨⟨env', event⟩, hanswer, h⟩ := Fallible.bind_ok.mp h
    obtain ⟨path, -, h⟩ := Fallible.bind_ok.mp h
    split at h
    · obtain ⟨rfl, -⟩ := Prod.mk.inj (Except.ok.inj h)
      exact growth_of_answer hanswer
    · cases h
  · cases h

theorem growth_of_resolve {q : Question} {events : List Event} {v : Value}
    (h : s.resolve env n q = .ok (.answered out events v)) : s.Growth env out := by
  obtain ⟨path, -, h⟩ := Fallible.bind_ok.mp h
  dsimp only at h
  split at h
  · cases h
    exact .refl s env
  · split_ifs at h
    · cases h
    · obtain ⟨⟨env', events'⟩, hdefault, h⟩ := Fallible.bind_ok.mp h
      split at h
      · cases h
        exact growth_of_acceptDefault hdefault
      · cases h
    · cases h

/-! ### Scans -/

/-- The environment that a scan has after meeting a node. -/
def left (env : Env) : Meeting → Env
  | .pass out _ | .fail out _ => out
  | .due => env

theorem growth_of_meet (s : Setup) (env : Env) (n : Node) :
    s.Growth env (left env (s.meet env n)) := by
  unfold meet
  split
  case h_1 =>
    split
    next hsupply => exact growth_of_supply hsupply
    next => exact .refl s env
  case h_2 =>
    split_ifs
    · split
      next => exact .refl s env
      next => exact .refl s env
      next => exact .refl s env
      next hresolve =>
        have hgrowth := growth_of_resolve hresolve
        split
        · exact hgrowth
        · exact hgrowth
    · exact .refl s env
  all_goals exact .refl s env

theorem growth_of_pass {active : List Node} (h : s.meet env n = .pass out active) :
    s.Growth env out := by
  have hgrowth := growth_of_meet s env n
  rwa [h] at hgrowth

theorem growth_of_fail {f : Fault} (h : s.meet env n = .fail out f) : s.Growth env out := by
  have hgrowth := growth_of_meet s env n
  rwa [h] at hgrowth

variable {ahead left : List Node} {met : List Passed} {r : Except Fault (Option Node)}

theorem Course.growth (h : s.Course env ahead met out left) : s.Growth env out := by
  induction h with
  | refl => exact .refl s _
  | step hmeet _ ih => exact (growth_of_pass hmeet).trans ih

theorem Course.grows (h : s.Course env ahead met out left) : env <+: out := h.growth.grows

theorem Course.sound (h : s.Course env ahead met out left) (henv : s.Sound env) : s.Sound out :=
  h.growth.sound henv

theorem Stops.growth (h : s.Stops env left out r) : s.Growth env out := by
  cases h with
  | done => exact .refl s env
  | due => exact .refl s env
  | fail hmeet => exact growth_of_fail hmeet

theorem Ends.growth (h : s.Ends env ahead out r) : s.Growth env out := by
  obtain ⟨met, mid, left, hc, hstop⟩ := h
  exact hc.growth.trans hstop.growth

end Setup

namespace Session

variable {s t : Session}

/-! ### Searches -/

/-- A search by a session that has entered a node scans from the outermost node entered. -/
theorem seek_of_head {start : Node} (h : s.stack.items.head? = some start) :
    s.seek = ⟨⟨s.setup, ⟨match (s.setup.scan s.env start).outcome with
        | .ok (some chain) => chain
        | _ => [start]⟩, (s.setup.scan s.env start).env⟩,
      (s.setup.scan s.env start).events, (s.setup.scan s.env start).found⟩ := by
  obtain ⟨items, hitems⟩ := List.head?_eq_some_iff.mp h
  have hrewind : s.rewind = ⟨s.setup, ⟨[start]⟩, s.env⟩ := by
    rw [rewind, Stack.rewind, hitems]
    rfl
  have hcurrent : (⟨s.setup, ⟨[start]⟩, s.env⟩ : Session).current = .ok start := rfl
  unfold seek Scan.found
  simp only [hrewind, hcurrent]
  split
  next f hf => simp only [hf]; rfl
  next hf => simp only [hf]; rfl
  next chain hf =>
    obtain ⟨rest, rfl⟩ := List.head?_eq_some_iff.mp (Setup.head?_of_scan hf)
    simp only [hf]
    rfl

/-- A session that has entered nothing searches nowhere. -/
theorem seek_of_empty (h : s.stack.items = []) :
    s.seek = ⟨s, [], .error (.protocol .emptyPeek)⟩ := by
  obtain ⟨setup, ⟨items⟩, env⟩ := s
  obtain rfl : items = [] := h
  rfl

/-! ### Operations on sessions -/

/-- What a session can be asked to do. -/
inductive Operation where
  | enter (n : Node)
  | rewind
  | leave
  | supply (offer : Offer) (anchor : Node)
  | answer (n : Node) (v : Value)
  | acceptDefault (n : Node)
  | seek

/-- The session that an operation leaves, whether or not it fails. -/
def perform (s : Session) : Operation → Session
  | .enter n => s.enter n
  | .rewind => s.rewind
  | .leave => s.leave.state
  | .supply offer anchor => (s.supplyOffer offer anchor).state
  | .answer n v => (s.answer n v).state
  | .acceptDefault n => (s.acceptDefault n).state
  | .seek => s.seek.state

/-- The session that several operations leave, one after the other. -/
def after (s : Session) (ops : List Operation) : Session := ops.foldl perform s

/-- A session has become another with the same setup, its environment growing. -/
structure Becomes (s t : Session) : Prop where
  setup : t.setup = s.setup
  growth : s.setup.Growth s.env t.env

theorem Becomes.refl (s : Session) : s.Becomes s := ⟨rfl, .refl _ _⟩

theorem Becomes.trans {u : Session} (h : s.Becomes t) (h' : t.Becomes u) : s.Becomes u :=
  ⟨h'.setup.trans h.setup, h.growth.trans (h.setup ▸ h'.growth)⟩

theorem becomes_afterBinding {r : Except Fault (Env × List Event)}
    (h : ∀ env events, r = .ok (env, events) → s.setup.Growth s.env env) :
    s.Becomes (s.afterBinding r).state := by
  rcases r with f | ⟨env, events⟩
  · exact .refl s
  · exact ⟨rfl, h env events rfl⟩

theorem becomes_supply (s : Session) (batch : Batch) (anchor : Node) :
    s.Becomes (s.supply batch anchor).state := by
  refine becomes_afterBinding fun env events h => ?_
  obtain ⟨⟨env', event⟩, hsupply, h⟩ := Fallible.map_ok.mp h
  obtain ⟨rfl, -⟩ := Prod.mk.inj h
  exact Setup.growth_of_supply hsupply

theorem becomes_supplyOffer (s : Session) (offer : Offer) (anchor : Node) :
    s.Becomes (s.supplyOffer offer anchor).state := by
  unfold supplyOffer
  split
  · exact .refl s
  · exact becomes_supply s _ anchor
  · split <;> exact .refl s

theorem becomes_answer (s : Session) (n : Node) (v : Value) : s.Becomes (s.answer n v).state := by
  refine becomes_afterBinding fun env events h => ?_
  obtain ⟨⟨env', event⟩, hanswer, h⟩ := Fallible.map_ok.mp h
  obtain ⟨rfl, -⟩ := Prod.mk.inj h
  exact Setup.growth_of_answer hanswer

theorem becomes_leave (s : Session) : s.Becomes s.leave.state := by
  unfold leave
  split
  · exact ⟨rfl, .refl _ _⟩
  · exact .refl s

theorem becomes_seek (s : Session) : s.Becomes s.seek.state := by
  cases hhead : s.stack.items.head? with
  | none =>
    rw [seek_of_empty (List.head?_eq_none_iff.mp hhead)]
    exact .refl s
  | some start =>
    rw [seek_of_head hhead]
    exact ⟨rfl, (Setup.scan_ends start s.env).growth⟩

theorem becomes_perform (s : Session) (op : Operation) : s.Becomes (s.perform op) := by
  cases op with
  | enter n => exact ⟨rfl, .refl _ _⟩
  | rewind => exact ⟨rfl, .refl _ _⟩
  | leave => exact becomes_leave s
  | supply offer anchor => exact becomes_supplyOffer s offer anchor
  | answer n v => exact becomes_answer s n v
  | acceptDefault n => exact becomes_afterBinding fun _ _ => Setup.growth_of_acceptDefault
  | seek => exact becomes_seek s

/-- **Whatever a session is asked to do, its environment only grows.** -/
theorem becomes_after (ops : List Operation) (s : Session) : s.Becomes (s.after ops) := by
  induction ops generalizing s with
  | nil => exact .refl s
  | cons op ops ih => exact (becomes_perform s op).trans (ih _)

/-- What any operations leave of a new session is sound. -/
theorem sound_after (setup : Setup) (ops : List Operation) :
    ((new setup).after ops).setup = setup ∧ setup.Sound ((new setup).after ops).env := by
  have hbecomes := becomes_after ops (new setup)
  exact ⟨hbecomes.setup, hbecomes.growth.sound setup.sound_nil⟩

end Session

end Scaffold
