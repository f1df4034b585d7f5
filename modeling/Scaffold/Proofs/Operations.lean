import Scaffold.Proofs.InOrder
import Scaffold.Proofs.Run

/-! # What operations leave

Whatever a session is asked to do, in whatever order and whether or not it fails, nothing that is
bound is taken back, what is refused changes nothing, and a search leaves the stack on the question
that it finds (`Session.keeps_after`). What is bound stays in normal form (`Setup.InNormalForm`),
for a session on its own and for that of a flow (`Session.inNormalForm_after`). -/

namespace Scaffold

/-- The entries have different paths, which are not empty and name them, there are no more than the
settings allow, and what is bound at the path of a question is a normal answer to it, which coercion
leaves as it is. -/
structure Setup.InNormalForm (s : Setup) (env : Env) : Prop where
  named : ∀ path b, (path, b) ∈ env → path.isEmpty = false ∧ b.name = path
  distinct : (Mapping.names env).Nodup
  bounded : (env.length : Int) ≤ s.settings.maxContextSize
  normal : ∀ path b, (path, b) ∈ env → ∀ n ∈ s.descriptor.nodes, ∀ q,
    Node.question? n = some q → Node.path n = .ok path →
      Answer.IsNormalAt n b.value ∧ ∀ given, Answer.coerce n b.value given = .ok b.value

theorem Setup.inNormalForm_of_sound {s : Setup} {env : Env}
    (hs : s.descriptor.inputs = .ok s.inputs) (h : s.Sound env) : s.InNormalForm env where
  named path b hb := (h.named (path, b) hb).symm
  distinct := h.nodup
  bounded := h.bounded
  normal path b hb n hn q hq hp := by
    have hinput := (Descriptor.get?_inputs_iff hs).mpr ⟨hn, ⟨q, hq⟩, hp⟩
    have hnormal := h.normal path n b hinput (Mapping.get?_of_mem h.nodup hb)
    exact ⟨hnormal, Answer.coerce_of_normal hnormal⟩

namespace Session

variable {s : Session}

/-! ### Refusals -/

theorem state_of_afterBinding_error {r : Except Fault (Env × List Event)} {f : Fault}
    (h : (s.afterBinding r).result = .error f) : (s.afterBinding r).state = s := by
  cases r with
  | error f => rfl
  | ok r => cases h

theorem state_of_supplyOffer_error {offer : Offer} {anchor : Node} {f : Fault}
    (h : (s.supplyOffer offer anchor).result = .error f) :
    (s.supplyOffer offer anchor).state = s := by
  unfold supplyOffer at h ⊢
  split at h
  · exact state_of_afterBinding_error h
  · exact state_of_afterBinding_error h
  · split at h <;> exact state_of_afterBinding_error h

/-! ### Searches -/

/-- A search that finds a question stands on it, above the outermost node entered. -/
theorem items_of_seek_some {n : Node} (h : s.seek.result = .ok (some n)) :
    ∃ outermost, s.stack.items.head? = some outermost ∧
      s.seek.state.stack.items.head? = some outermost ∧
      s.seek.state.stack.items.getLast? = some n := by
  cases hhead : s.stack.items.head? with
  | none =>
    rw [seek_of_empty (List.head?_eq_none_iff.mp hhead)] at h
    cases h
  | some start =>
    rw [seek_of_head hhead] at h ⊢
    obtain ⟨chain, ho, hn⟩ := Fallible.map_ok.mp h
    obtain ⟨chain, rfl, hlast⟩ := Option.bind_eq_some_iff.mp hn
    simp only [ho]
    exact ⟨start, rfl, Setup.head?_of_scan ho, hlast⟩

/-- A search that fails or finds nothing leaves at most the outermost node entered. -/
theorem items_of_seek_ne (h : ∀ n, s.seek.result ≠ .ok (some n)) :
    s.seek.state.stack.items = s.stack.items.take 1 := by
  cases hitems : s.stack.items with
  | nil => rw [seek_of_empty hitems, hitems, List.take_nil]
  | cons start rest =>
    have hhead : s.stack.items.head? = some start := by rw [hitems]; rfl
    rw [seek_of_head hhead] at h ⊢
    dsimp only at h ⊢
    split
    next chain ho =>
      obtain ⟨more, rfl⟩ := List.head?_eq_some_iff.mp (Setup.head?_of_scan ho)
      rw [Scan.found, ho] at h
      have hlast := List.getLast?_eq_some_getLast (List.cons_ne_nil start more)
      exact absurd (congrArg Except.ok hlast) (h _)
    next => rfl

/-! ### Any operations -/

/-- **Nothing that is bound is taken back**, whatever a session is asked to do and whether or not it
fails: all that it has bound stays as it is and where it is. A batch, an answer or a default that is
refused changes nothing at all. A search leaves the question that it finds on top of the outermost
node entered, and at most that node if it finds none or fails. -/
theorem keeps_after (s : Session) (ops : List Operation) :
    let t := s.after ops
    (∀ later, t.env <+: (s.after (ops ++ later)).env) ∧
    (∀ offer anchor f, (t.supplyOffer offer anchor).result = .error f →
      t.perform (.supply offer anchor) = t) ∧
    (∀ n v f, (t.answer n v).result = .error f → t.perform (.answer n v) = t) ∧
    (∀ n f, (t.acceptDefault n).result = .error f → t.perform (.acceptDefault n) = t) ∧
    (∀ n, t.seek.result = .ok (some n) → ∃ outermost, t.stack.items.head? = some outermost ∧
      (t.perform .seek).stack.items.head? = some outermost ∧
      (t.perform .seek).stack.items.getLast? = some n) ∧
    ((∀ n, t.seek.result ≠ .ok (some n)) →
      (t.perform .seek).stack.items = t.stack.items.take 1) := by
  intro t
  refine ⟨fun later => ?_, fun offer anchor f => state_of_supplyOffer_error,
    fun n v f => state_of_afterBinding_error, fun n f => state_of_afterBinding_error,
    fun n => items_of_seek_some, items_of_seek_ne⟩
  rw [after, List.foldl_append]
  exact (becomes_after later t).growth.grows

/-- A second answer to the first question is refused; the search then stands on the question behind
the gate. -/
theorem earlyGate_keeps_after : ∃ d setup n, (Draft.earlyGate false).accept = .ok d ∧
    Setup.new d {} = .ok setup ∧ Node.path n = .ok "y" ∧
      let t := (new setup).after [.enter d.root, .supply (.mapping [("x", .str "v")]) d.root]
      t.perform (.supply (.mapping [("x", .str "w")]) d.root) = t ∧
        (t.perform .seek).stack.items.head? = some d.root ∧
        (t.perform .seek).stack.items.getLast? = some n := by
  obtain ⟨d, hd⟩ : ∃ d, (Draft.earlyGate false).accept = .ok d := ⟨_, rfl⟩
  obtain ⟨setup, hsetup⟩ := Setup.exists_new hd {}
  obtain ⟨-, hrefused, -, -, hfound, -⟩ := keeps_after (new setup)
    [.enter d.root, .supply (.mapping [("x", .str "v")]) d.root]
  obtain ⟨n, hpath, hroot, hr, f, hf⟩ : ∃ n, Node.path n = .ok "y" ∧
      let t := (new setup).after [.enter d.root, .supply (.mapping [("x", .str "v")]) d.root]
      t.stack.items.head? = some d.root ∧ t.seek.result = .ok (some n) ∧
        ∃ f, (t.supplyOffer (.mapping [("x", .str "w")]) d.root).result = .error f := by
    obtain rfl := Except.ok.inj hd
    obtain rfl := Except.ok.inj hsetup
    exact ⟨_, rfl, rfl, rfl, _, rfl⟩
  obtain ⟨outermost, hbefore, hafter, hlast⟩ := hfound n hr
  obtain rfl := Option.some.inj (hbefore.symm.trans hroot)
  exact ⟨d, setup, n, hd, hsetup, hpath, hrefused _ _ f hf, hafter, hlast⟩

variable {d : Descriptor} {settings : Settings} {setup : Setup}

/-- **What is bound is in normal form**, whatever a session was asked to do, also where that failed,
and at every stage of a flow that has a session. -/
theorem inNormalForm_after (hsetup : Setup.new d settings = .ok setup) :
    (∀ ops, setup.InNormalForm ((new setup).after ops).env) ∧
      ∀ draft given stage s, draft.accept = .ok d → Stage.Run draft settings given stage →
        stage.session? = some s → setup.InNormalForm s.env := by
  obtain ⟨inputs, hinputs, rfl⟩ := Fallible.map_ok.mp hsetup
  refine ⟨fun ops => Setup.inNormalForm_of_sound hinputs (sound_after _ ops).2,
    fun draft given stage s hd hrun hs => ?_⟩
  obtain ⟨⟨d', hd', hsetup'⟩, haccounted⟩ := hrun.fair.of_session? hs
  obtain rfl := Except.ok.inj (hd.symm.trans hd')
  have hsame := Except.ok.inj (hsetup'.symm.trans hsetup)
  have henv := haccounted.sound.env
  rw [hsame] at henv
  exact Setup.inNormalForm_of_sound hinputs henv

/-- A number that is given for a text question is bound as a text, by a session and by a flow. -/
theorem earlyGate_inNormalForm_after : ∃ d setup s t, (Draft.earlyGate false).accept = .ok d ∧
    Setup.new d {} = .ok setup ∧
    (new setup).after [.enter d.root, .supply (.mapping [("x", .int 5)]) d.root, .seek] = s ∧
    s.env.values = [("x", .str "5")] ∧ setup.InNormalForm s.env ∧
    Stage.Run (.earlyGate false) {} [("x", .str "5")] (.ready t) ∧ setup.InNormalForm t.env := by
  obtain ⟨d, hd⟩ : ∃ d, (Draft.earlyGate false).accept = .ok d := ⟨_, rfl⟩
  obtain ⟨setup, hsetup⟩ := Setup.exists_new hd {}
  obtain ⟨t, ht⟩ : ∃ t, Stage.Run (.earlyGate false) {} [("x", .str "5")] (.ready t) :=
    ⟨_, @Stage.Run.step (.earlyGate false) {} _ _ _ (some (.ofPairs [("x", .int 5)] "")) .start rfl⟩
  obtain ⟨hafter, hstages⟩ := inNormalForm_after hsetup
  refine ⟨d, setup, _, t, hd, hsetup, rfl, ?_, hafter _, ht, hstages _ _ _ _ hd ht rfl⟩
  obtain rfl := Except.ok.inj hd
  obtain rfl := Except.ok.inj hsetup
  rfl

end Session

end Scaffold
