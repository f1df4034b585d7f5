import Scaffold.Proofs.Run
import Scaffold.Proofs.WellTyped

/-! # Flows whose values can be written

A value that is too long to be written makes trouble when a fault should report it. What a flow may
have to report comes from the draft or is offered: where all values of a draft can be written
(`Draft.Writable`), and all that was given to its flow, so can all that is bound
(`Session.Accounted.writable`), because every binding can be accounted for. -/

namespace Scaffold

/-! ### Drafts -/

/-- All values of a draft that a fault may report can be written: what is no node, and the values of
bindings. -/
structure Draft.Writable (d : Draft) : Prop where
  slots : d.SlotsWritable
  labels : ∀ i, d.Reachable (.node i) → (d.cell i).label.Writable

namespace Draft

variable {d : Draft}

theorem Writable.descriptor (hd : d.Writable) {desc : Descriptor}
    (h : Descriptor.ofDraft d = .ok desc) : ∀ n ∈ desc.nodes, n.label.label.Writable := by
  intro n hn
  obtain ⟨i, hreach, hi⟩ := exists_cell_of_mem_nodes h hn
  rw [← hi]
  exact hd.labels i hreach

/-- The presets of a flow are those of its draft. -/
theorem Writable.presets (hd : d.Writable) {settings : Settings} {s : Session}
    (hs : s.Fills d settings) : s.setup.PresetsWritable := by
  have hof := ofDraft_of_accept hs.accept_eq.1
  intro n hn _ l hl
  obtain ⟨c, hc, rfl⟩ := List.mem_map.mp hl
  exact hd.descriptor hof c (Descriptor.mem_nodes_of_mem_children hn hc)

end Draft

/-! ### What is given -/

/-- All values of a mapping can be written. -/
def Mapping.Writable (m : Mapping Value) : Prop := ∀ name v, m.get? name = some v → v.Writable

/-- All values that are offered can be written. -/
def Offer.Writable (offer : Offer) : Prop := ∀ b, offer.toBatch = .ok (some b) → b.Writable

theorem Mapping.writable_nil : Mapping.Writable [] := fun _ _ h => by cases h

theorem Mapping.Writable.putAll {m : Mapping Value} (hm : m.Writable)
    {entries : List (String × Value)} (h : ∀ p ∈ entries, p.2.Writable) :
    Mapping.Writable (m.putAll entries) := fun name v hv => by
  rcases Mapping.get?_putAll hv with hv | hv
  · exact hm name v hv
  · exact h _ hv

theorem Setup.writable_keyed {s : Setup} {anchor : Node} {b : Batch} (hb : b.Writable) :
    ∀ p ∈ s.keyed anchor b, p.2.Writable := by
  rintro ⟨path, v⟩ hp
  cases hscope : Node.scope anchor with
  | error f => simp [keyed, hscope] at hp
  | ok scope =>
    obtain ⟨l, hl, name, value, hcontent, -, hsettle⟩ := (mem_keyed hscope).mp hp
    exact Env.writable_of_settle hsettle (hb l hl name value hcontent)

theorem Stage.writable_keyed {stage : Stage} {batch : Option Batch}
    (hb : ∀ b, batch = some b → b.Writable) : ∀ p ∈ stage.keyed batch, p.2.Writable := by
  unfold keyed
  split
  next b s _ =>
    split
    · exact Setup.writable_keyed (hb b rfl)
    · simp
  next => simp

/-- **Where all that was given can be written**, and the presets, so can all that is bound. -/
theorem Session.Accounted.writable {given : Mapping Value} {s : Session} (h : s.Accounted given)
    (hpresets : s.setup.PresetsWritable) (hgiven : given.Writable) : s.env.Writable := by
  intro path b hb
  rcases h.source path b hb with ⟨v, hv⟩ | ⟨n, hn, hsource⟩
  · obtain ⟨b', hb', hsame⟩ := h.supplied path v hv
    obtain rfl := Option.some.inj (hb.symm.trans hb')
    exact (hgiven path v hv).of_same (Value.same_symm hsame)
  · have hs := h.sound.accepted
    exact hsource.writable hpresets (hn.meets hs hs.meets_root).1

end Scaffold
