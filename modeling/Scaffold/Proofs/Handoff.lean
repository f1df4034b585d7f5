import Scaffold.Proofs.Plan
import Scaffold.Proofs.WellTyped

/-! # Handing plans over

A plan is handed over as a dictionary of its fields, and whoever takes it may write it down in a
format that has lists only. `Plan.Spells` says which values still spell the plan: each tuple of the
dictionary that the plan has made itself may have become a list, one without the other; what is
bound at a path or under a name of a model has not changed. A kind of output and its name are the
same value.

`Plan.snapshot_read` is the main result: a plan made of any values is read back from each of its
spellings. -/

namespace Scaffold

open Validation

/-! ### Spellings -/

/-- A tuple or a list whose members spell the members of a list. -/
inductive SpellsAll {α : Type} (r : α → Value → Prop) (as : List α) : Value → Prop
  | tuple {vs : List Value} : List.Forall₂ r as vs → SpellsAll r as (.tuple vs)
  | list {vs : List Value} : List.Forall₂ r as vs → SpellsAll r as (.list vs)

/-- A value spells a text if it is the text. -/
def SpellsText (s : String) (v : Value) : Prop := v = .str s

/-- A value spells a named value if it is the pair of the name and the value. -/
def SpellsPair (p : String × Value) : Value → Prop := SpellsAll Eq [.str p.1, p.2]

/-- A value spells a directive if it is the dictionary of its fields, with tuples or lists. -/
inductive Directive.Spells (d : Directive) : Value → Prop
  | fields {includes excludes model : Value} : SpellsAll SpellsText d.includes includes →
      SpellsAll SpellsText d.excludes excludes → SpellsAll SpellsPair d.model model →
      Spells d (.dict [
        (.str "kind", .str d.kind.name),
        (.str "source", optionalText d.source),
        (.str "target", optionalText d.target),
        (.str "directory", .str d.directory),
        (.str "engine", optionalText d.engine),
        (.str "includes", includes),
        (.str "excludes", excludes),
        (.str "model", model)])

/-- A value spells an entry if it is the dictionary of its fields. -/
def Entry.Spells (e : Entry) (v : Value) : Prop := v = e.toValue

/-- A value spells a plan if it is the dictionary of its fields, with tuples or lists. -/
inductive Plan.Spells (p : Plan) : Value → Prop
  | fields {entries outputs : Value} : SpellsAll Entry.Spells p.entries entries →
      SpellsAll Directive.Spells p.outputs outputs →
      Spells p (.dict [(.str "entries", entries), (.str "outputs", outputs)])

section

variable {α : Type} {r : α → Value → Prop} {as : List α} {v : Value}

theorem SpellsAll.map {f : α → Value} (h : ∀ a, r a (f a)) (as : List α) :
    SpellsAll r as (.tuple (as.map f)) := by
  refine .tuple ?_
  rw [List.forall₂_map_right_iff]
  exact List.forall₂_same.mpr fun a _ => h a

theorem spellsText_str (s : String) : SpellsText s (.str s) := rfl

theorem spellsPair_tuple (p : String × Value) : SpellsPair p (.tuple [.str p.1, p.2]) :=
  .tuple (List.forall₂_same.mpr fun _ _ => rfl)

theorem Entry.spells_toValue (e : Entry) : e.Spells e.toValue := rfl

theorem Directive.spells_toValue (d : Directive) : d.Spells d.toValue :=
  .fields (.map spellsText_str _) (.map spellsText_str _) (.map spellsPair_tuple _)

/-- The dictionary that a plan is handed over as spells the plan. -/
theorem Plan.spells_toValue (p : Plan) : p.Spells p.toValue :=
  .fields (.map Entry.spells_toValue _) (.map Directive.spells_toValue _)

/-! ### Reading spellings -/

/-- What is spelled can be had one by one. -/
theorem SpellsAll.exists_items (h : SpellsAll r as v) :
    ∃ vs, v.items? = some vs ∧ readTuple v = .ok vs ∧ List.Forall₂ r as vs := by
  cases h with
  | tuple hvs => exact ⟨_, rfl, rfl, hvs⟩
  | list hvs => exact ⟨_, rfl, rfl, hvs⟩

/-- What is spelled can be read if each of its members can. -/
theorem SpellsAll.readAll {read : Value → Checked α} (h : SpellsAll r as v)
    (hread : ∀ a ∈ as, ∀ v, r a v → read v = .ok a) : Plan.readAll read v = .ok as := by
  obtain ⟨vs, -, hv, hvs⟩ := h.exists_items
  have hall := (List.forall₂_and_left as vs).mpr ⟨fun a ha => ha, hvs⟩
  exact Fallible.bind_ok.mpr ⟨vs, hv, Checked.items_of_forall₂
    (hall.imp fun a v ⟨ha, hr⟩ => hread a ha v hr) 0⟩

namespace Directive

theorem readPatterns_of_spells {ss : List String} (h : SpellsAll SpellsText ss v) :
    readPatterns v = .ok ss := by
  have hread : Plan.readAll readString v = .ok ss := h.readAll fun s _ v hv => by rw [hv]; rfl
  cases h <;> exact hread

theorem items?_of_spellsPair {p : String × Value} (h : SpellsPair p v) :
    v.items? = some [.str p.1, p.2] := by
  obtain ⟨vs, hv, -, hvs⟩ := SpellsAll.exists_items h
  rw [List.forall₂_eq_eq_eq] at hvs
  rw [hv, hvs]

theorem readPair_of_spells {p : String × Value} (h : SpellsPair p v) : readPair v = .ok p := by
  obtain ⟨vs, -, hv, hvs⟩ := SpellsAll.exists_items h
  rw [List.forall₂_eq_eq_eq] at hvs
  rw [readPair, hv, ← hvs]
  rfl

/-- A model is read back from its pairs, whether they are listed in a tuple or in a list. -/
theorem readModel_of_spells {model : List (String × Value)} (h : SpellsAll SpellsPair model v) :
    readModel v = .ok model := by
  cases h with
  | tuple hvs => exact Checked.items_of_forall₂ (hvs.imp fun _ _ => readPair_of_spells) 0
  | list hvs => exact readModel_list (hvs.imp fun _ _ => items?_of_spellsPair)

/-- A directive is read back from each of its spellings. -/
theorem ofValue_of_spells {d : Directive} (h : d.Spells v) : ofValue v = .ok d := by
  cases h with
  | fields hincludes hexcludes hmodel =>
    exact ofFields_of_read (readKind_name d.kind) (readString?_optionalText d.source)
      (readString?_optionalText d.target) rfl (readString?_optionalText d.engine)
      (readPatterns_of_spells hincludes) (readPatterns_of_spells hexcludes)
      (readModel_of_spells hmodel)

end Directive

theorem Entry.ofValue_of_spells {e : Entry} (he : e.path.isEmpty = false) (h : e.Spells v) :
    ofValue v = .ok e := by
  rw [h]
  exact Entry.ofFields_eq he e.value

end

namespace Plan

/-- A plan without empty paths is read back from each of its spellings. -/
theorem ofValue_of_spells {p : Plan} {v : Value} (hp : ∀ e ∈ p.entries, e.path.isEmpty = false)
    (h : p.Spells v) : ofValue v = .ok p := by
  cases h with
  | @fields entries outputs hentries houtputs =>
    have hread := hentries.readAll fun e he _ => Entry.ofValue_of_spells (hp e he)
    have hread' := houtputs.readAll fun _ _ _ => Directive.ofValue_of_spells
    show Except.map _ (Checked.zip (Checked.under _ (readAll Entry.ofValue entries)) <|
      Checked.under _ (readAll Directive.ofValue outputs)) = _
    rw [hread, hread']
    rfl

/-- **A plan survives being handed over.** A plan can be made of any values under paths that are not
empty and of any directives, whatever fields they were made of. The dictionary that it is handed
over as is one of its spellings, and from each of them the same plan is read, which is handed over
as the same dictionary again. -/
theorem snapshot_read {context : Mapping Value} (h : ∀ p ∈ context, p.1.isEmpty = false)
    (outputs : List Directive) : ∃ p, snapshot context outputs = .ok p ∧
      ofValue p.toValue = .ok p ∧ (ofValue p.toValue).map toValue = .ok p.toValue ∧
      p.Spells p.toValue ∧ ∀ v, p.Spells v → ofValue v = .ok p := by
  have hread : ∀ v, Spells ⟨(sorted context).map fun p => ⟨p.1, p.2⟩, outputs⟩ v →
      ofValue v = .ok ⟨(sorted context).map fun p => ⟨p.1, p.2⟩, outputs⟩ := fun v hv => by
    refine ofValue_of_spells (fun e he => ?_) hv
    obtain ⟨p, hp, rfl⟩ := List.mem_map.mp he
    exact h p (mem_sorted.mp hp)
  have hself := hread _ (spells_toValue _)
  exact ⟨_, snapshot_eq h outputs, hself, Fallible.map_ok.mpr ⟨_, hself, rfl⟩, spells_toValue _,
    hread⟩

/-- Templates with two patterns and a model that has a name twice. -/
def listedTemplates : Directive :=
  ⟨.templates, some "src", none, "kit", none, ["*.md", "*.py"], [],
    [("name", .none), ("name", .tuple [.int 1])]⟩

/-- The dictionary of a plan with these templates, all of whose tuples have become lists. The bound
value and those of the model are the plan's own: a tuple among them stays one. -/
def listed : Value :=
  .dict [
    (.str "entries", .list [.dict [(.str "path", .str "app"), (.str "value", .tuple [])]]),
    (.str "outputs", .list [.dict [
      (.str "kind", .str "templates"),
      (.str "source", .str "src"),
      (.str "target", .none),
      (.str "directory", .str "kit"),
      (.str "engine", .none),
      (.str "includes", .list [.str "*.md", .str "*.py"]),
      (.str "excludes", .list []),
      (.str "model", .list [.list [.str "name", .none], .list [.str "name", .tuple [.int 1]]])]])]

theorem listed_read : (∀ p ∈ [("app", Value.tuple [])], p.1.isEmpty = false) ∧
    ∃ p, snapshot [("app", .tuple [])] [listedTemplates] = .ok p ∧ ofValue p.toValue = .ok p ∧
      ofValue listed = .ok p := by
  have hnames : ∀ p ∈ [("app", Value.tuple [])], p.1.isEmpty = false := by simp
  obtain ⟨p, hp, hself, -, -, hread⟩ := snapshot_read hnames [listedTemplates]
  refine ⟨hnames, p, hp, hself, hread _ ?_⟩
  rw [snapshot_eq hnames, sorted, List.mergeSort_singleton] at hp
  obtain rfl := Except.ok.inj hp
  have hpair : ∀ p : String × Value, SpellsPair p (.list [.str p.1, p.2]) := fun p =>
    .list (List.forall₂_same.mpr fun _ _ => rfl)
  have htemplates : listedTemplates.Spells _ :=
    .fields (.list (.cons rfl (.cons rfl .nil))) (.list .nil)
      (.list (.cons (hpair _) (.cons (hpair _) .nil)))
  exact .fields (.list (.cons rfl .nil)) (.list (.cons htemplates .nil))

end Plan

end Scaffold
