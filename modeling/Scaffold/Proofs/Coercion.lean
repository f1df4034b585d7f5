import Scaffold.Proofs.Answer
import Scaffold.Proofs.Text.Pieces

/-! # What coercion makes of a value

A text lists items when it has one piece for each of them, in order, and blank pieces besides, with
commas between the pieces (`Lists`). Those are the items that are read from it (`commaItems_iff`), and
no text lists others. What is kept of items that are all choices are their first occurrences, and of
other items the first that is no choice is reported (`coerceItems_map_str`).

* `coerce_normalizes`: the values that are answers, their normal forms, and what becomes of the rest.
* `coerce_listed`: a text that lists items is the same answer as the list of them. -/

namespace Scaffold.Answer

open Text (isBlank trim pieces AllOf BareOf)

/-! ### Items of a text -/

/-- A text that can be listed: it is not empty, has no comma, and no blank at either end. -/
structure IsItem (x : String) : Prop where
  ne_empty : x ≠ ""
  no_comma : ',' ∉ x.toList
  bare : BareOf isBlank x

/-- Pieces that hold items: each piece is an item with any blanks around it, or nothing but blanks. -/
inductive Hold : List String → List String → Prop
  | nil : Hold [] []
  | blank {w : String} {ps xs : List String} : AllOf isBlank w → Hold ps xs → Hold (w :: ps) xs
  | item {a x b : String} {ps xs : List String} : AllOf isBlank a → AllOf isBlank b → Hold ps xs →
      Hold ((a ++ x ++ b) :: ps) (x :: xs)

/-- The text is made of pieces that hold the items, with commas between them. -/
def Lists (s : String) (xs : List String) : Prop := ∃ ps, Hold ps xs ∧ s = ",".intercalate ps

/-- The items in pieces: what is left of them without the blanks, if anything. -/
def itemsOf (ps : List String) : List String := (ps.map (trim isBlank)).filter (!·.isEmpty)

variable {s w : String} {ps xs : List String}

theorem commaItems_eq (s : String) : commaItems s = (itemsOf (pieces ',' s)).map .str := rfl

theorem allOf_iff_trim : AllOf isBlank w ↔ trim isBlank w = "" := by
  constructor
  · intro hw
    have hnil : AllOf isBlank "" := by simp [AllOf]
    have h := Text.trim_padded (s := "") hw hnil (by simp [BareOf])
    rwa [String.append_empty, String.append_empty] at h
  · intro hw
    obtain ⟨a, b, ha, hb, h⟩ := Text.exists_padded isBlank w
    rw [hw, String.append_empty] at h
    intro c hc
    rw [h, String.toList_append] at hc
    exact (List.mem_append.mp hc).elim (ha c) (hb c)

theorem itemsOf_blank (hw : AllOf isBlank w) : itemsOf (w :: ps) = itemsOf ps := by
  rw [itemsOf, List.map_cons, allOf_iff_trim.mp hw]
  rfl

theorem itemsOf_item {a x b : String} (ha : AllOf isBlank a) (hb : AllOf isBlank b) (hx : IsItem x) :
    itemsOf ((a ++ x ++ b) :: ps) = x :: itemsOf ps := by
  rw [itemsOf, List.map_cons, Text.trim_padded ha hb hx.bare,
    List.filter_cons_of_pos (by simpa using hx.ne_empty)]
  rfl

/-- Pieces hold the items in them. -/
theorem hold_itemsOf : ∀ ps : List String, Hold ps (itemsOf ps)
  | [] => .nil
  | p :: ps => by
    by_cases hp : AllOf isBlank p
    · rw [itemsOf_blank hp]
      exact .blank hp (hold_itemsOf ps)
    · obtain ⟨a, b, ha, hb, h⟩ := Text.exists_padded isBlank p
      have hitems : itemsOf (p :: ps) = trim isBlank p :: itemsOf ps := by
        rw [allOf_iff_trim] at hp
        rw [itemsOf, List.map_cons, List.filter_cons_of_pos (by simpa using hp)]
        rfl
      have hold := Hold.item (x := trim isBlank p) ha hb (hold_itemsOf ps)
      rwa [← h, ← hitems] at hold

/-- They hold no others. -/
theorem Hold.itemsOf_eq (h : Hold ps xs) : (∀ x ∈ xs, IsItem x) → itemsOf ps = xs := by
  induction h with
  | nil => exact fun _ => rfl
  | blank hw _ ih => exact fun hxs => by rw [itemsOf_blank hw, ih hxs]
  | item ha hb _ ih =>
    intro hxs
    rw [List.forall_mem_cons] at hxs
    rw [itemsOf_item ha hb hxs.1, ih hxs.2]

theorem no_comma_of_blank (hw : AllOf isBlank w) : ',' ∉ w.toList := fun h => by
  have hcomma := hw ',' h
  revert hcomma
  decide

theorem Hold.no_comma (h : Hold ps xs) : (∀ x ∈ xs, IsItem x) → ∀ p ∈ ps, ',' ∉ p.toList := by
  induction h with
  | nil => simp
  | blank hw _ ih => exact fun hxs => List.forall_mem_cons.mpr ⟨no_comma_of_blank hw, ih hxs⟩
  | item ha hb _ ih =>
    intro hxs
    rw [List.forall_mem_cons] at hxs
    refine List.forall_mem_cons.mpr ⟨?_, ih hxs.2⟩
    simp [no_comma_of_blank ha, no_comma_of_blank hb, hxs.1.no_comma]

theorem isItem_of_mem {x : String} (h : x ∈ itemsOf (pieces ',' s)) : IsItem x := by
  obtain ⟨hx, hne⟩ := List.mem_filter.mp h
  obtain ⟨p, hp, rfl⟩ := List.mem_map.mp hx
  refine ⟨by simpa using hne, fun hc => Text.not_mem_of_mem_pieces hp ?_, Text.bareOf_trim ..⟩
  obtain ⟨a, b, -, -, hpad⟩ := Text.exists_padded isBlank p
  rw [hpad, String.toList_append, String.toList_append]
  exact List.mem_append_left _ (List.mem_append_right _ hc)

/-- **The items that are read from a text** are those that it lists. -/
theorem commaItems_iff : commaItems s = xs.map .str ↔ (∀ x ∈ xs, IsItem x) ∧ Lists s xs := by
  have hinj : Function.Injective Value.str := fun _ _ => Value.str.inj
  rw [commaItems_eq, (List.map_injective_iff.mpr hinj).eq_iff]
  constructor
  · rintro rfl
    exact ⟨fun x => isItem_of_mem, pieces ',' s, hold_itemsOf _, (Text.intercalate_pieces ',' s).symm⟩
  · rintro ⟨hxs, ps, hps, rfl⟩
    by_cases hne : ps = []
    · subst hne
      cases hps
      decide
    · have hpieces : pieces ',' (",".intercalate ps) = ps :=
        Text.pieces_intercalate (hps.no_comma hxs) hne
      rw [hpieces, hps.itemsOf_eq hxs]

/-! ### First occurrences -/

variable {choices : List Value} {options : List String} {v u : Value}

/-- Items that have been met before leave the first occurrences as they are; a new one comes last. -/
theorem eraseDups_concat (xs : List String) (x : String) :
    (xs ++ [x]).eraseDups = if x ∈ xs then xs.eraseDups else xs.eraseDups ++ [x] := by
  rw [List.eraseDups_append, List.removeAll, List.filter_singleton]
  by_cases hx : x ∈ xs <;> simp [hx, List.eraseDups_cons]

/-- What is kept of texts after others: the first occurrences of all, or the first text that is no
choice is reported. -/
theorem coerceItems_map_str : ∀ (xs met : List String),
    coerceItems choices (met.eraseDups.map .str) (xs.map .str) =
      match xs.find? fun x => !(Value.str x).among choices with
      | none => .ok ((met ++ xs).eraseDups.map .str)
      | some x => .error (.ofChoice (.str x) choices)
  | [], met => by rw [List.append_nil]; rfl
  | x :: xs, met => by
    rw [List.map_cons, coerceItems, isChoice]
    cases hx : (Value.str x).among choices with
    | false => rw [List.find?_cons_of_pos (by simp [hx])]; rfl
    | true =>
      have hmet : (if (Value.str x).among (met.eraseDups.map .str) = true then
          met.eraseDups.map .str else met.eraseDups.map .str ++ [.str x]) =
            (met ++ [x]).eraseDups.map Value.str := by
        simp only [eraseDups_concat, among_map_str, List.mem_eraseDups]
        split_ifs
        · rfl
        · rw [List.map_append]; rfl
      rw [if_pos rfl, hmet, List.find?_cons_of_neg (by simp [hx]),
        List.append_cons met x xs, coerceItems_map_str xs (met ++ [x])]

/-- Only texts are kept. -/
theorem exists_texts_of_coerceItems : ∀ {vs kept ws : List Value},
    coerceItems choices kept vs = .ok ws → ∃ xs : List String, vs = xs.map .str
  | [], _, _, _ => ⟨[], rfl⟩
  | v :: vs, kept, ws, h => by
    rw [coerceItems] at h
    split_ifs at h with hv
    all_goals
      obtain ⟨x, rfl, -⟩ := isChoice_iff.mp hv
      obtain ⟨xs, rfl⟩ := exists_texts_of_coerceItems h
      exact ⟨x :: xs, rfl⟩

theorem coerceItems_ok_iff {vs ws : List Value} :
    coerceItems (options.map .str) [] vs = .ok ws ↔
      ∃ xs : List String, vs = xs.map .str ∧ (∀ x ∈ xs, x ∈ options) ∧
        ws = xs.eraseDups.map .str := by
  have hcoerce : ∀ xs : List String, coerceItems (options.map .str) [] (xs.map .str) = _ := fun xs =>
    coerceItems_map_str xs []
  have hfind : ∀ xs : List String, (xs.find? fun x => !(Value.str x).among (options.map .str)) = none ↔
      ∀ x ∈ xs, x ∈ options := fun xs => by simp [List.find?_eq_none, among_map_str]
  constructor
  · intro h
    obtain ⟨xs, rfl⟩ := exists_texts_of_coerceItems h
    rw [hcoerce] at h
    split at h
    next hnone => exact ⟨xs, rfl, (hfind xs).mp hnone, (Except.ok.inj h).symm⟩
    next => cases h
  · rintro ⟨xs, rfl, hxs, rfl⟩
    rw [hcoerce, (hfind xs).mpr hxs]
    rfl

/-! ### Answers and their normal forms -/

/-- The words for a truth value. -/
def wordsFor (b : Bool) : List String := if b then trueWords else falseWords

/-- The value offers texts, in order: in a list, in a tuple, or listed by a text. -/
inductive Offers : Value → List String → Prop
  | list (xs : List String) : Offers (.list (xs.map .str)) xs
  | tuple (xs : List String) : Offers (.tuple (xs.map .str)) xs
  | text {s : String} {xs : List String} : (∀ x ∈ xs, IsItem x) → Lists s xs → Offers (.str s) xs

/-- **The values that are answers of a kind**, with their normal forms. -/
inductive Takes (options : List String) : AnswerKind → Value → Value → Prop
  | text (s : String) : Takes options .text (.str s) (.str s)
  | integer {i : Int} {s : String} : Text.decimal? i = some s → Takes options .text (.int i) (.str s)
  | fraction (x : Binary64) : Takes options .text (.float x) (.str x.text)
  | truth (b : Bool) : Takes options .boolean (.bool b) (.bool b)
  | word {s : String} (b : Bool) : plainWord s ∈ wordsFor b → Takes options .boolean (.str s) (.bool b)
  | choice {s : String} : s ∈ options → Takes options .enum (.str s) (.str s)
  | choices {v : Value} {xs : List String} : Offers v xs → (∀ x ∈ xs, x ∈ options) →
      Takes options .list v (.tuple (xs.eraseDups.map .str))

theorem coerceText_ok_iff : coerceText v = .ok u ↔ Takes options .text v u := by
  constructor
  · intro h
    cases v <;> simp only [coerceText, reduceCtorEq, Except.ok.injEq] at h
    case int i =>
      split at h
      next s hs => exact Except.ok.inj h ▸ .integer hs
      next => cases h
    case float => exact h ▸ .fraction _
    case str => exact h ▸ .text _
  · intro h
    cases h with
    | integer hs => rw [coerceText, hs]
    | _ => rfl

theorem coerceBoolean_ok_iff : coerceBoolean v = .ok u ↔ Takes options .boolean v u := by
  constructor
  · intro h
    cases v <;> simp only [coerceBoolean, reduceCtorEq, Except.ok.injEq] at h
    · exact h ▸ .truth _
    · split_ifs at h with htrue hfalse
      · exact Except.ok.inj h ▸ .word true htrue
      · exact Except.ok.inj h ▸ .word false hfalse
  · intro h
    cases h with
    | truth b => rfl
    | word b hb =>
      -- no word stands for both truth values
      have hapart : ∀ w ∈ wordsFor false, w ∉ wordsFor true := by decide
      cases b with
      | true => exact if_pos hb
      | false => exact (if_neg (hapart _ hb)).trans (if_pos hb)

theorem coerceChoice_ok_iff :
    coerceChoice (options.map .str) v = .ok u ↔ Takes options .enum v u := by
  rw [coerceChoice]
  constructor
  · intro h
    split_ifs at h with hv
    obtain ⟨s, rfl, hs⟩ := isChoice_iff.mp hv
    exact Except.ok.inj h ▸ .choice (among_map_str.mp hs)
  · intro h
    cases h with
    | choice hs => exact if_pos (isChoice_iff.mpr ⟨_, rfl, among_map_str.mpr hs⟩)

theorem coerceList_ok_iff : coerceList (options.map .str) v = .ok u ↔ Takes options .list v u := by
  constructor
  · intro h
    cases v <;> simp only [coerceList, reduceCtorEq] at h
    all_goals
      obtain ⟨ws, hws, rfl⟩ := Fallible.map_ok.mp h
      obtain ⟨xs, hxs, hmem, rfl⟩ := coerceItems_ok_iff.mp hws
    · obtain ⟨hitems, hlists⟩ := commaItems_iff.mp hxs
      exact .choices (.text hitems hlists) hmem
    · exact .choices (hxs ▸ .list xs) hmem
    · exact .choices (hxs ▸ .tuple xs) hmem
  · have hok : ∀ {xs : List String}, (∀ x ∈ xs, x ∈ options) →
        (coerceItems (options.map .str) [] (xs.map .str)).map Value.tuple =
          .ok (.tuple (xs.eraseDups.map .str)) := fun hmem =>
      Fallible.map_ok.mpr ⟨_, coerceItems_ok_iff.mpr ⟨_, rfl, hmem, rfl⟩, rfl⟩
    intro h
    cases h with
    | choices hoffers hmem =>
      cases hoffers with
      | list | tuple => exact hok hmem
      | text hitems hlists =>
        rw [coerceList, commaItems_iff.mpr ⟨hitems, hlists⟩]
        exact hok hmem

theorem coerceForm_ok_iff {form : Form} :
    coerceForm form (options.map .str) v = .ok u ↔ Takes options form.kind v u := by
  unfold coerceForm
  cases form.kind with
  | text => exact coerceText_ok_iff
  | boolean => exact coerceBoolean_ok_iff
  | enum => exact coerceChoice_ok_iff
  | list => exact coerceList_ok_iff

/-! ### Answers to a question -/

section Question

variable {n : Node} {q : Question}

theorem coerce_ok_iff (hq : Node.question? n = some q) (hc : q.form.isConcrete = true)
    (ho : Node.choices n = options.map .str) {path : String} :
    coerce n v path = .ok u ↔ Takes options q.form.kind v u := by
  rw [coerce, hq, ← coerceForm_ok_iff, ← ho]
  simp only [hc, if_true]
  exact Fallible.mapError_ok

/-- **Answers have normal forms.** At a concrete question whose options are texts, exactly the values
that `Takes` tells of are answers. What they become is normal, and is left as it is when it is given
again. Every other value is a mismatch. -/
theorem coerce_normalizes (hq : Node.question? n = some q) (hc : q.form.isConcrete = true)
    (ho : Node.choices n = options.map .str) (v : Value) (path : String) :
    (∀ u, coerce n v path = .ok u ↔ Takes options q.form.kind v u) ∧
    (∀ u, coerce n v path = .ok u → IsNormal q.form.kind (options.map .str) u ∧
      ∀ path', coerce n u path' = .ok u) ∧
    ∀ f, coerce n v path = .error f → ∃ m, f = .data (.mismatch m) := by
  refine ⟨fun u => coerce_ok_iff hq hc ho, fun u hu => ?_, fun f => mismatch_of_coerce hq hc⟩
  have hnormal := normal_of_coerce hu
  refine ⟨?_, coerce_of_normal hnormal⟩
  obtain ⟨q', hq', -, hnormal⟩ := hnormal
  obtain rfl := Option.some.inj (hq.symm.trans hq')
  rwa [← ho]

/-- A list question that offers two options. -/
def toppings : Node :=
  .node (.stray ⟨.question ⟨.list, "toppings", .none, .none, .none, .none, .bool false⟩, ""⟩)
    [.node (.stray ⟨.option (.str "nuts") .none .none, ""⟩) [],
     .node (.stray ⟨.option (.str "figs") .none .none, ""⟩) []]

/-- A text with blanks around its items, and a blank piece between them. -/
theorem toppings_listed : (∀ x ∈ ["figs", "nuts", "figs"], IsItem x) ∧
    Lists " figs ,,nuts,figs\u2003" ["figs", "nuts", "figs"] := by
  have hfigs : IsItem "figs" := ⟨by decide, by decide, by decide⟩
  have hnuts : IsItem "nuts" := ⟨by decide, by decide, by decide⟩
  refine ⟨by simp [hfigs, hnuts], [" figs ", "", "nuts", "figs\u2003"], ?_, by decide⟩
  refine .item (a := " ") (x := "figs") (b := " ") (by decide) (by decide) (.blank (by decide) ?_)
  refine .item (a := "") (x := "nuts") (b := "") (by decide) (by decide) ?_
  exact .item (a := "") (x := "figs") (b := "\u2003") (by decide) (by decide) .nil

theorem toppings_coerce_normalizes :
    Node.choices toppings = ["nuts", "figs"].map .str ∧
    coerce toppings (.str " figs ,,nuts,figs\u2003") "" = .ok (.tuple [.str "figs", .str "nuts"]) ∧
    coerce toppings (.tuple [.str "figs", .str "nuts"]) "" = .ok (.tuple [.str "figs", .str "nuts"]) ∧
    ∃ m, coerce toppings (.list [.str "figs", .str "pears"]) "" = .error (.data (.mismatch m)) := by
  have hcoerce := @coerce_normalizes ["nuts", "figs"] toppings _ rfl rfl rfl
  have htakes : Takes ["nuts", "figs"] .list (.str " figs ,,nuts,figs\u2003")
      (.tuple [.str "figs", .str "nuts"]) :=
    .choices (.text toppings_listed.1 toppings_listed.2) (by simp)
  have hok := ((hcoerce _ "").1 _).mpr htakes
  obtain ⟨f, hf⟩ : ∃ f, coerce toppings (.list [.str "figs", .str "pears"]) "" = .error f := ⟨_, rfl⟩
  obtain ⟨m, rfl⟩ := (hcoerce _ "").2.2 f hf
  exact ⟨rfl, hok, ((hcoerce _ "").2.1 _ hok).2 "", m, hf⟩

/-- **Both spellings of a list agree.** A text that lists items is taken for the list of them: both are
the tuple of the first occurrences, or the same mismatch about the first item that is no choice. -/
theorem coerce_listed (hq : Node.question? n = some q) (hf : q.form = .list)
    (hx : ∀ x ∈ xs, IsItem x) (hs : Lists s xs) (path : String) :
    ∃ r, coerce n (.list (xs.map .str)) path = r ∧ coerce n (.str s) path = r ∧
      (((∀ x ∈ xs, (Value.str x).among (Node.choices n) = true) ∧
          r = .ok (.tuple (xs.eraseDups.map .str))) ∨
        ∃ x, (xs.find? fun x => !(Value.str x).among (Node.choices n)) = some x ∧
          r = .error (.data (.mismatch ⟨if path.isEmpty then q.name else path, .list,
            .ofChoice (.str x) (Node.choices n)⟩))) := by
  have hsame : coerceList (Node.choices n) (.str s) =
      coerceList (Node.choices n) (.list (xs.map .str)) := by
    rw [coerceList, commaItems_iff.mpr ⟨hx, hs⟩, coerceList]
  have hkept : coerceItems (Node.choices n) [] (xs.map .str) = _ := coerceItems_map_str xs []
  have hcoerce : ∀ v, coerce n v path = (coerceList (Node.choices n) v).mapError fun reason =>
      .data (.mismatch ⟨if path.isEmpty then q.name else path, .list, reason⟩) := fun v => by
    rw [coerce, hq]
    simp only [coerceForm, hf, Form.isConcrete, Form.kind, if_true]
  refine ⟨_, rfl, by rw [hcoerce, hcoerce, hsame], ?_⟩
  rw [hcoerce, coerceList, hkept]
  cases hfind : xs.find? fun x => !(Value.str x).among (Node.choices n) with
  | none => exact .inl ⟨by simpa [List.find?_eq_none] using hfind, rfl⟩
  | some x => exact .inr ⟨x, rfl, rfl⟩

theorem toppings_coerce_listed :
    ((∀ x ∈ ["figs", "nuts", "figs"], IsItem x) ∧
      Lists " figs ,,nuts,figs\u2003" ["figs", "nuts", "figs"]) ∧
    coerce toppings (.str " figs ,,nuts,figs\u2003") "" =
      coerce toppings (.list [.str "figs", .str "nuts", .str "figs"]) "" := by
  obtain ⟨hitems, hlists⟩ := toppings_listed
  obtain ⟨r, hlist, htext, -⟩ := coerce_listed (n := toppings) rfl rfl hitems hlists ""
  exact ⟨⟨hitems, hlists⟩, htext.trans hlist.symm⟩

end Question

end Scaffold.Answer
