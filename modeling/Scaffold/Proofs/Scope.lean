import Mathlib.Data.List.Pairwise
import Scaffold.Proofs.Lineage
import Scaffold.Proofs.Text.Pieces
import Scaffold.Proofs.WellFormed

/-! # Paths and scopes

The path of a question is a text, but where no name of a question is empty or has a dot in it
(`Descriptor.PlainNames`) nothing is lost by that: its pieces are the names of the questions above and
of the question itself (`Descriptor.Line.pieces_of_asks`). So two questions can have the same path only
if somewhere two questions of one name lie next below the same question, or both below none
(`Descriptor.exists_clash`), and only that keeps the questions from being indexed
(`Descriptor.inputs_faithful`). -/

namespace Scaffold

namespace Path

variable {scope : List String} {name : String}

theorem ofScope_ne_empty (hne : scope ≠ []) (h : ∀ s ∈ scope, s ≠ "") : ofScope scope ≠ "" := by
  obtain ⟨s, scope, rfl⟩ := List.exists_cons_of_ne_nil hne
  have hs : s ≠ "" := h s List.mem_cons_self
  by_cases hscope : scope = []
  · rwa [hscope, ofScope, String.intercalate_singleton]
  · rw [ofScope, String.intercalate_cons_of_ne_nil hscope]
    simp [hs]

/-- A name that is joined to a scope becomes its last name. -/
theorem join_ofScope (h : ∀ s ∈ scope, s ≠ "") :
    join (ofScope scope) name = ofScope (scope ++ [name]) := by
  by_cases hne : scope = []
  · rw [hne, List.nil_append, ofScope, ofScope, String.intercalate_singleton]
    rfl
  · have hscope : ¬ (ofScope scope).isEmpty = true := by simpa using ofScope_ne_empty hne h
    rw [join, if_neg hscope, ofScope, ofScope,
      String.intercalate_append_of_ne_nil hne (by simp), String.intercalate_singleton]

/-- The pieces of a path are the names that it was made of. -/
theorem pieces_ofScope (h : ∀ s ∈ scope, '.' ∉ s.toList) (hne : scope ≠ []) :
    Text.pieces '.' (ofScope scope) = scope := Text.pieces_intercalate h hne

end Path

namespace Descriptor

variable {d : Descriptor} {c m n : Node} {q : Question} {above overm overn : List Node}
  {path : String}

/-! ### Names -/

/-- No name of a question is empty or has a dot in it. -/
def PlainNames (d : Descriptor) : Prop :=
  ∀ n ∈ d.nodes, ∀ q, Node.question? n = some q → q.name ≠ "" ∧ '.' ∉ q.name.toList

theorem plainNames_iff :
    d.PlainNames ↔ ∀ s ∈ Node.names d.nodes, s ≠ "" ∧ '.' ∉ s.toList := by
  simp only [PlainNames, Node.names, List.mem_filterMap, Option.map_eq_some_iff]
  constructor
  · rintro h s ⟨n, hn, q, hq, rfl⟩
    exact h n hn q hq
  · exact fun h n hn q hq => h _ ⟨n, hn, q, hq, rfl⟩

instance (d : Descriptor) : Decidable d.PlainNames := decidable_of_iff _ plainNames_iff.symm

theorem PlainNames.of_mem_names (hd : d.PlainNames) (h : d.Line above n) {s : String}
    (hs : s ∈ Node.names above) : s ≠ "" ∧ '.' ∉ s.toList := by
  obtain ⟨a, ha, hname⟩ := List.mem_filterMap.mp hs
  obtain ⟨q, hq, rfl⟩ := Option.map_eq_some_iff.mp hname
  exact hd a (h.mem_nodes_of_mem a ha) q hq

theorem Line.scope (h : d.Line above n) :
    Node.scope n = .ok (Path.ofScope (Node.names above)) := by
  obtain ⟨p, hp, -, hscope⟩ := h.place
  rw [Node.scope_of_place? hp, hscope]

/-- The pieces of the path of a question are the names of the questions above and its own. -/
theorem Line.pieces_of_asks (hd : d.PlainNames) (h : d.Line above n)
    (hq : Node.question? n = some q) (hpath : Asks n path) :
    Text.pieces '.' path = Node.names above ++ [q.name] := by
  have hname := hd n h.mem_nodes q hq
  rw [(asks_iff hq h.scope).mp hpath, Path.join_ofScope fun s hs => (hd.of_mem_names h hs).1]
  refine Path.pieces_ofScope (fun s hs => ?_) (List.append_ne_nil_of_right_ne_nil _ (by simp))
  rcases List.mem_append.mp hs with hs | hs
  · exact (hd.of_mem_names h hs).2
  · rw [List.mem_singleton.mp hs]
    exact hname.2

/-! ### The nearest question above -/

/-- The nearest question above a node, if there is one. -/
def encloser (d : Descriptor) (n : Node) : Except Flaw (Option Node) :=
  (d.ancestors n).map fun above => (above.filter fun a => (Node.question? a).isSome).getLast?

theorem encloser_root (d : Descriptor) : d.encloser d.root = .ok none := by
  rw [encloser, ancestors_root]
  rfl

/-- A question encloses its children next; any other node leaves that to what encloses it. -/
theorem encloser_of_mem_children (h : n ∈ d.nodes) (hc : c ∈ n.children) :
    d.encloser c = if (Node.question? n).isSome then .ok (some n) else d.encloser n := by
  obtain ⟨above, ha⟩ := exists_ancestors h
  rw [encloser, ancestors_of_mem_children h hc ha, encloser, ha, Except.map, Except.map,
    List.filter_append]
  split_ifs with hq <;> simp [hq]

/-- The names on a line end with that of the nearest question. -/
theorem Line.encloser_cases (h : d.Line above n) :
    (d.encloser n = .ok none ∧ Node.names above = []) ∨
    ∃ a q outer, d.encloser n = .ok (some a) ∧ Node.question? a = some q ∧ d.Line outer a ∧
      Node.names above = Node.names outer ++ [q.name] := by
  induction h with
  | root => exact .inl ⟨encloser_root d, rfl⟩
  | @child above n c h hc ih =>
    rw [encloser_of_mem_children h.mem_nodes hc, Node.names_concat, Node.innerScope]
    have hcontent : n.label.label.content.question? = Node.question? n := rfl
    rw [hcontent]
    cases hq : Node.question? n with
    | none => exact ih
    | some q => exact .inr ⟨n, q, above, rfl, hq, h, rfl⟩

theorem Line.names_eq (hm : d.Line overm m) (hn : d.Line overn n)
    (h : d.encloser m = d.encloser n) : Node.names overm = Node.names overn := by
  rcases hm.encloser_cases with ⟨hem, hnm⟩ | ⟨a, p, outera, hem, hp, hla, hnm⟩ <;>
    rcases hn.encloser_cases with ⟨hen, hnn⟩ | ⟨b, q, outerb, hen, hq, hlb, hnn⟩ <;>
    rw [hem, hen] at h
  · rw [hnm, hnn]
  · cases h
  · cases h
  · obtain rfl := Option.some.inj (Except.ok.inj h)
    obtain rfl := hla.unique hlb
    obtain rfl := Option.some.inj (hp.symm.trans hq)
    rw [hnm, hnn]

/-- Nodes below questions of the same names have the same nearest question, or there are two questions
of one name, again below questions of the same names but fewer. -/
theorem Line.encloser_eq_or (hm : d.Line overm m) (hn : d.Line overn n)
    (h : Node.names overm = Node.names overn) : d.encloser m = d.encloser n ∨
      ∃ a b p q outera outerb, a ≠ b ∧ d.Line outera a ∧ d.Line outerb b ∧
        Node.question? a = some p ∧ Node.question? b = some q ∧ p.name = q.name ∧
          Node.names outera = Node.names outerb ∧
            (Node.names outera).length < (Node.names overm).length := by
  rcases hm.encloser_cases with ⟨hem, hnm⟩ | ⟨a, p, outera, hem, hp, hla, hnm⟩ <;>
    rcases hn.encloser_cases with ⟨hen, hnn⟩ | ⟨b, q, outerb, hen, hq, hlb, hnn⟩ <;>
    rw [hnm, hnn] at h
  · exact .inl (hem.trans hen.symm)
  · simp at h
  · simp at h
  · by_cases hab : a = b
    · subst hab
      exact .inl (hem.trans hen.symm)
    · obtain ⟨hnames, hname⟩ := List.append_inj' h rfl
      exact .inr ⟨a, b, p, q, outera, outerb, hab, hla, hlb, hp, hq, by simpa using hname, hnames,
        by simp [hnm]⟩

/-! ### Clashes -/

/-- Two questions of one name lie next below the same question, or both below none. -/
structure Clashes (d : Descriptor) (m n : Node) : Prop where
  ne : m ≠ n
  name : ∃ p q, Node.question? m = some p ∧ Node.question? n = some q ∧ p.name = q.name
  encloser : d.encloser m = d.encloser n

/-- Questions that clash have the same path. -/
theorem Clashes.asks (h : d.Clashes m n) (hm : m ∈ d.nodes) (hn : n ∈ d.nodes) :
    ∃ path, Asks m path ∧ Asks n path := by
  obtain ⟨-, ⟨p, q, hp, hq, hname⟩, hencloser⟩ := h
  obtain ⟨overm, hlm⟩ := exists_line m hm
  obtain ⟨overn, hln⟩ := exists_line n hn
  have hnames := hlm.names_eq hln hencloser
  exact ⟨_, (asks_iff hp hlm.scope).mpr rfl, (asks_iff hq hln.scope).mpr (by rw [hnames, hname])⟩

/-- **Questions of one name below questions of the same names clash**, or those above them do. -/
theorem exists_clash {p q : Question} (hm : d.Line overm m) (hn : d.Line overn n)
    (hp : Node.question? m = some p) (hq : Node.question? n = some q) (hname : p.name = q.name)
    (hnames : Node.names overm = Node.names overn) (hne : m ≠ n) :
    ∃ m ∈ d.nodes, ∃ n ∈ d.nodes, d.Clashes m n := by
  -- the nearest questions above have fewer names above them
  induction hk : (Node.names overm).length using Nat.strongRecOn
    generalizing m n overm overn p q with
  | ind k ih =>
    rcases hm.encloser_eq_or hn hnames with
      hsame | ⟨a, b, r, s, outera, outerb, hab, ha, hb, hr, hs, hrs, hnames', hlt⟩
    · exact ⟨m, hm.mem_nodes, n, hn.mem_nodes, hne, ⟨p, q, hp, hq, hname⟩, hsame⟩
    · exact ih _ (hk ▸ hlt) ha hb hr hs hrs hnames' hab rfl

/-! ### Indexing -/

/-- What keeps nodes from being indexed is the first question whose path is taken. -/
theorem indexInputs_error : ∀ {ns : List Node} {found : Mapping Node} {f : Flaw},
    (∀ n ∈ ns, ∃ scope, Node.scope n = .ok scope) → indexInputs found ns = .error f →
      ∃ before n after q scope, ns = before ++ n :: after ∧ Node.question? n = some q ∧
        Node.scope n = .ok scope ∧ f = .duplicateInput q.name scope ∧
          (found.get? (Path.join scope q.name) ≠ none ∨
            ∃ m ∈ before, Asks m (Path.join scope q.name))
  | [], found, f, _, h => by cases h
  | n :: ns, found, f, hscope, h => by
    have hscopes : ∀ m ∈ ns, ∃ scope, Node.scope m = .ok scope := fun m hm =>
      hscope m (List.mem_cons_of_mem _ hm)
    rw [indexInputs] at h
    split at h
    next =>
      obtain ⟨before, m, after, q, scope, rfl, hq, hs, hf, htaken⟩ := indexInputs_error hscopes h
      refine ⟨n :: before, m, after, q, scope, rfl, hq, hs, hf, htaken.imp_right ?_⟩
      rintro ⟨l, hl, hasks⟩
      exact ⟨l, List.mem_cons_of_mem _ hl, hasks⟩
    next q hq =>
      obtain ⟨scope, hs⟩ := hscope n List.mem_cons_self
      rw [hs] at h
      simp only [bind, Except.bind] at h
      split_ifs at h with htaken
      · exact ⟨[], n, ns, q, scope, rfl, hq, hs, (Except.error.inj h).symm,
          .inl (Option.isSome_iff_ne_none.mp htaken)⟩
      obtain ⟨before, m, after, q', scope', rfl, hq', hs', hf, htaken'⟩ :=
        indexInputs_error hscopes h
      refine ⟨n :: before, m, after, q', scope', rfl, hq', hs', hf, ?_⟩
      rcases htaken' with hsome | ⟨l, hl, hasks⟩
      · rw [Ne, Mapping.get?_append_single_eq_none, not_and_or, not_not] at hsome
        exact hsome.imp_right fun hpath => ⟨n, List.mem_cons_self, (asks_iff hq hs).mpr hpath⟩
      · exact .inr ⟨l, List.mem_cons_of_mem _ hl, hasks⟩

/-- The flaw of the questions names one whose path an earlier question has. -/
theorem inputs_error {f : Flaw} (h : d.inputs = .error f) : ∃ m n q scope path,
    m ∈ d.nodes ∧ n ∈ d.nodes ∧ Node.Precedes m n ∧ Asks m path ∧ Asks n path ∧
      Node.question? n = some q ∧ Node.scope n = .ok scope ∧ f = .duplicateInput q.name scope := by
  obtain ⟨before, n, after, q, scope, hns, hq, hs, hf, htaken⟩ :=
    indexInputs_error (fun n hn => exists_scope hn) h
  rcases htaken with hfound | ⟨m, hm, hasks⟩
  · exact absurd rfl hfound
  have hpath := (asks_iff hq hs).mpr rfl
  have horder := pairwise_nodes d
  rw [hns, List.pairwise_append] at horder
  refine ⟨m, n, q, scope, _, ?_, ?_, horder.2.2 m hm n List.mem_cons_self, hasks, hpath, hq, hs, hf⟩
  all_goals simp [hns, hm]

/-- Questions have one path somewhere if and only if questions clash somewhere. -/
theorem exists_asks_iff (hd : d.PlainNames) :
    (∃ m ∈ d.nodes, ∃ n ∈ d.nodes, m ≠ n ∧ ∃ path, Asks m path ∧ Asks n path) ↔
      ∃ m ∈ d.nodes, ∃ n ∈ d.nodes, d.Clashes m n := by
  constructor
  · rintro ⟨m, hm, n, hn, hne, path, hmp, hnp⟩
    obtain ⟨overm, hlm⟩ := exists_line m hm
    obtain ⟨overn, hln⟩ := exists_line n hn
    obtain ⟨p, hp⟩ := hmp.1
    obtain ⟨q, hq⟩ := hnp.1
    have hnames : Node.names overm ++ [p.name] = Node.names overn ++ [q.name] := by
      rw [← hlm.pieces_of_asks hd hp hmp, ← hln.pieces_of_asks hd hq hnp]
    obtain ⟨hover, hname⟩ := List.append_inj' hnames rfl
    exact exists_clash hlm hln hp hq (by simpa using hname) hover hne
  · rintro ⟨m, hm, n, hn, h⟩
    exact ⟨m, hm, n, hn, h.ne, h.asks hm hn⟩

/-- The questions of a descriptor can be indexed if no two of them have the same path. -/
theorem exists_inputs_iff : (∃ inputs, d.inputs = .ok inputs) ↔
    ¬ ∃ m ∈ d.nodes, ∃ n ∈ d.nodes, m ≠ n ∧ ∃ path, Asks m path ∧ Asks n path := by
  rw [inputs, exists_indexInputs_iff fun n hn => exists_scope hn]
  constructor
  · rintro ⟨hpairs, -⟩ ⟨m, hm, n, hn, hne, path, hmp, hnp⟩
    have hsymm : Std.Symm fun m n => ∀ path, Asks m path → ¬ Asks n path :=
      ⟨fun _ _ h path hn hm => h path hm hn⟩
    exact hpairs.forall hm hn hne path hmp hnp
  · intro h
    refine ⟨(nodup_nodes d).pairwise_of_forall_ne fun m hm n hn hne path hmp hnp => ?_,
      fun n _ path _ => rfl⟩
    exact h ⟨m, hm, n, hn, hne, path, hmp, hnp⟩

/-- **Paths are faithful to scopes** where the names of questions are plain. The pieces of the path of
a question are the names of the questions above it, from the root down, and its own. The questions
cannot be indexed if and only if two of them clash, and the flaw names a question whose path an earlier
one has. Otherwise every question is listed once, in document order, under its own path. -/
theorem inputs_faithful (hd : d.PlainNames) :
    (∀ n ∈ d.nodes, ∀ q, Node.question? n = some q → ∃ above path, d.ancestors n = .ok above ∧
      Node.path n = .ok path ∧ Text.pieces '.' path = Node.names above ++ [q.name]) ∧
    ((∃ f, d.inputs = .error f) ↔ ∃ m ∈ d.nodes, ∃ n ∈ d.nodes, d.Clashes m n) ∧
    (∀ f, d.inputs = .error f → ∃ m n q scope path, m ∈ d.nodes ∧ n ∈ d.nodes ∧
      Node.Precedes m n ∧ Asks m path ∧ Asks n path ∧ Node.question? n = some q ∧
        Node.scope n = .ok scope ∧ f = .duplicateInput q.name scope) ∧
    ∀ inputs, d.inputs = .ok inputs → inputs.map Prod.snd = d.questions ∧ d.questions.Nodup ∧
      inputs.names.Nodup ∧ ∀ path n, (path, n) ∈ inputs → Node.path n = .ok path := by
  refine ⟨fun n hn q hq => ?_, ?_, fun f => inputs_error, fun inputs h => ?_⟩
  · obtain ⟨above, hl⟩ := exists_line n hn
    have hasks := (asks_iff hq hl.scope).mpr rfl
    exact ⟨above, _, hl.ancestors, hasks.2, hl.pieces_of_asks hd hq hasks⟩
  · rw [← exists_asks_iff hd, ← not_iff_not, ← exists_inputs_iff]
    cases d.inputs <;> simp
  · obtain ⟨hnames, hmem⟩ := indexInputs_ok h List.nodup_nil
    refine ⟨map_snd_inputs h, (nodup_nodes d).filter _, hnames, fun path n hn => ?_⟩
    rcases (hmem path n).mp hn with hnil | ⟨-, -, hpath⟩
    · cases hnil
    · exact hpath

/-- A question above two others, of which the first lies in a group. -/
def nested (first second : String) : Descriptor where
  outline :=
    let asking name : Label :=
      ⟨.question ⟨.text .none, name, .none, .none, .none, .none, .bool false⟩, ""⟩
    .node (asking "base") [.node ⟨.group, ""⟩ [.node (asking first) []], .node (asking second) []]

/-- Two questions below a third clash if they have one name, and are told apart by their names. -/
theorem nested_inputs_faithful :
    (nested "a" "a").PlainNames ∧ (nested "a" "b").PlainNames ∧
    (∃ m ∈ (nested "a" "a").nodes, ∃ n ∈ (nested "a" "a").nodes, (nested "a" "a").Clashes m n) ∧
    (¬ ∃ m ∈ (nested "a" "b").nodes, ∃ n ∈ (nested "a" "b").nodes, (nested "a" "b").Clashes m n) ∧
    ∃ inputs, (nested "a" "b").inputs = .ok inputs ∧ inputs.names = ["base", "base.a", "base.b"] ∧
      inputs.map Prod.snd = (nested "a" "b").questions := by
  have hsame : (nested "a" "a").PlainNames := by decide
  have hother : (nested "a" "b").PlainNames := by decide
  obtain ⟨-, hclash, -, -⟩ := inputs_faithful hsame
  obtain ⟨-, hapart, -, hlisted⟩ := inputs_faithful hother
  obtain ⟨inputs, hinputs⟩ : ∃ inputs, (nested "a" "b").inputs = .ok inputs := ⟨_, rfl⟩
  refine ⟨hsame, hother, hclash.mp ⟨_, rfl⟩, fun h => ?_, inputs, hinputs, ?_,
    (hlisted inputs hinputs).1⟩
  · obtain ⟨f, hf⟩ := hapart.mpr h
    rw [hinputs] at hf
    cases hf
  · rw [← Except.ok.inj hinputs]
    rfl

end Descriptor

end Scaffold
