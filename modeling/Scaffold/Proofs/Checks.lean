import Scaffold.Directive
import Scaffold.Proofs.Accepted

/-! # What the analysis decides

Each check of the analysis decides a property of what it looks at, provided that the fields there are
well typed: it passes what has the property and rejects everything else with a flaw (`Decides`). Checks
that are made one after the other decide what they decide together (`Decides.bind`), and so the property
of a node (`Node.Fits`) is put together from those of its parts (`Analysis.decides_node`). -/

namespace Scaffold

/-- The fields of a request have the types that they are declared with. -/
structure Request.WellTyped (r : Request) : Prop where
  kind : ∃ k, OutputKind.ofValue? r.kind = some k
  source : ∃ s, r.source = Directive.optionalText s
  target : ∃ s, r.target = Directive.optionalText s
  engine : ∃ s, r.engine = Directive.optionalText s
  includes : ∃ ss, r.includes = Directive.textTuple ss
  excludes : ∃ ss, r.excludes = Directive.textTuple ss

/-- The fields that are looked into have the types that they are declared with. -/
def Content.WellTyped : Content → Prop
  | .option value _ _ => ∃ s, value = .str s
  | .model key _ => ∃ s, key = .str s
  | .output r => r.WellTyped
  | _ => True

/-! ### Deciding a property -/

/-- What has the property passes, and the fault of what does not is a flaw. -/
structure Decides {α : Type} (r : Except Fault α) (P : Prop) : Prop where
  ok_iff : (∃ a, r = .ok a) ↔ P
  flaw : ∀ f, r = .error f → ∃ flaw, f = .flaw flaw

namespace Decides

variable {α β : Type} {r s : Except Fault α} {P Q : Prop}

theorem pass {a : α} (h : P) : Decides (.ok a) P :=
  ⟨iff_of_true ⟨a, rfl⟩ h, fun f hf => by cases hf⟩

theorem fail (flaw : Flaw) (h : ¬ P) : Decides (.error (.flaw flaw) : Except Fault α) P :=
  ⟨iff_of_false (fun ⟨a, ha⟩ => by cases ha) h, fun _ hf => ⟨flaw, (Except.error.inj hf).symm⟩⟩

theorem congr (h : Decides r P) (hPQ : P ↔ Q) : Decides r Q := ⟨h.ok_iff.trans hPQ, h.flaw⟩

/-- A flaw that a step finds is a fault. -/
theorem mapError {x : Except Flaw α} (h : (∃ a, x = .ok a) ↔ P) :
    Decides (x.mapError Fault.flaw) P := by
  refine ⟨(exists_congr fun a => Fallible.mapError_ok).trans h, fun f hf => ?_⟩
  obtain ⟨flaw, -, rfl⟩ := Fallible.mapError_error.mp hf
  exact ⟨flaw, rfl⟩

/-- Two checks one after the other decide both properties. The second is made only of what has passed
the first. -/
theorem bind {next : α → Except Fault β} (h : Decides r P)
    (hnext : ∀ a, r = .ok a → Decides (next a) Q) : Decides (r >>= next) (P ∧ Q) := by
  cases r with
  | error f =>
    have hP : ¬ P := fun hP => by
      obtain ⟨a, ha⟩ := h.ok_iff.mpr hP
      cases ha
    obtain ⟨flaw, rfl⟩ := h.flaw f rfl
    exact .fail flaw fun hPQ => hP hPQ.1
  | ok a =>
    have hP : P := h.ok_iff.mp ⟨a, rfl⟩
    exact (hnext a rfl).congr (and_iff_right hP).symm

theorem not_iff (h : Decides r P) : ¬ P ↔ ∃ flaw, r = .error (.flaw flaw) := by
  rw [← h.ok_iff]
  refine ⟨fun hno => ?_, fun ⟨flaw, hr⟩ ⟨a, ha⟩ => ?_⟩
  · cases r with
    | ok a => exact absurd ⟨a, rfl⟩ hno
    | error f =>
      obtain ⟨flaw, rfl⟩ := h.flaw f rfl
      exact ⟨flaw, rfl⟩
  · rw [hr] at ha
    cases ha

end Decides

/-! ### Properties of nodes -/

/-- A text of at least one character. -/
def Value.Given (v : Value) : Prop := ∃ s, v = .str s ∧ s ≠ ""

/-- A file or template is made from a source or at a target, several of them from a source. -/
structure Request.Complete (r : Request) : Prop where
  single : ∀ kind, OutputKind.ofValue? r.kind = some kind → kind = .file ∨ kind = .template →
    r.source.Given ∨ r.target.Given
  several : ∀ kind, OutputKind.ofValue? r.kind = some kind → kind = .files ∨ kind = .templates →
    r.source.Given

/-- A question has a concrete form and a name of one segment. If it offers options, they are all that
lies directly below it, and they differ; an enum question has at least one. A declared default is an
answer to it. -/
structure Question.Fits (q : Question) (n : Node) : Prop where
  concrete : ∀ variant, q.form ≠ .bare variant
  name : q.name ≠ "" ∧ '.' ∉ q.name.toList
  options : q.form = .enum ∨ q.form = .list →
    (∀ c ∈ n.children, ∃ value label help, Node.content c = .option value label help) ∧
      (Node.choices n).Nodup
  offered : q.form = .enum → n.children ≠ []
  fallback : q.fallback ≠ .none →
    ∃ path v, Node.path n = .ok path ∧ Answer.coerce n q.fallback path = .ok v

/-- What is asked of a node below a parent, or at the root. -/
structure Node.Fits (parent : Option Content) (n : Node) : Prop where
  known : ∀ variant, content n ≠ .other variant
  question : ∀ q, content n = .question q → q.Fits n
  option : ∀ value label help, content n = .option value label help →
    ∃ q, parent = some (.question q) ∧ (q.form = .enum ∨ q.form = .list)
  binding : ∀ name value, content n = .binding name value → parent = some .preset
  model : ∀ key value, content n = .model key value → ∃ r, parent = some (.output r)
  preset : content n = .preset → ∀ c ∈ n.children, ∃ name value, content c = .binding name value
  output : ∀ r, content n = .output r →
    (∀ c ∈ n.children, ∃ key value, content c = .model key value) ∧ r.Complete
  conditional : ∀ path expected, content n = .conditional path expected → path ≠ ""

/-! ### Checks of nodes -/

namespace Analysis

variable {n : Node} {q : Question} {parent : Option Content}

theorem exists_option_iff {c : Content} :
    (∃ v, c.option? = some v) ↔ ∃ value label help, c = .option value label help := by
  cases c <;> simp [Content.option?]

theorem choices_eq (n : Node) :
    Node.choices n = n.children.filterMap fun c => (Node.content c).option? := by
  rw [Node.choices, Node.options, List.map_filterMap]
  refine List.filterMap_congr fun c _ => ?_
  rw [Option.map_map]
  exact congrFun Option.map_id _

theorem decides_options {path : String} : ∀ {cs : List Node} {seen : List String},
    (∀ c ∈ cs, (Node.content c).WellTyped) →
      Decides (checkOptions path (seen.map .str) cs)
        ((∀ c ∈ cs, ∃ v, (Node.content c).option? = some v) ∧
          (cs.filterMap fun c => (Node.content c).option?).Nodup ∧
          ∀ s ∈ seen, .str s ∉ cs.filterMap fun c => (Node.content c).option?)
  | [], seen, _ => .pass (by simp)
  | c :: cs, seen, hcs => by
    rw [checkOptions]
    cases hc : (Node.content c).option? with
    | none =>
      refine .fail _ fun h => ?_
      obtain ⟨v, hv⟩ := h.1 c (by simp)
      rw [hc] at hv
      cases hv
    | some v =>
      obtain ⟨s, rfl⟩ : ∃ s, v = .str s := by
        obtain ⟨value, label, help, hoption⟩ := exists_option_iff.mp ⟨v, hc⟩
        have hwell := hcs c (by simp)
        rw [hoption] at hc hwell
        obtain rfl := Option.some.inj hc
        exact hwell
      have hlist : ((c :: cs).filterMap fun c => (Node.content c).option?) =
          .str s :: cs.filterMap fun c => (Node.content c).option? :=
        List.filterMap_cons_some hc
      rw [hlist]
      show Decides (if (Value.str s).among (seen.map .str) = true then _ else _) _
      split_ifs with hmem
      · rw [Answer.among_map_str] at hmem
        exact .fail (.repeatedOption path s) fun h => h.2.2 s hmem List.mem_cons_self
      · rw [Answer.among_map_str] at hmem
        have hrest : Decides (checkOptions path ((s :: seen).map .str) cs) _ :=
          decides_options fun c hc => hcs c (List.mem_cons_of_mem _ hc)
        refine hrest.congr ?_
        rw [List.forall_mem_cons, List.forall_mem_cons, List.nodup_cons]
        constructor
        · rintro ⟨hall, hnodup, hs, hseen⟩
          refine ⟨⟨⟨_, hc⟩, hall⟩, ⟨hs, hnodup⟩, fun t ht hmem' => ?_⟩
          rcases List.mem_cons.mp hmem' with heq | hmem'
          · exact hmem (Value.str.inj heq ▸ ht)
          · exact hseen t ht hmem'
        · rintro ⟨⟨-, hall⟩, ⟨hs, hnodup⟩, hseen⟩
          exact ⟨hall, hnodup, hs, fun t ht hmem' => hseen t ht (List.mem_cons_of_mem _ hmem')⟩

theorem offersOptions_iff {form : Form} :
    form.offersOptions = true ↔ form = .enum ∨ form = .list := by
  cases form <;> simp [Form.offersOptions]

theorem kind_enum_iff {form : Form} : form.kind = .enum ↔ form = .enum := by
  cases form <;> simp [Form.kind]

theorem isConcrete_iff {form : Form} :
    form.isConcrete = true ↔ ∀ variant, form ≠ .bare variant := by
  cases form <;> simp [Form.isConcrete]

theorem isName_iff {s : String} : isName s = true ↔ s ≠ "" ∧ '.' ∉ s.toList := by
  simp [isName]

theorem hasFallback_iff : q.hasFallback = true ↔ q.fallback ≠ .none := by
  rw [Question.hasFallback]
  cases q.fallback <;> simp [Value.isNone]

theorem decides_children {path : String} (hcs : ∀ c ∈ n.children, (Node.content c).WellTyped) :
    Decides (checkChildren q path n.children)
      ((q.form = .enum ∨ q.form = .list →
        (∀ c ∈ n.children, ∃ value label help, Node.content c = .option value label help) ∧
          (Node.choices n).Nodup) ∧ (q.form = .enum → n.children ≠ [])) := by
  rw [checkChildren]
  by_cases hoffers : q.form.offersOptions = true
  · rw [if_pos hoffers]
    have hform := offersOptions_iff.mp hoffers
    have hoptions := @decides_options path n.children [] hcs
    refine (hoptions.bind (Q := q.form = .enum → n.children ≠ []) fun _ _ => ?_).congr
      (and_congr_left fun _ => ?_)
    · split_ifs with hempty
      · exact .fail _ fun h => h (kind_enum_iff.mp hempty.1) (List.isEmpty_iff.mp hempty.2)
      · exact .pass fun hq hnil => hempty ⟨kind_enum_iff.mpr hq, List.isEmpty_iff.mpr hnil⟩
    · rw [← choices_eq]
      simp [hform, exists_option_iff]
  · rw [if_neg hoffers]
    rw [offersOptions_iff] at hoffers
    exact .pass ⟨fun h => absurd h hoffers, fun h => absurd (.inl h) hoffers⟩

theorem decides_fallback {path : String} (hq : Node.content n = .question q)
    (hc : q.form.isConcrete = true) : Decides (checkFallback n q path)
      (q.fallback ≠ .none → ∃ v, Answer.coerce n q.fallback path = .ok v) := by
  rw [checkFallback]
  split_ifs with hd
  · have hd' := hasFallback_iff.mp hd
    cases hcoerce : Answer.coerce n q.fallback path with
    | ok v => exact .pass fun _ => ⟨v, rfl⟩
    | error f =>
      obtain ⟨m, rfl⟩ := Answer.mismatch_of_coerce (Node.question?_eq_some.mpr hq) hc hcoerce
      refine .fail _ fun h => ?_
      obtain ⟨v, hv⟩ := h hd'
      cases hv
  · exact .pass fun h => absurd (hasFallback_iff.mpr h) hd

theorem decides_question (hq : Node.content n = .question q) (hscope : ∃ scope, Node.scope n = .ok scope)
    (hcs : ∀ c ∈ n.children, (Node.content c).WellTyped) : Decides (checkQuestion n q) (q.Fits n) := by
  obtain ⟨scope, hscope⟩ := hscope
  have hpath : ∀ path, Node.path n = .ok path ↔ Path.join scope q.name = path := fun path => by
    rw [Node.question_path_iff hq, hscope]
    simp
  rw [checkQuestion, hscope]
  show Decides (if _ then _ else if _ then _ else _) _
  split_ifs with hbare hname
  · refine .fail _ fun h => ?_
    rw [isConcrete_iff.mpr h.concrete] at hbare
    cases hbare
  · refine .fail _ fun h => ?_
    rw [isName_iff.mpr h.name] at hname
    cases hname
  · have hconcrete : q.form.isConcrete = true := by simpa using hbare
    refine ((decides_children hcs).bind fun _ _ => decides_fallback hq hconcrete).congr ?_
    constructor
    · rintro ⟨⟨hoptions, hoffered⟩, hfallback⟩
      refine ⟨isConcrete_iff.mp hconcrete, isName_iff.mp (by simpa using hname), hoptions, hoffered,
        fun hd => ?_⟩
      obtain ⟨v, hv⟩ := hfallback hd
      exact ⟨_, v, (hpath _).mpr rfl, hv⟩
    · intro h
      refine ⟨⟨h.options, h.offered⟩, fun hd => ?_⟩
      obtain ⟨path, v, hp, hv⟩ := h.fallback hd
      exact ⟨v, (hpath path).mp hp ▸ hv⟩

theorem decides_preset : ∀ {cs : List Node}, Decides (checkPreset cs)
    (∀ c ∈ cs, ∃ name value, Node.content c = .binding name value)
  | [] => .pass (by simp)
  | c :: cs => by
    rw [checkPreset, List.forall_mem_cons]
    split
    next name value hc => exact decides_preset.congr (and_iff_right ⟨name, value, hc⟩).symm
    next hne =>
      refine .fail _ fun h => ?_
      obtain ⟨name, value, hc⟩ := h.1
      exact hne name value hc

theorem decides_model : ∀ {cs : List Node}, Decides (checkModel cs)
    (∀ c ∈ cs, ∃ key value, Node.content c = .model key value)
  | [] => .pass (by simp)
  | c :: cs => by
    rw [checkModel, List.forall_mem_cons]
    split
    next key value hc => exact decides_model.congr (and_iff_right ⟨key, value, hc⟩).symm
    next hne =>
      refine .fail _ fun h => ?_
      obtain ⟨key, value, hc⟩ := h.1
      exact hne key value hc

theorem truthy_optionalText (s : Option String) :
    (Directive.optionalText s).truthy = true ↔ (Directive.optionalText s).Given := by
  cases s <;> simp [Directive.optionalText, Value.truthy, Value.Given]

theorem decides_request {r : Request} (hr : r.WellTyped) : Decides (checkRequest r) r.Complete := by
  obtain ⟨kind, hkind⟩ := hr.kind
  have hsource : r.source.truthy = true ↔ r.source.Given := by
    obtain ⟨s, hs⟩ := hr.source
    rw [hs, truthy_optionalText]
  have htarget : r.target.truthy = true ↔ r.target.Given := by
    obtain ⟨s, hs⟩ := hr.target
    rw [hs, truthy_optionalText]
  have hsingle : kind.isSingle = true ↔ kind = .file ∨ kind = .template := by
    cases kind <;> simp [OutputKind.isSingle]
  have hseveral : kind.isSingle = false ↔ kind = .files ∨ kind = .templates := by
    cases kind <;> simp [OutputKind.isSingle]
  have hcomplete : r.Complete ↔ (kind.isSingle = true → r.source.Given ∨ r.target.Given) ∧
      (kind.isSingle = false → r.source.Given) := by
    rw [hsingle, hseveral]
    refine ⟨fun h => ⟨h.single kind hkind, h.several kind hkind⟩, fun ⟨h, h'⟩ => ⟨?_, ?_⟩⟩
    all_goals
      intro k hk
      obtain rfl := Option.some.inj (hk.symm.trans hkind)
      assumption
  rw [checkRequest, hkind, hcomplete]
  have hor : (r.source.truthy || r.target.truthy) = true ↔ r.source.Given ∨ r.target.Given := by
    rw [Bool.or_eq_true, hsource, htarget]
  show Decides (if _ then (if _ then _ else _) else if _ then _ else _) _
  split_ifs with hone hgiven hgiven
  · exact .pass ⟨fun _ => hor.mp hgiven, fun h => by rw [hone] at h; cases h⟩
  · exact .fail _ fun h => hgiven (hor.mpr (h.1 hone))
  · exact .pass ⟨fun h => absurd h hone, fun _ => hsource.mp hgiven⟩
  · exact .fail _ fun h => hgiven (hsource.mpr (h.2 (by simpa using hone)))

theorem offersOptions_parent_iff : offersOptions parent = true ↔
    ∃ q, parent = some (.question q) ∧ (q.form = .enum ∨ q.form = .list) := by
  cases parent with
  | none => simp [offersOptions]
  | some c => cases c <;> simp [offersOptions, offersOptions_iff]

/-- **The check of a node decides whether it fits** below its parent. -/
theorem decides_node (hn : (Node.content n).WellTyped)
    (hcs : ∀ c ∈ n.children, (Node.content c).WellTyped)
    (hscope : ∃ scope, Node.scope n = .ok scope) :
    Decides (checkNode parent n) (Node.Fits parent n) := by
  unfold checkNode
  cases hc : Node.content n with
  | group => exact .pass (by constructor <;> simp [hc])
  | step label help => exact .pass (by constructor <;> simp [hc])
  | conditional path expected =>
    dsimp only
    split_ifs with hempty
    · exact .fail _ fun h => h.conditional path expected hc (String.isEmpty_iff.mp hempty)
    · exact .pass (by constructor <;> simp_all)
  | preset =>
    exact decides_preset.congr ⟨fun h => by constructor <;> simp_all, fun h => h.preset hc⟩
  | binding name value =>
    dsimp only
    split
    · exact .pass (by constructor <;> simp [hc])
    next hne => exact .fail _ fun h => hne (h.binding name value hc)
  | question q =>
    exact (decides_question hc hscope hcs).congr
      ⟨fun h => by constructor <;> simp_all, fun h => h.question q hc⟩
  | option value label help =>
    rw [hc] at hn
    obtain ⟨text, rfl⟩ := hn
    dsimp only
    split_ifs with hoffers
    · have hparent := offersOptions_parent_iff.mp hoffers
      exact .pass (by constructor <;> simp_all)
    · exact .fail (.misplacedOption text) fun h =>
        hoffers (offersOptions_parent_iff.mpr (h.option _ label help hc))
  | output r =>
    rw [hc] at hn
    refine (decides_model.bind fun _ _ => decides_request hn).congr
      ⟨fun h => by constructor <;> simp_all, fun h => h.output r hc⟩
  | model key value =>
    rw [hc] at hn
    obtain ⟨text, rfl⟩ := hn
    dsimp only
    split
    next r => exact .pass (by constructor <;> simp [hc])
    next hne =>
      refine .fail (.misplacedModel text) fun h => ?_
      obtain ⟨r, hr⟩ := h.model _ value hc
      exact hne r hr
  | other variant => exact .fail _ fun h => h.known variant hc

end Analysis

end Scaffold
