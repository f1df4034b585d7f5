import Scaffold.Descriptor
import Scaffold.Answer

/-! # Analysis of a descriptor

`Draft.accept` gives the descriptor of a draft that can be worked with: it is a tree, no two
questions have one path, and every node passes `Analysis.checkNode`. The nodes are checked in
document order and the first fault found is reported. -/

namespace Scaffold

namespace Analysis

/-- The options of a question: nothing but options, no value twice. -/
def checkOptions (path : String) (seen : List Value) : List Node → Except Fault Unit
  | [] => .ok ()
  | c :: cs =>
    match (Node.content c).option? with
    | none => .error (.flaw (.strayInInput path (Node.variant c)))
    | some v =>
      if !v.hashable then .error .unsuitable
      else if v.among seen then .error (.flawAbout v.display? (.repeatedOption path))
      else checkOptions path (v :: seen) cs

/-- The children of a question: a list or enum question has options only, an enum one at least
one. -/
def checkChildren (q : Question) (path : String) (cs : List Node) : Except Fault Unit :=
  if q.form.offersOptions then do
    checkOptions path [] cs
    if q.form.kind = .enum ∧ cs.isEmpty then .error (.flaw (.noOptions path)) else .ok ()
  else .ok ()

/-- The declared default of a question is an answer to it. -/
def checkFallback (n : Node) (q : Question) (path : String) : Except Fault Unit :=
  if q.hasFallback then
    match Answer.coerce n q.fallback path with
    | .ok _ => .ok ()
    | .error (.data (.mismatch m)) => .error (.flaw (.badDefault path m))
    | .error f => .error f
  else .ok ()

/-- A name of one segment. -/
def isName (s : String) : Bool := !s.isEmpty && !s.toList.contains '.'

/-- A question: a concrete form, a name of one segment, fitting children and a fitting default. -/
def checkQuestion (n : Node) (q : Question) : Except Fault Unit := do
  let scope ← (Node.scope n).mapError Fault.flaw
  let path := Path.join scope q.name
  if !q.form.isConcrete then .error (.flaw (.bareInput path (Node.variant n)))
  else if !isName q.name then .error (.flaw (.badName q.name scope))
  else do
    checkChildren q path n.children
    checkFallback n q path

/-- The members of a preset are bindings. -/
def checkPreset : List Node → Except Fault Unit
  | [] => .ok ()
  | c :: cs =>
    match Node.content c with
    | .binding .. => checkPreset cs
    | other => .error (.flaw (.strayInPreset other.variant))

/-- The members of an output are model entries. -/
def checkModel : List Node → Except Fault Unit
  | [] => .ok ()
  | c :: cs =>
    match Node.content c with
    | .model .. => checkModel cs
    | other => .error (.flaw (.strayInOutput other.variant))

/-- A single output names a source or a target, a set of outputs names a source. -/
def checkRequest (r : Request) : Except Fault Unit :=
  match OutputKind.ofValue? r.kind with
  | some kind =>
    if kind.isSingle then
      if r.source.truthy || r.target.truthy then .ok () else .error (.flaw (.noSourceOrTarget kind))
    else if r.source.truthy then .ok () else .error (.flaw (.noSource kind))
  | none => if r.source.truthy then .ok () else .error (.absent "value")

/-- The content is a question that offers options. -/
def offersOptions : Option Content → Bool
  | some (.question q) => q.form.offersOptions
  | _ => false

/-- One node below a parent. -/
def checkNode (parent : Option Content) (n : Node) : Except Fault Unit :=
  match Node.content n with
  | .question q => checkQuestion n q
  | .option v .. =>
    if offersOptions parent then .ok () else .error (.flawAbout v.display? .misplacedOption)
  | .binding name _ =>
    match parent with
    | some .preset => .ok ()
    | _ => .error (.flaw (.misplacedBinding name))
  | .model key _ =>
    match parent with
    | some (.output _) => .ok ()
    | _ => .error (.flawAbout key.display? .misplacedModel)
  | .output r => do
    checkModel n.children
    checkRequest r
  | .conditional path _ => if path.isEmpty then .error (.flaw .emptyCondition) else .ok ()
  | .preset => checkPreset n.children
  | .group | .step .. => .ok ()
  | .other v => .error (.flaw (.unknownVariant v))

mutual
/-- A node below a parent, and everything below the node. -/
def checkTree (parent : Option Content) : Node → Except Fault Unit
  | .node site cs => do
    checkNode parent (.node site cs)
    checkTrees (some site.label.content) cs
/-- Several nodes below a parent, and everything below them. -/
def checkTrees (parent : Option Content) : List Node → Except Fault Unit
  | [] => .ok ()
  | c :: cs => do
    checkTree parent c
    checkTrees parent cs
end

end Analysis

/-- The descriptor passes every check. -/
def Descriptor.check (d : Descriptor) : Except Fault Unit := do
  let _ ← d.inputs.mapError Fault.flaw
  Analysis.checkTree none d.root

/-- The descriptor of a draft that passes every check. -/
def Draft.accept (d : Draft) : Except Fault Descriptor := do
  let descriptor ← Descriptor.ofDraft d
  descriptor.check
  return descriptor

end Scaffold
