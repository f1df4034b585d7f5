import Scaffold.Phase
import Scaffold.Content
import Scaffold.Value.Text
import Scaffold.Validation.Issue

/-! # Faults

* `Flaw`: what is wrong with a descriptor.
* `Mismatch`: why an answer does not fit its question.
* `DataFault`: a fault of the descriptor or of the answers; it ends a flow in its error phase.
* `ProtocolFault`: the library was used out of turn, or met a variant that it has no rule for.
* `Fault`: these two, what can go wrong with values that are not of the type that a field is
  declared with, and a value that would be part of a message and cannot be written.

`message` gives the text of each. A fault keeps the texts of the values that it is about: where one
of them has no text, `Fault.oversized`, which has no message, takes the place of the fault
(`Fault.flawAbout`, `Fault.differing`). A mismatch is reported all the same, for the reason
`Reason.oversized`. -/

namespace Scaffold

/-- Why a value is not an answer to a question. -/
inductive Reason where
  | notText (found : String)
  | notBoolean (found : String)
  | notAChoice (found choices : String)
  | notAList (found : String)
  | oversized

/-- The sentence that gives a reason. -/
def Reason.message : Reason → String
  | notText found => "Value error, expected text, got " ++ found
  | notBoolean found => "Value error, expected a boolean, got " ++ found
  | notAChoice found choices => "Value error, " ++ found ++ " is not one of " ++ choices
  | notAList found => "Value error, expected a list, got " ++ found
  | oversized =>
    s!"Value error, Exceeds the limit ({Text.mostDigits} digits) for integer string conversion; " ++
      "use sys.set_int_max_str_digits() to increase the limit"

/-- Why a value is not a truth value. -/
def Reason.ofBoolean (v : Value) : Reason := (v.repr?.map notBoolean).getD oversized

/-- Why a value is not one of the choices. -/
def Reason.ofChoice (v : Value) (choices : List Value) : Reason :=
  match v.repr?, (Value.list choices).repr? with
  | some found, some listed => .notAChoice found listed
  | _, _ => .oversized

/-- An answer that does not fit the question at a path. -/
structure Mismatch where
  path : String
  kind : AnswerKind
  reason : Reason

/-- The sentence that reports a mismatch. -/
def Mismatch.message (m : Mismatch) : String :=
  s!"Input '{m.path}' expects {m.kind.name}: {m.reason.message}"

/-- What is wrong with a descriptor. -/
inductive Flaw where
  | notANode (owner found : String)
  | cycle (variant : String)
  | shared (variant : String)
  | outside (variant : String)
  | duplicateInput (name scope : String)
  | misplacedOption (value : String)
  | misplacedBinding (name : String)
  | misplacedModel (key : String)
  | emptyCondition
  | unknownVariant (variant : String)
  | bareInput (path variant : String)
  | badName (name scope : String)
  | strayInInput (path variant : String)
  | repeatedOption (path value : String)
  | noOptions (path : String)
  | badDefault (path : String) (mismatch : Mismatch)
  | strayInPreset (variant : String)
  | strayInOutput (variant : String)
  | noSourceOrTarget (kind : OutputKind)
  | noSource (kind : OutputKind)

/-- The sentence that reports a flaw. -/
def Flaw.message : Flaw → String
  | notANode owner found => s!"{owner} has a child that is not a node: {found}"
  | cycle variant => s!"Cycle detected: {variant} is its own ancestor"
  | shared variant => s!"{variant} is owned by more than one parent"
  | outside variant => s!"{variant} is not part of this descriptor"
  | duplicateInput name scope =>
    let shown := if scope.isEmpty then "<root>" else scope
    s!"Duplicate input '{name}' in scope '{shown}'"
  | misplacedOption value =>
    s!"Option '{value}' must be declared inside an enum or list input"
  | misplacedBinding name => s!"Context value '{name}' must be declared inside a context node"
  | misplacedModel key => s!"Model value '{key}' must be declared inside an output"
  | emptyCondition => "Conditional node without a path"
  | unknownVariant variant => s!"Unknown descriptor node {variant}"
  | bareInput path variant => s!"Input '{path}' has no concrete kind ({variant})"
  | badName name scope => s!"Invalid input name {Text.quoted name} in scope '{scope}'"
  | strayInInput path variant => s!"Input '{path}' may only contain options, found {variant}"
  | repeatedOption path value => s!"Input '{path}' declares option '{value}' twice"
  | noOptions path => s!"Enum input '{path}' declares no options"
  | badDefault path mismatch => s!"Invalid default for input '{path}': {mismatch.message}"
  | strayInPreset variant => s!"Context node may only contain context values, found {variant}"
  | strayInOutput variant => s!"Output may only contain model values, found {variant}"
  | noSourceOrTarget kind => s!"{kind.name} output needs a source or a target"
  | noSource kind => s!"{kind.name} output needs a source directory"

/-- A fault of the descriptor or of the answers. -/
inductive DataFault where
  | conflict (path first second : String)
  | rebinding (path bound supplied : String)
  | mismatch (m : Mismatch)
  | unnamed (scope : String)
  | overflow (size : Nat) (limit : Int)
  | flaw (f : Flaw)

namespace DataFault

/-- The name of the family that a data fault belongs to. -/
def family : DataFault → String
  | conflict .. | rebinding .. => "DuplicateBindingError"
  | mismatch _ | unnamed _ => "TypeMismatchError"
  | overflow .. => "ContextOverflowError"
  | flaw _ => "DescriptorError"

/-- The sentence that reports a data fault. -/
def message : DataFault → String
  | conflict path first second =>
    s!"Path '{path}' supplied twice in one batch: {first} and {second}"
  | rebinding path bound supplied =>
    s!"Path '{path}' is already bound to {bound}, cannot rebind to {supplied}"
  | mismatch m => m.message
  | unnamed scope => s!"Context binding at scope '{scope}' has an empty name"
  | overflow size limit => s!"Context size {size} exceeds limit {limit}"
  | flaw f => f.message

/-- The line that a flow in its error phase shows. -/
def diagnostic (f : DataFault) : String := f.family ++ ": " ++ f.message

end DataFault

/-- A variant met where there is no rule for it. -/
inductive Unhandled where
  | answer (variant : String)
  | batch (variant : String)
  | misplaced (variant : String)
  | scan (variant : String)
  | conversion (variant : String)
  | assembly (variant : String)
  | transition (variant : String)

/-- The sentence that reports a variant without a rule. -/
def Unhandled.message : Unhandled → String
  | answer v => s!"No answer schema for {v}"
  | batch v => s!"Context batch may only contain values, found {v}"
  | misplaced v => s!"{v} reached outside of its owning node"
  | scan v => s!"Interpreter has no case for {v}"
  | conversion v => s!"Output conversion has no case for {v}"
  | assembly v => s!"Result assembly has no case for {v}"
  | transition v => s!"No transition for {v}"

/-- The library was used out of turn. -/
inductive ProtocolFault where
  | emptyPop
  | emptyPeek
  | terminal (phase : Phase)
  | unhandled (u : Unhandled)

/-- The sentence that reports a fault of use. -/
def ProtocolFault.message : ProtocolFault → String
  | emptyPop => "pop on an empty execution stack"
  | emptyPeek => "No active node: the interpreter has not entered the descriptor"
  | terminal phase => s!"Flow is {phase.name}; build cannot be invoked again"
  | unhandled u => u.message

/-- What can go wrong. Beside faults of data and of use: a record with bad fields, an argument that
is no batch of bindings, a key of a mapping that is no name, a value that cannot be iterated or
looked up, a field that is not there, and a value that cannot be written. -/
inductive Fault where
  | data (f : DataFault)
  | protocol (f : ProtocolFault)
  | invalid (issues : List Validation.Issue)
  | notABatch (typeName : String)
  | notAName (typeName : String)
  | unsuitable
  | absent (field : String)
  | oversized

namespace Fault

/-- A flaw of the descriptor as a fault. -/
abbrev flaw (f : Flaw) : Fault := .data (.flaw f)

/-- A flaw that is told with the text of a value. -/
def flawAbout (text : Option String) (f : String → Flaw) : Fault :=
  match text with
  | some t => .flaw (f t)
  | none => .oversized

/-- A fault that is told with the texts of two values that should be equal. -/
def differing (report : String → String → DataFault) (u v : Value) : Fault :=
  match u.repr?, v.repr? with
  | some s, some t => .data (report s t)
  | _, _ => .oversized

/-- A variant without a rule as a fault. -/
abbrev unhandled (u : Unhandled) : Fault := .protocol (.unhandled u)

/-- The sentence that reports a fault, for those that have one. -/
def message? : Fault → Option String
  | data f => some f.message
  | protocol f => some f.message
  | notABatch typeName => some s!"Expected a ContextNode or a mapping, got {typeName}"
  | _ => none

end Fault

end Scaffold
