import Scaffold.Value

/-! # Questions

A question asks for an answer of one of four kinds: a text, a truth value, one of its options, or
several of them. -/

namespace Scaffold

/-- What kind of answer a question takes. -/
inductive AnswerKind where
  | text
  | boolean
  | enum
  | list
deriving DecidableEq

/-- The name of a kind of answer. -/
def AnswerKind.name : AnswerKind → String
  | .text => "text"
  | .boolean => "boolean"
  | .enum => "enum"
  | .list => "list"

/-- The form of a question. A bare question has no concrete form of its own. -/
inductive Form where
  | text (placeholder : Value)
  | boolean
  | enum
  | list
  | bare (variant : String)

namespace Form

/-- The kind of answer that a form takes; a bare question is taken for one that wants a text. -/
def kind : Form → AnswerKind
  | text _ | bare _ => .text
  | boolean => .boolean
  | enum => .enum
  | list => .list

/-- The form is one of the four concrete ones. -/
def isConcrete : Form → Bool
  | bare _ => false
  | _ => true

/-- The form offers options. -/
def offersOptions : Form → Bool
  | enum | list => true
  | _ => false

/-- What a text question shows in an empty field. -/
def placeholder : Form → Value
  | text p => p
  | _ => .none

/-- The name of the variant of a question of this form. -/
def variant : Form → String
  | text _ => "InputText"
  | boolean => "InputBoolean"
  | enum => "InputEnum"
  | list => "InputList"
  | bare v => v

end Form

/-- A question to whoever fills in the descriptor. -/
structure Question where
  form : Form
  name : String
  label : Value
  fallback : Value
  prompt : Value
  help : Value
  optional : Value

namespace Question

/-- The question declares an answer of its own. -/
def hasFallback (q : Question) : Bool := !q.fallback.isNone

/-- The question may be left without an answer. -/
def isOptional (q : Question) : Bool := q.optional.truthy

end Question

end Scaffold
