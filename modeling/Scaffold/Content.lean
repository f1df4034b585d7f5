import Scaffold.Content.Question
import Scaffold.Content.Request

/-! # What a descriptor node says

A descriptor is built of nodes of twelve variants: groups, steps and conditionals give it shape,
presets hold bindings, the four forms of question ask for answers, two of them among options, and
outputs with their model entries say what to generate. Nodes of any other variant may occur in a
descriptor under construction; they are kept under their name and refused when they are met. -/

namespace Scaffold

/-- What a node says, apart from its place and its children. -/
inductive Content where
  | group
  | step (label help : Value)
  | conditional (path : String) (expected : Value)
  | preset
  | binding (name : String) (value : Value)
  | question (q : Question)
  | option (value label help : Value)
  | output (request : Request)
  | model (key value : Value)
  | other (variant : String)
deriving Inhabited

namespace Content

/-- The name of the variant of a node. -/
def variant : Content → String
  | group => "GroupNode"
  | step .. => "StepNode"
  | conditional .. => "ConditionalNode"
  | preset => "ContextNode"
  | binding .. => "ContextValue"
  | question q => q.form.variant
  | option .. => "InputOption"
  | output _ => "OutputNode"
  | model .. => "ModelValue"
  | other v => v

/-- The question of a question node. -/
def question? : Content → Option Question
  | question q => some q
  | _ => none

/-- The value of an option node. -/
def option? : Content → Option Value
  | option v .. => some v
  | _ => none

/-- The name that a node gives to what it holds: questions and bindings have one. -/
def name? : Content → Option String
  | question q => some q.name
  | binding n _ => some n
  | _ => none

end Content

/-- What a node of a descriptor carries besides its children. -/
structure Label where
  content : Content
  directory : String
deriving Inhabited

end Scaffold
