import Scaffold.Branch
import Scaffold.Descriptor
import Scaffold.Directive

/-! # Assembly

`Assembly.collect` gives the directives of the active outputs below a node, in document order. Which
nodes are active is decided by the bound values alone: an unanswered question hides what is below
it, an answered one shows the branch that the answer selects, a conditional shows what is below it
when its path is bound to the expected value. -/

namespace Scaffold.Assembly

/-- The pairs of the model entries among the members of an output, which may have no others. -/
def modelPairs : List Node → Except Fault (List Value)
  | [] => .ok []
  | c :: cs =>
    match Node.content c with
    | .model key value => (modelPairs cs).map (.tuple [key, value] :: ·)
    | other => .error (.unhandled (.conversion other.variant))

/-- The fields of the directive that a request asks for. -/
def fieldsOf (r : Request) (directory : String) (model : List Value) : Mapping Value :=
  [("kind", r.kind), ("source", r.source), ("target", r.target), ("directory", .str directory),
   ("engine", r.engine), ("includes", r.includes), ("excludes", r.excludes), ("model", .list model)]

/-- The directive of an output node. -/
def convert (n : Node) : Except Fault Directive :=
  match Node.content n with
  | .output r => do
    let model ← modelPairs n.children
    (Directive.ofFields (fieldsOf r (Node.directory n) model)).toExcept
  | other => .error (.unhandled (.conversion other.variant))

/-- The path is bound to the expected value. -/
def holds (context : Mapping Value) (path : String) (expected : Value) : Bool :=
  match context.get? path with
  | some v => v.equal expected
  | none => false

mutual
/-- The directives of the active outputs below a node. -/
def collect (context : Mapping Value) : Node → Except Fault (List Directive)
  | .node site cs =>
    match site.label.content with
    | .output _ => (convert (.node site cs)).map fun d => [d]
    | .question q =>
      if q.form.isConcrete then
        match Node.path (.node site cs) with
        | .error f => .error f
        | .ok path =>
          match context.get? path with
          | none => .ok []
          | some answer =>
            match Branch.ofAnswer (.node site cs) answer with
            | .error f => .error f
            | .ok .all => collectAll context cs
            | .ok .nothing => .ok []
            | .ok (.options selected) => collectOptions context selected cs
      else .error (.unhandled (.assembly q.form.variant))
    | .conditional path expected =>
      if holds context path expected then collectAll context cs else .ok []
    | .group | .step .. | .option .. => collectAll context cs
    | .preset | .binding .. | .model .. => .ok []
    | .other v => .error (.unhandled (.assembly v))
/-- The directives of the active outputs below several nodes. -/
def collectAll (context : Mapping Value) : List Node → Except Fault (List Directive)
  | [] => .ok []
  | c :: cs =>
    match collect context c with
    | .error f => .error f
    | .ok ds => (collectAll context cs).map (ds ++ ·)
/-- The directives of the active outputs below the selected options among several nodes. -/
def collectOptions (context : Mapping Value) (selected : Value → Bool) :
    List Node → Except Fault (List Directive)
  | [] => .ok []
  | .node site gs :: cs =>
    match site.label.content.option? with
    | none => collectOptions context selected cs
    | some v =>
      if selected v then
        match collectAll context gs with
        | .error f => .error f
        | .ok ds => (collectOptions context selected cs).map (ds ++ ·)
      else collectOptions context selected cs
end

end Scaffold.Assembly

namespace Scaffold

/-- The directives of the active outputs of a descriptor. -/
def Descriptor.assemble (d : Descriptor) (context : Mapping Value) :
    Except Fault (List Directive) :=
  Assembly.collect context d.root

end Scaffold
