import Scaffold.Descriptor
import Scaffold.Env
import Scaffold.Event
import Scaffold.Settings

/-! # Setups

A setup is what stays fixed while a descriptor is filled in. It knows how values get bound:

* `Setup.supply`: a batch is merged at the scope of a node.
* `Setup.answer`, `Setup.acceptDefault`: a value, or the declared default, is bound for a question.
* `Setup.resolve`: what becomes of a question that is met. -/

namespace Scaffold

/-- A descriptor, the settings it is filled in with, and its questions under their paths. -/
structure Setup where
  descriptor : Descriptor
  settings : Settings
  inputs : Mapping Node

/-- What becomes of a question that is met. -/
inductive Resolution where
  | skipped
  | pending
  | answered (env : Env) (events : List Event) (value : Value)

namespace Setup

/-- The setup of a descriptor whose questions have different paths. -/
def new (descriptor : Descriptor) (settings : Settings) : Except Flaw Setup :=
  descriptor.inputs.map fun inputs => ⟨descriptor, settings, inputs⟩

/-- Merges a batch at the scope of a node. -/
def supply (s : Setup) (env : Env) (batch : Batch) (anchor : Node) :
    Except Fault (Env × Event) := do
  let scope ← (Node.scope anchor).mapError Fault.flaw
  let merged ← env.merge batch scope s.inputs.get? s.settings.maxContextSize
  return (merged, .merged (merged.length - env.length) scope)

/-- Binds a value under the name of a node. -/
def answer (s : Setup) (env : Env) (n : Node) (v : Value) : Except Fault (Env × Event) :=
  match (Node.content n).name? with
  | some name => s.supply env (.ofPairs [(name, v)] (Node.directory n)) n
  | none => .error (.absent "name")

/-- Binds the declared default of a question, which is reported once it is bound. -/
def acceptDefault (s : Setup) (env : Env) (n : Node) : Except Fault (Env × List Event) :=
  match Node.question? n with
  | some q => do
    let (env, merged) ← s.answer env n q.fallback
    let path ← Node.path n
    match q.fallback.repr? with
    | some shown => return (env, [merged, .defaulted path shown])
    | none => .error .oversized
  | none => .error (.absent "default")

/-- What becomes of a question. One that is bound is answered; one that is not is skipped if it is
optional and declares no default, and takes its default if it is optional or if defaults are
accepted. Otherwise it is pending. -/
def resolve (s : Setup) (env : Env) (n : Node) (q : Question) : Except Fault Resolution := do
  let path ← Node.path n
  match env.get? path with
  | some bound => return .answered env [] bound.value
  | none =>
    if q.isOptional && !q.hasFallback then return .skipped
    else if q.isOptional || (s.settings.acceptDefaults && q.hasFallback) then do
      let (env, events) ← s.acceptDefault env n
      match env.get? path with
      | some bound => return .answered env events bound.value
      | none => return .skipped
    else return .pending

end Setup

end Scaffold
