import Scaffold.Assembly
import Scaffold.Outcome
import Scaffold.Scan
import Scaffold.Stack

/-! # Sessions

A session fills in a descriptor: it has a setup, the stack of the nodes that it has entered, and the
environment of what is bound. An operation that fails leaves what it did before failing, so each
gives the session it leaves along with its result. -/

namespace Scaffold

/-- A descriptor being filled in. -/
structure Session where
  setup : Setup
  stack : Stack Node
  env : Env

namespace Session

/-- A session that has entered nothing and bound nothing. -/
def new (setup : Setup) : Session := ⟨setup, ⟨[]⟩, []⟩

/-- Enters a node. -/
def enter (s : Session) (n : Node) : Session := { s with stack := s.stack.push n }

/-- Goes back to the outermost node entered. -/
def rewind (s : Session) : Session := { s with stack := s.stack.rewind }

/-- Leaves the current node. -/
def leave (s : Session) : Outcome Session Node :=
  match s.stack.pop with
  | .ok (n, stack) => ⟨{ s with stack := stack }, [], .ok n⟩
  | .error f => ⟨s, [], .error (.protocol f)⟩

/-- The current node. -/
def current (s : Session) : Except Fault Node := s.stack.peek.mapError Fault.protocol

/-- The outcome of binding values: a failure binds none. -/
def afterBinding (s : Session) : Except Fault (Env × List Event) → Outcome Session Unit
  | .ok (env, events) => ⟨{ s with env := env }, events, .ok ()⟩
  | .error f => ⟨s, [], .error f⟩

/-- Merges a batch at the scope of a node. -/
def supply (s : Session) (batch : Batch) (anchor : Node) : Outcome Session Unit :=
  s.afterBinding ((s.setup.supply s.env batch anchor).map fun r => (r.1, [r.2]))

/-- Merges what is offered at the scope of a node; a missing batch is a fault of its own. -/
def supplyOffer (s : Session) (offer : Offer) (anchor : Node) : Outcome Session Unit :=
  match offer.toBatch with
  | .error f => s.afterBinding (.error f)
  | .ok (some batch) => s.supply batch anchor
  | .ok none =>
    match Node.scope anchor with
    | .error f => s.afterBinding (.error (.flaw f))
    | .ok _ => s.afterBinding (.error (.absent "children"))

/-- Binds a value under the name of a node. -/
def answer (s : Session) (n : Node) (v : Value) : Outcome Session Unit :=
  s.afterBinding ((s.setup.answer s.env n v).map fun r => (r.1, [r.2]))

/-- Binds the declared default of a question. -/
def acceptDefault (s : Session) (n : Node) : Outcome Session Unit :=
  s.afterBinding (s.setup.acceptDefault s.env n)

/-- The path of a node is bound. -/
def isAnswered (s : Session) (n : Node) : Except Fault Bool :=
  (Node.path n).map fun path => (s.env.get? path).isSome

/-- Moves to the next question that needs an answer, scanning from the outermost node entered; gives
no node when there is none. -/
def seek (s : Session) : Outcome Session (Option Node) :=
  let s := s.rewind
  match s.current with
  | .error f => ⟨s, [], .error f⟩
  | .ok start =>
    let scan := s.setup.scan s.env start
    let s := { s with env := scan.env }
    match scan.outcome with
    | .error f => ⟨s, scan.events, .error f⟩
    | .ok none => ⟨s, scan.events, .ok none⟩
    | .ok (some chain) =>
      ⟨{ s with stack := s.stack.pushAll chain.tail }, scan.events, .ok chain.getLast?⟩

/-- The directives of the active outputs under the bound values. -/
def assemble (s : Session) : Except Fault (List Directive) :=
  s.setup.descriptor.assemble s.env.values

end Session

end Scaffold
