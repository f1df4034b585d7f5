import Scaffold.Fault

/-! # Events

What the library reports while it works. A `Notice` is what a flow tells its caller; an `Event` is
any line of the log. -/

namespace Scaffold

/-- What a flow tells its caller. -/
inductive Notice where
  | waiting (since : Phase) (path : String)
  | failed (since : Phase) (diagnostic : String)
  | finished (outputs : Nat)
  | moved (since now : Phase)
  | stuck (path : String)

/-- The line of a notice. -/
def Notice.text : Notice → String
  | waiting since path => s!"[flow] {since.name} -> waiting on '{path}'"
  | failed since diagnostic => s!"[flow] {since.name} -> error: {diagnostic}"
  | finished outputs => s!"[flow] done with {outputs} outputs"
  | moved since now => s!"[flow] {since.name} -> {now.name}"
  | stuck path => s!"[flow] '{path}' needs an answer"

/-- A line of the log. -/
inductive Event where
  | merged (added : Nat) (scope : String)
  | defaulted (path shown : String)
  | assembled (outputs : Nat)
  | notice (n : Notice)

/-- The text of a line of the log. -/
def Event.text : Event → String
  | merged added scope => s!"[merge] +{added} bindings at scope '{scope}'"
  | defaulted path shown => s!"[input] {path} = {shown} (default)"
  | assembled outputs => s!"[assemble] {outputs} outputs"
  | notice n => n.text

end Scaffold
