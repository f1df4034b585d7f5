import Scaffold.Answer
import Scaffold.Batch

/-! # Environments

An environment binds context paths to values. `Env.merge` merges a batch into it at a scope: answers
to known questions are coerced, two different values for one path are refused, what is new is added
in the order of the batch, and the result may not have more entries than a limit. -/

namespace Scaffold

/-- A bound value: the path it is kept under, the value, and the directory it was declared in. -/
structure Binding where
  name : String
  value : Value
  directory : String

/-- Bound values under their paths, in the order in which they were bound. -/
abbrev Env := Mapping Binding

/-- The values of an environment. -/
def Env.values (env : Env) : Mapping Value := env.map fun p => (p.1, p.2.value)

namespace Env

/-- A value as it is bound at a path: coerced if a question has the path. -/
def settle (lookup : String → Option Node) (path : String) (v : Value) : Except Fault Value :=
  match lookup path with
  | some n => Answer.coerce n v path
  | none => .ok v

/-- Binds a value at a path: a new path is put at the end, an equal value is there already. -/
def bind (env : Env) (path : String) (v : Value) (directory : String) : Except Fault Env :=
  match env.get? path with
  | none => .ok (env ++ [(path, ⟨path, v, directory⟩)])
  | some bound =>
    if bound.value.equal v then .ok env
    else .error (.differing (.rebinding path) bound.value v)

/-- Refuses a value that differs from the one supplied for its path before in the same batch. -/
def agree (supplied : Mapping Value) (path : String) (v : Value) : Except Fault Unit :=
  match supplied.get? path with
  | some earlier =>
    if earlier.equal v then .ok () else .error (.differing (.conflict path) earlier v)
  | none => .ok ()

/-- Merges the members of a batch; `supplied` holds what the batch has bound so far. -/
def mergeMembers (scope : String) (lookup : String → Option Node) (env : Env)
    (supplied : Mapping Value) : List Label → Except Fault Env
  | [] => .ok env
  | l :: ls =>
    match l.content with
    | .binding name value =>
      if name.isEmpty then .error (.data (.unnamed scope))
      else do
        let path := Path.join scope name
        let v ← settle lookup path value
        agree supplied path v
        let env ← env.bind path v l.directory
        mergeMembers scope lookup env (supplied.put path v) ls
    | other => .error (.unhandled (.batch other.variant))

/-- An environment of some size is larger than a limit. A negative limit may be too long to be
written; a size is none of more digits than that. -/
def overflow (size : Nat) (limit : Int) : Fault :=
  if 0 ≤ limit ∨ (Text.decimal? limit).isSome then .data (.overflow size limit) else .oversized

/-- Merges a batch at a scope. -/
def merge (env : Env) (batch : Batch) (scope : String) (lookup : String → Option Node)
    (limit : Int) : Except Fault Env := do
  let merged ← mergeMembers scope lookup env [] batch.members
  if limit < merged.length then .error (overflow merged.length limit) else .ok merged

end Env

end Scaffold
