import Scaffold.Branch
import Scaffold.Setup

/-! # Scans

A scan goes through the active nodes in document order until it meets a question that needs an
answer. On its way it merges the presets that it passes and binds the defaults that need no
confirmation, so it leaves an environment behind even when it fails.

* `Setup.scan`: the scan of a node, with the chain of nodes down to the question found.
* `Scan.next`: how the scans of neighbours follow each other. -/

namespace Scaffold

/-- What a scan leaves behind: the environment, what it reported, the outputs it passed, and the
chain of nodes down to the question found, if it found one. -/
structure Scan where
  env : Env
  events : List Event
  passed : List Node
  outcome : Except Fault (Option (List Node))

namespace Scan

/-- The scan of a single node without anything below it. -/
def halt (env : Env) (outcome : Except Fault (Option (List Node))) : Scan := ⟨env, [], [], outcome⟩

/-- Goes on in the environment that a scan left, unless it found a question or failed. -/
def next (s : Scan) (rest : Env → Scan) : Scan :=
  match s.outcome with
  | .ok none =>
    let t := rest s.env
    ⟨t.env, s.events ++ t.events, s.passed ++ t.passed, t.outcome⟩
  | _ => s

/-- The scan of a node, given the one below it: the node heads the chain. -/
def under (n : Node) (s : Scan) : Scan :=
  { s with outcome := s.outcome.map (Option.map (n :: ·)) }

/-- A scan after something else was reported. -/
def after (events : List Event) (s : Scan) : Scan := { s with events := events ++ s.events }

end Scan

namespace Setup

/-- The path is bound to the expected value. -/
def satisfies (env : Env) (path : String) (expected : Value) : Bool :=
  match env.get? path with
  | some bound => bound.value.equal expected
  | none => false

mutual
/-- The scan of a node and what is active below it. -/
def scan (s : Setup) (env : Env) : Node → Scan
  | .node site cs =>
    match site.label.content with
    | .preset =>
      match s.supply env (.ofNode (.node site cs)) (.node site cs) with
      | .ok (env, merged) => ⟨env, [merged], [], .ok none⟩
      | .error f => .halt env (.error f)
    | .question q =>
      if q.form.isConcrete then
        match s.resolve env (.node site cs) q with
        | .error f => .halt env (.error f)
        | .ok .skipped => .halt env (.ok none)
        | .ok .pending => .halt env (.ok (some [.node site cs]))
        | .ok (.answered env events value) =>
          .after events <| match Branch.ofAnswer (.node site cs) value with
            | .error f => .halt env (.error f)
            | .ok .all => .under (.node site cs) (scanAll s env cs)
            | .ok .nothing => .halt env (.ok none)
            | .ok (.options selected) =>
              .under (.node site cs) (scanOptions s selected env cs)
      else .halt env (.error (.unhandled (.scan q.form.variant)))
    | .conditional path expected =>
      if satisfies env path expected then .under (.node site cs) (scanAll s env cs)
      else .halt env (.ok none)
    | .group | .step .. => .under (.node site cs) (scanAll s env cs)
    | .output _ => ⟨env, [], [.node site cs], .ok none⟩
    | .option .. | .binding .. | .model .. =>
      .halt env (.error (.unhandled (.misplaced site.label.content.variant)))
    | .other v => .halt env (.error (.unhandled (.scan v)))
/-- The scan of several nodes, one after the other. -/
def scanAll (s : Setup) (env : Env) : List Node → Scan
  | [] => .halt env (.ok none)
  | c :: cs => (scan s env c).next fun env => scanAll s env cs
/-- The scan of what is below the selected options among several nodes. -/
def scanOptions (s : Setup) (selected : Value → Bool) (env : Env) : List Node → Scan
  | [] => .halt env (.ok none)
  | .node site gs :: cs =>
    match site.label.content.option? with
    | none => scanOptions s selected env cs
    | some v =>
      if selected v then (scanAll s env gs).next fun env => scanOptions s selected env cs
      else scanOptions s selected env cs
end

end Setup

end Scaffold
