import Scaffold.Node
import Scaffold.Value.Equality

/-! # Branches

An answer selects among the nodes below its question: all of them below a text, all or none below a
truth value, those below the chosen options below an enum or a list. -/

namespace Scaffold

/-- The part of the nodes below a question that an answer selects. -/
inductive Branch where
  | all
  | nothing
  | options (selected : Value → Bool)

namespace Branch

/-- The values that a list answer selects: nothing when the answer does not count as given. -/
def selection (answer : Value) : Except Fault (List Value) :=
  if answer.truthy then
    match answer.items? with
    | some items => if Value.allHashable items then .ok items else .error .unsuitable
    | none => .error .unsuitable
  else .ok []

/-- The branch that an answer selects below a node. -/
def ofAnswer (n : Node) (answer : Value) : Except Fault Branch :=
  match (Node.question? n).map Question.form with
  | some .boolean =>
    .ok (match answer with
      | .bool true => all
      | _ => nothing)
  | some .enum => .ok (options fun v => v.equal answer)
  | some .list => do
    let selected ← selection answer
    if (Node.choices n).all Value.seekable then .ok (options fun v => v.among selected)
    else .error .unsuitable
  | _ => .ok all

/-- The nodes of a branch, out of the children of its question. -/
def nodes : Branch → List Node → List Node
  | all, cs => cs
  | nothing, _ => []
  | options selected, cs => cs.flatMap fun c =>
      match (Node.content c).option? with
      | some v => if selected v then c.children else []
      | none => []

end Branch

/-- The nodes that an answer makes active below a node. -/
def Node.active (n : Node) (answer : Value) : Except Fault (List Node) :=
  (Branch.ofAnswer n answer).map fun b => b.nodes n.children

end Scaffold
