import Scaffold.Node
import Scaffold.Value.Equality

/-! # Answers

`Answer.coerce` brings a value into the normal form of the answers to a question, or says why it is
none: a text question takes texts and numbers, a boolean question truth values and words for them,
an enum question one of its options, a list question options in a list, a tuple, or a text separated
by commas. -/

namespace Scaffold.Answer

/-- The words for true, in lower case. -/
def trueWords : List String := ["true", "yes", "y", "on"]

/-- The words for false, in lower case. -/
def falseWords : List String := ["false", "no", "n", "off"]

/-- A word without the blanks around it and in lower case. Lowering the letters of ASCII is enough
to tell the words of a list that has no others: no letter beyond them lowers to one of `trueWords`
or `falseWords`. -/
def plainWord (s : String) : String := (Text.trim Text.isBlank s).toLower

/-- A text; numbers are written out. -/
def coerceText : Value → Except Reason Value
  | .str s => .ok (.str s)
  | .int i =>
    match Text.decimal? i with
    | some s => .ok (.str s)
    | none => .error .oversized
  | .float x => .ok (.str x.text)
  | v => .error (.notText v.typeName)

/-- A truth value or a word for one. -/
def coerceBoolean : Value → Except Reason Value
  | .bool b => .ok (.bool b)
  | .str s =>
    if plainWord s ∈ trueWords then .ok (.bool true)
    else if plainWord s ∈ falseWords then .ok (.bool false)
    else .error (.ofBoolean (.str s))
  | v => .error (.ofBoolean v)

/-- The value is a text and one of the choices. -/
def isChoice (choices : List Value) : Value → Bool
  | .str s => (Value.str s).among choices
  | _ => false

/-- One of the choices. -/
def coerceChoice (choices : List Value) (v : Value) : Except Reason Value :=
  if isChoice choices v then .ok v else .error (.ofChoice v choices)

/-- The choices of a list in order of their first occurrence, after those already kept. -/
def coerceItems (choices kept : List Value) : List Value → Except Reason (List Value)
  | [] => .ok kept
  | v :: vs =>
    if isChoice choices v then
      coerceItems choices (if v.among kept then kept else kept ++ [v]) vs
    else .error (.ofChoice v choices)

/-- The items of a text separated by commas, without blanks around them and without empty ones. -/
def commaItems (s : String) : List Value :=
  (((Text.pieces ',' s).map (Text.trim Text.isBlank)).filter (!·.isEmpty)).map .str

/-- A tuple of choices without repetition. -/
def coerceList (choices : List Value) : Value → Except Reason Value
  | .str s => (coerceItems choices [] (commaItems s)).map .tuple
  | .list vs | .tuple vs => (coerceItems choices [] vs).map .tuple
  | v => .error (.notAList v.typeName)

/-- The normal form of an answer to a question of a form. -/
def coerceForm (form : Form) (choices : List Value) (v : Value) : Except Reason Value :=
  match form.kind with
  | .text => coerceText v
  | .boolean => coerceBoolean v
  | .enum => coerceChoice choices v
  | .list => coerceList choices v

/-- The normal form of an answer to the question at a node. A mismatch names the path, or the
question when no path is given. -/
def coerce (n : Node) (v : Value) (path : String) : Except Fault Value :=
  match Node.question? n with
  | some q =>
    if q.form.isConcrete then
      (coerceForm q.form (Node.choices n) v).mapError fun reason =>
        .data (.mismatch ⟨if path.isEmpty then q.name else path, q.form.kind, reason⟩)
    else .error (.unhandled (.answer (Node.variant n)))
  | none => .error (.unhandled (.answer (Node.variant n)))

end Scaffold.Answer
