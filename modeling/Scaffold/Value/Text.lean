import Scaffold.Value
import Scaffold.Text.Integer
import Scaffold.Text.Quoted

/-! # Values as text

`repr?` writes a value so that its type shows: texts are quoted, a tuple of one item keeps a comma,
the empty set is spelled out. `display?` writes a text as it is and any other value like `repr?`. A
value has no text if it holds an integer that is too long to be written. -/

namespace Scaffold.Value

/-- Texts with a comma between them. -/
def commaSeparated (texts : List String) : String := ", ".intercalate texts

/-- The text of a tuple whose items have these texts. -/
def tupleText : List String → String
  | [t] => "(" ++ t ++ ",)"
  | ts => "(" ++ commaSeparated ts ++ ")"

/-- Texts between braces. -/
def braced (texts : List String) : String := "\x7b" ++ commaSeparated texts ++ "\x7d"

mutual
/-- The text of a value, with its type showing. -/
def repr? : Value → Option String
  | .none => some "None"
  | .bool true => some "True"
  | .bool false => some "False"
  | .int i => Text.decimal? i
  | .float x => some x.text
  | .str s => some (Text.quoted s)
  | .list items => (reprs? items).map fun ts => "[" ++ commaSeparated ts ++ "]"
  | .tuple items => (reprs? items).map tupleText
  | .set [] => some "set()"
  | .set items => (reprs? items).map braced
  | .dict entries => (reprEntries? entries).map braced
termination_by structural v => v
/-- The texts of several values. -/
def reprs? : List Value → Option (List String)
  | [] => some []
  | v :: vs => do return (← repr? v) :: (← reprs? vs)
termination_by structural vs => vs
/-- The texts of the entries of a dictionary. -/
def reprEntries? : List (Value × Value) → Option (List String)
  | [] => some []
  | e :: es => do return (← reprEntry? e) :: (← reprEntries? es)
termination_by structural es => es
/-- The text of an entry of a dictionary. -/
def reprEntry? : Value × Value → Option String
  | (k, v) => do return (← repr? k) ++ ": " ++ (← repr? v)
termination_by structural e => e
end

/-- The text that stands for a value in running text. -/
def display? : Value → Option String
  | .str s => some s
  | v => v.repr?

end Scaffold.Value
