import Scaffold.Text.Blank

/-! # Spelled integers

The plain spelling of an integer is an optional minus sign and digits, the first of which is zero
only when it is alone (`plain?`). `spelling` reads more: white space around it, a plus sign, a
fraction of zeros, zeros and underscores in front of the digits, and single underscores between
other characters are taken away (`plainForm`), and what is left has to be plain. An integer of more
than `mostCharacters` characters is refused.

An integer is written in its plain spelling (`decimal?`). One of more than `mostDigits` digits
cannot be written. -/

namespace Scaffold.Text

/-- What a text spells. -/
inductive Spelling where
  | integer (i : Int)
  | oversized
  | malformed
deriving DecidableEq

/-- A digit other than zero. -/
def isLeadingDigit (c : Char) : Bool := c.isDigit && c != '0'

/-- The number that digits stand for. -/
def digitsValue (ds : List Char) : Nat :=
  ds.foldl (fun n c => 10 * n + (c.toNat - '0'.toNat)) 0

/-- The natural number that digits spell; zero leads only when it is alone. -/
def digits? (ds : List Char) : Option Nat :=
  match ds with
  | [] => none
  | d :: rest =>
    if ds.all Char.isDigit && (isLeadingDigit d || rest.isEmpty) then some (digitsValue ds)
    else none

/-- The integer of a plain spelling. -/
def plain? : List Char → Option Int
  | '-' :: ds => (digits? ds).map fun n => -(n : Int)
  | ds => (digits? ds).map Int.ofNat

/-- The number of digits at the front, none if a zero leads them. -/
def leadingDigits : List Char → Nat
  | [] => 0
  | c :: cs => if isLeadingDigit c then (c :: cs).takeWhile Char.isDigit |>.length else 0

/-- The length of the plain spelling at the front. -/
def plainLength : List Char → Nat
  | '-' :: cs => leadingDigits cs + 1
  | cs => leadingDigits cs

/-- The part of a spelled integer before a fraction of one or more zeros. -/
def dropZeroFraction (cs : List Char) : List Char :=
  let zeros := cs.reverse.takeWhile (· == '0')
  match cs.reverse.drop zeros.length with
  | '.' :: rest => if zeros.isEmpty then cs else rest.reverse
  | _ => cs

/-- What is left of a spelling whose last character passed over was `last`: zeros and underscores
are passed over up to a digit other than zero or a minus sign, the last of them is left when nothing
follows, and any other character spoils the spelling. -/
def afterZeros (last : Char) : List Char → Option (List Char)
  | [] => some [last]
  | c :: cs =>
    if c = '0' || c = '_' then afterZeros c cs
    else if isLeadingDigit c || c = '-' then some (c :: cs)
    else none

/-- A spelling without the zeros in front of it; it has to start with a digit. -/
def dropLeadingZeros : List Char → Option (List Char)
  | [] => none
  | c :: cs =>
    if c = '0' then afterZeros '0' cs
    else if isLeadingDigit c then some (c :: cs)
    else none

/-- A spelling without the zeros in front of its digits; a minus sign before them stays. -/
def dropZerosAfterMinus : List Char → Option (List Char)
  | '-' :: cs => (dropLeadingZeros cs).map ('-' :: ·)
  | cs => dropLeadingZeros cs

/-- Two underscores follow each other. -/
def hasDoubleUnderscore : List Char → Bool
  | '_' :: '_' :: _ => true
  | _ :: cs => hasDoubleUnderscore cs
  | [] => false

/-- A spelling without its underscores; one at either end, or two in a row, are all left. -/
def dropUnderscores (cs : List Char) : List Char :=
  if cs.head? = some '_' || cs.getLast? = some '_' || hasDoubleUnderscore cs then cs
  else cs.filter (· != '_')

/-- A spelling without a plus sign in front of it. -/
def dropPlus : List Char → List Char
  | '+' :: '-' :: cs => '+' :: '-' :: cs
  | '+' :: cs => cs
  | cs => cs

/-- A spelling without what a plain one does not have. -/
def plainForm (cs : List Char) : Option (List Char) :=
  (dropZerosAfterMinus (dropZeroFraction (dropPlus (trimChars isWhite cs)))).map dropUnderscores

/-- The length of the longest plain spelling that is read. -/
def mostCharacters : Nat := 4300

/-- What a text spells. -/
def spelling (s : String) : Spelling :=
  match plainForm s.toList with
  | none => .malformed
  | some cs =>
    if mostCharacters < plainLength cs then .oversized
    else match plain? cs with
      | some i => .integer i
      | none => .malformed

/-- The most digits that an integer is written with. -/
def mostDigits : Nat := 4300

/-- The plain spelling of an integer; one of too many digits has none. -/
def decimal? (i : Int) : Option String :=
  if (Nat.toDigits 10 i.natAbs).length ≤ mostDigits then some (toString i) else none

example : spelling " +1_000.00 " = .integer 1000 := by decide
example : spelling "5__0" = .malformed := by decide
example : spelling "5." = .malformed := by decide
example : spelling "-0" = .integer 0 := by decide
example : spelling "00__5" = .integer 5 := by decide
example : spelling "0_-5" = .integer (-5) := by decide
example : spelling "-0_5" = .integer (-5) := by decide
example : spelling "-_5" = .malformed := by decide
example : spelling "0-05" = .malformed := by decide

end Scaffold.Text
