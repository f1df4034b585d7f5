import Scaffold.Text.Printable

/-! # Quoted texts

A quoted text stands between single quotes, or between double quotes when it holds a single quote
and no double one. The backslash, the surrounding quote, line feed, carriage return and tab are
written after a backslash; any other character that is not printable is written by its number, in
two, four or eight hexadecimal digits. -/

namespace Scaffold.Text

/-- The hexadecimal digits of a number, with leading zeros up to a width. -/
def hex (width n : Nat) : String :=
  let digits := Nat.toDigits 16 n
  String.ofList (List.replicate (width - digits.length) '0' ++ digits)

/-- The number of a character as it stands in a quoted text. -/
def escapeByNumber (c : Char) : String :=
  if c.toNat < 0x100 then "\\x" ++ hex 2 c.toNat
  else if c.toNat < 0x10000 then "\\u" ++ hex 4 c.toNat
  else "\\U" ++ hex 8 c.toNat

/-- One character of a quoted text. -/
def quoteChar (mark : Char) (c : Char) : String :=
  if c = mark || c = '\\' then String.ofList ['\\', c]
  else if c = '\n' then "\\n"
  else if c = '\r' then "\\r"
  else if c = '\t' then "\\t"
  else if isPrintable c then String.singleton c
  else escapeByNumber c

/-- The quote that goes around a text. -/
def quoteMark (s : String) : Char :=
  if s.toList.contains '\'' && !s.toList.contains '"' then '"' else '\''

/-- The quoted form of a text. -/
def quoted (s : String) : String :=
  let mark := quoteMark s
  String.singleton mark ++ String.join (s.toList.map (quoteChar mark)) ++ String.singleton mark

end Scaffold.Text
