import Scaffold.Decimal.Shortest

/-! # Laying out a decimal

A decimal is written positionally, `123.45`, or with an exponent, `1.2345e+20`. A `Layout` holds the
choices: for which exponents of the leading digit the notation is positional, what stands for a
whole number's missing fraction, and how the exponent is written. -/

namespace Scaffold.Decimal

/-- The choices in writing a decimal. -/
structure Layout where
  /-- The least exponent of the leading digit that is written positionally. -/
  positionalFrom : Int
  /-- The least exponent above them that is not. -/
  positionalEnd : Int
  /-- What follows the digits of a whole number in positional notation. -/
  wholeSuffix : String
  /-- The mark between the digits and the exponent. -/
  mark : String
  /-- The least number of digits of an exponent. -/
  exponentWidth : Nat

/-- The digits of a number without the zeros at its end. -/
def significantDigits (n : Nat) : List Char :=
  ((Nat.toDigits 10 n).reverse.dropWhile (· == '0')).reverse

/-- Zeros. -/
def zeros (n : Int) : List Char := List.replicate n.toNat '0'

namespace Layout

/-- Digits in positional notation, the leading one standing for `10^lead`. -/
def positional (l : Layout) (digits : List Char) (lead : Int) : String :=
  if lead < 0 then "0." ++ String.ofList (zeros (-lead - 1) ++ digits)
  else
    let whole := digits.take (lead.toNat + 1)
    let fraction := digits.drop (lead.toNat + 1)
    let padded := String.ofList (whole ++ zeros (lead + 1 - whole.length))
    if fraction.isEmpty then padded ++ l.wholeSuffix
    else padded ++ "." ++ String.ofList fraction

/-- Digits in exponent notation. -/
def scientific (l : Layout) (digits : List Char) (lead : Int) : String :=
  let fraction := digits.drop 1
  let mantissa := String.ofList (digits.take 1) ++
    (if fraction.isEmpty then "" else "." ++ String.ofList fraction)
  let size := Nat.toDigits 10 lead.natAbs
  mantissa ++ l.mark ++ (if lead < 0 then "-" else "+") ++
    String.ofList (zeros (l.exponentWidth - size.length) ++ size)

/-- The text of a positive decimal. -/
def render (l : Layout) (x : Decimal) : String :=
  let lead : Int := x.exponent + digitCount x.digits - 1
  let digits := significantDigits x.digits
  if l.positionalFrom ≤ lead && lead < l.positionalEnd then l.positional digits lead
  else l.scientific digits lead

end Layout

end Scaffold.Decimal
