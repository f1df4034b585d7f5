import Scaffold.Decimal.Layout

/-! # Binary fractions of 64 bits

A `Binary64` is the bit pattern of a double-precision number. Its finite values are exact rationals,
`toRat`; nothing in the library computes with rounded arithmetic. `text` writes the shortest decimal
that reads back, positionally from `10^-4` up to but not including `10^16`. -/

namespace Scaffold

/-- A bit pattern: a sign bit, eleven exponent bits and fifty-two fraction bits. -/
structure Binary64 where
  bits : UInt64
deriving DecidableEq, Inhabited

namespace Binary64

/-- The sign bit. -/
def isNegative (x : Binary64) : Bool := x.bits.toNat / Nat.pow 2 63 == 1

/-- The exponent bits as a number. -/
def biased (x : Binary64) : Nat := x.bits.toNat / Nat.pow 2 52 % Nat.pow 2 11

/-- The fraction bits as a number. -/
def fraction (x : Binary64) : Nat := x.bits.toNat % Nat.pow 2 52

/-- The pattern stands for a number. -/
def isFinite (x : Binary64) : Bool := x.biased != 2047

/-- The pattern stands for no number and for no infinity. -/
def isNaN (x : Binary64) : Bool := x.biased == 2047 && x.fraction != 0

/-- The whole number that the exponent scales: a hidden bit leads the fraction, except in the
patterns with exponent bits zero. -/
def significand (x : Binary64) : Nat :=
  if x.biased = 0 then x.fraction else Nat.pow 2 52 + x.fraction

/-- The power of two that scales the significand. -/
def exponent (x : Binary64) : Int := (max x.biased 1 : Nat) - 1075

/-- The value without its sign. -/
def magnitude (x : Binary64) : Rat :=
  (x.significand : Rat) * Nat.pow 2 x.exponent.toNat / Nat.pow 2 (-x.exponent).toNat

/-- The exact value of a finite pattern. -/
def toRat (x : Binary64) : Rat := if x.isNegative then -x.magnitude else x.magnitude

/-- The interval of reals that round to the magnitude. -/
def target (x : Binary64) : Decimal.Target :=
  .ofBinary x.significand x.exponent (x.fraction == 0 && x.biased > 1)

/-- Positional from `10^-4` up to `10^16`, a whole number with `.0`, an exponent with its sign and
at least two digits. -/
def layout : Decimal.Layout where
  positionalFrom := -4
  positionalEnd := 16
  wholeSuffix := ".0"
  mark := "e"
  exponentWidth := 2

/-- The text without a sign. -/
def unsignedText (x : Binary64) : String :=
  if x.significand = 0 then "0.0" else layout.render x.target.shortest

/-- The text of a binary fraction. -/
def text (x : Binary64) : String :=
  if x.isNaN then "nan"
  else (if x.isNegative then "-" else "") ++ if x.isFinite then x.unsignedText else "inf"

end Binary64

end Scaffold
