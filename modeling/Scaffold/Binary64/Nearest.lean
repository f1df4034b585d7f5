import Scaffold.Binary64

/-! # The nearest binary fraction

`Binary64.ofDecimal` gives the binary fraction nearest to a decimal, of two equally near ones the
one with the even significand. A decimal halfway beyond the largest finite pattern, or further out,
is infinite.

* `roundHalfEven`: a quotient as a whole number, no more than a half away
  (`two_mul_roundHalfEven`). -/

namespace Scaffold.Binary64

/-- The whole number nearest to a quotient, the even one when two are equally near. -/
def roundHalfEven (num den : Nat) : Nat :=
  if 2 * (num % den) < den then num / den
  else if den < 2 * (num % den) then num / den + 1
  else num / den + num / den % 2

theorem two_mul_roundHalfEven (num : Nat) {den : Nat} (hd : 0 < den) :
    2 * (den * roundHalfEven num den) ≤ 2 * num + den ∧
      2 * num ≤ 2 * (den * roundHalfEven num den) + den := by
  have h := Nat.div_add_mod num den
  have hlt := Nat.mod_lt num hd
  unfold roundHalfEven
  split
  · omega
  · split
    · rw [Nat.mul_add, Nat.mul_one]
      omega
    · rcases Nat.mod_two_eq_zero_or_one (num / den) with h2 | h2
      · rw [h2, Nat.add_zero]
        omega
      · rw [h2, Nat.mul_add, Nat.mul_one]
        omega

/-- A quotient counted in units of `2^unit`, as a quotient. -/
def inUnits (num den : Nat) (unit : Int) : Nat × Nat :=
  (num * Nat.pow 2 (-unit).toNat, den * Nat.pow 2 unit.toNat)

/-- The exponent of the unit in which a quotient has fifty-three binary digits, or the least one. -/
def unitFor (num den : Nat) : Int :=
  let least : Int := -1074
  let guess := max ((num.log2 : Int) - den.log2 - 53) least
  let (n, d) := inUnits num den guess
  if n / d < Nat.pow 2 53 then guess else guess + 1

/-- The bits of the pattern nearest to a quotient; a significand that rounding makes one digit
longer carries into the exponent bits. -/
def nearestBits (num den : Nat) : Nat :=
  if num = 0 then 0
  else
    let unit := unitFor num den
    let (n, d) := inUnits num den unit
    min (2047 * Nat.pow 2 52) ((unit + 1074).toNat * Nat.pow 2 52 + roundHalfEven n d)

/-- The exponent of ten from which on a decimal is beyond all finite patterns, or below all but
zero. -/
def decimalRange : Int := 400

/-- The bits of the pattern nearest to a decimal. -/
def decimalBits (x : Decimal) : Nat :=
  let lead := x.exponent + Decimal.digitCount x.digits
  if x.digits = 0 || lead < -decimalRange then 0
  else if decimalRange < lead then 2047 * Nat.pow 2 52
  else nearestBits (x.digits * Nat.pow 10 x.exponent.toNat) (Nat.pow 10 (-x.exponent).toNat)

/-- The binary fraction nearest to a decimal with a sign. -/
def ofDecimal (negative : Bool) (x : Decimal) : Binary64 :=
  ⟨UInt64.ofNat ((if negative then Nat.pow 2 63 else 0) + decimalBits x)⟩

example : ofDecimal false ⟨1, -1⟩ = ⟨0x3FB999999999999A⟩ := by decide +kernel
example : ofDecimal true ⟨0, 5⟩ = ⟨0x8000000000000000⟩ := by decide +kernel
example : ofDecimal false ⟨5, -324⟩ = ⟨1⟩ := by decide +kernel
example : ofDecimal false ⟨9007199254740993, 0⟩ = ⟨0x4340000000000000⟩ := by decide +kernel
example : ofDecimal false ⟨1, 309⟩ = ⟨0x7FF0000000000000⟩ := by decide +kernel

end Scaffold.Binary64
