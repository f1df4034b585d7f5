/-! # The shortest decimal that reads back

A positive binary fraction `m · 2^q` stands for every real that rounds to it: the interval between
the midpoints to its two neighbours, ends included when `m` is even. `shortest` gives a decimal
`digits · 10^exponent` of that interval on the coarsest power-of-ten grid that has one, and of the
grid's two candidates the one nearer to `m · 2^q`, the even one when both are equally near.

All quantities are counted in units of `2^(q-2)`, so that the midpoints are whole numbers. -/

namespace Scaffold

/-- A decimal number `digits · 10^exponent`. -/
structure Decimal where
  digits : Nat
  exponent : Int
deriving DecidableEq

namespace Decimal

/-- A binary fraction and the reals that round to it, all in units of `2^unit`: the value itself,
the two ends of the interval, and whether the ends belong to it. -/
structure Target where
  value : Nat
  low : Nat
  high : Nat
  closed : Bool
  unit : Int
deriving DecidableEq

/-- The interval of `m · 2^q`. The lower neighbour is half as far away when `m` is the least
significand of its binade. -/
def Target.ofBinary (m : Nat) (q : Int) (leastOfBinade : Bool) : Target where
  value := 4 * m
  low := if leastOfBinade then 4 * m - 1 else 4 * m - 2
  high := 4 * m + 2
  closed := m % 2 == 0
  unit := q - 2

/-- The factors that bring units of `2^unit` and of `10^grid` to one common unit: `a · 2^unit`
compares with `n · 10^grid` as `a · binary` does with `n · decimal`. -/
def factors (unit grid : Int) : Nat × Nat :=
  (Nat.pow 2 unit.toNat * Nat.pow 10 (-grid).toNat,
    Nat.pow 10 grid.toNat * Nat.pow 2 (-unit).toNat)

/-- The number `n · 10^grid` rounds to the target. -/
def Target.accepts (t : Target) (grid : Int) (n : Nat) : Bool :=
  let (b, d) := factors t.unit grid
  if t.closed then t.low * b ≤ n * d && n * d ≤ t.high * b
  else t.low * b < n * d && n * d < t.high * b

/-- The decimal of the grid `10^grid` that stands for the target, if there is one. -/
def Target.onGrid (t : Target) (grid : Int) : Option Decimal :=
  let (b, d) := factors t.unit grid
  let below := t.value * b / d
  let above := below + 1
  match t.accepts grid below, t.accepts grid above with
  | false, false => none
  | true, false => some ⟨below, grid⟩
  | false, true => some ⟨above, grid⟩
  | true, true =>
    let down := t.value * b - below * d
    let up := above * d - t.value * b
    if down < up || (down == up && below % 2 == 0) then some ⟨below, grid⟩ else some ⟨above, grid⟩

/-- The number of decimal digits of a natural number, one for zero. -/
def digitCount (n : Nat) : Nat := (Nat.toDigits 10 n).length

/-- The exponent of the leading digit of the target's value. -/
def Target.magnitude (t : Target) : Int :=
  let (b, d) := factors t.unit 0
  let num := t.value * b
  let guess : Int := digitCount num - digitCount d
  if num * Nat.pow 10 (-guess).toNat ≥ d * Nat.pow 10 guess.toNat then guess else guess - 1

/-- The finest grid tried: seventeen digits always tell two binary fractions apart. -/
def mostDigits : Nat := 17

/-- The shortest decimal that rounds to the target. -/
def Target.shortest (t : Target) : Decimal :=
  ((List.range mostDigits).findSome? fun (n : Nat) => t.onGrid (t.magnitude - n)).getD
    ⟨t.value, t.unit⟩

end Decimal

end Scaffold
