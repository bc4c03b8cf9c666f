/-!
# The shortest decimal

A finite double is `m * 2 ^ q`. The reals that round to it form an interval around it, half way to
its neighbours on both sides; the ends belong to it when `m` is even, because ties go to the even
neighbour. The shortest decimal of the double is the point of that interval that lies on the
coarsest grid of powers of ten; of two points of one grid it is the nearer one, and of two equally
near ones the larger.

Everything is computed on natural numbers. `Binary.shortest` scans the grids from coarse to fine;
a grid of seventeen significant digits always has a point in the interval.
-/

namespace Freight

/-- A positive number `mantissa * 2 ^ exponent`. `narrow` says that the neighbour below lies only
half as far away as the one above. -/
structure Binary where
  mantissa : Nat
  exponent : Int
  /-- The mantissa is the least of its binade, and not of the lowest one. -/
  narrow : Bool

/-- A number `digits * 10 ^ exponent`. -/
structure Decimal where
  digits : Nat
  exponent : Int
deriving DecidableEq

namespace Binary

/-- The magnitude of a double, if it is finite and not zero. -/
def ofFloat? (x : Float) : Option Binary :=
  let bits := x.toBits.toNat
  let field : Nat := bits / 0x10000000000000 % 0x800
  let fraction : Nat := bits % 0x10000000000000
  if field = 2047 then none
  else if field = 0 then
    if fraction = 0 then none else some ⟨fraction, -1074, false⟩
  else some ⟨0x10000000000000 + fraction, (field : Int) - 1075, fraction == 0 && field != 1⟩

/-- The rounding interval on the grid of step `10 ^ g`, with quarters of the last binary place as
the unit: below, the number itself, above, and the grid's step. -/
def scaled (b : Binary) (g : Int) : Nat × Nat × Nat × Nat :=
  let up := Nat.pow 2 (b.exponent - 2).toNat * Nat.pow 10 (-g).toNat
  let step := Nat.pow 2 (2 - b.exponent).toNat * Nat.pow 10 g.toNat
  let low := 4 * b.mantissa - (if b.narrow then 1 else 2)
  (low * up, 4 * b.mantissa * up, (4 * b.mantissa + 2) * up, step)

/-- The point of a grid that stands for the number: of the grid's points in the rounding interval
the nearest, and of two equally near ones the larger. -/
def onGrid? (b : Binary) (g : Int) : Option Decimal :=
  let (low, value, high, step) := b.scaled g
  let closed := b.mantissa % 2 = 0
  let under := value / step
  let above := under + 1
  let underFits := 0 < under ∧ (low < under * step ∨ (closed ∧ low = under * step))
  let aboveFits := above * step < high ∨ (closed ∧ above * step = high)
  if underFits ∧ ¬ (aboveFits ∧ above * step - value ≤ value - under * step) then some ⟨under, g⟩
  else if aboveFits then some ⟨above, g⟩
  else none

/-- A power of ten above the number: `log10 2` lies between `0.30102` and `0.30103`. -/
def coarsest (b : Binary) : Int :=
  let top := b.exponent + (b.mantissa.log2 : Int) + 1
  (if 0 ≤ top then top * 30103 / 100000 else top * 30102 / 100000) + 1

/-- The first grid with a point in the interval, scanning `n` grids down from `g`. -/
def scan (b : Binary) : Nat → Int → Decimal
  | 0, g => ⟨(b.scaled g).2.1 / (b.scaled g).2.2.2, g⟩
  | n + 1, g => (b.onGrid? g).getD (b.scan n (g - 1))

/-- The shortest decimal that rounds to the number. -/
def shortest (b : Binary) : Decimal := b.scan 24 b.coarsest

end Binary

/-- The shortest decimal of a double's magnitude; that of zero is zero. It is meant for finite
doubles. -/
def Decimal.ofFloat (x : Float) : Decimal := ((Binary.ofFloat? x).map Binary.shortest).getD ⟨0, 0⟩

end Freight
