/-!
# Scalars

Supplies, demands, quantities and costs are *scalars*. A planner runs on binary floating point and
is reasoned about over the rationals, so every definition of the library is stated over a class
with both as instances. The class fixes the operations and nothing about them: floating point obeys
few laws, and a theorem over the rationals cites the rationals' own.

Comparisons that involve a value that is not a number are false, so `a ≤ a` tells such values from
the others (`Scalar.isNumber`).
-/

namespace Freight

class Scalar (α : Type) extends Zero α, One α, Add α, Sub α, Mul α, Neg α, LT α, LE α where
  half : α
  /-- Neither infinite nor undefined. -/
  isFinite : α → Bool
  /-- The value itself, or positive infinity in place of one that is not a number. -/
  orInfinite : α → α
  decLT : DecidableLT α
  decLE : DecidableLE α

instance Scalar.decidableLT {α : Type} [Scalar α] : DecidableLT α := Scalar.decLT

instance Scalar.decidableLE {α : Type} [Scalar α] : DecidableLE α := Scalar.decLE

namespace Scalar

variable {α : Type} [Scalar α]

/-- Whether the value compares with itself. -/
def isNumber (x : α) : Bool := decide (x ≤ x)

/-- The smaller of two values. Of two equal values it is the first, and a value that is not a number
gives way to the other. -/
def least (x y : α) : α :=
  if y < x then y else if isNumber x then x else y

/-- The larger of two values. Of two equal values it is the first, and a value that is not a number
gives way to the other. -/
def greatest (x y : α) : α :=
  if x < y then y else if isNumber x then x else y

/-- The value where it is positive, and zero elsewhere. -/
def positivePart (x : α) : α := if 0 < x then x else 0

def distance (x : α) : α := if x < 0 then -x else x

/-- The sum from left to right. It starts from negative zero, which floating point adds to any value
without change, so the sum of no values is negative zero. -/
def sum (xs : List α) : α := xs.foldl (· + ·) (-0)

/-- The sum of the products of entries at equal positions, up to the end of the shorter list. -/
def dot (xs ys : List α) : α := sum (List.zipWith (· * ·) xs ys)

/-- The smallest of the values, where one that is not a number counts as infinite. -/
def minimum? : List α → Option α
  | [] => none
  | x :: xs => some ((xs.map orInfinite).foldl least (orInfinite x))

/-- The largest of the values; one that is not a number gives way to those that follow. -/
def maximum? : List α → Option α
  | [] => none
  | x :: xs => some (xs.foldl greatest x)

/-- Whether a value may stand as a supply, a demand or a cost: finite and not negative. -/
def isAmount (x : α) : Bool := isFinite x && !decide (x < 0)

/-- The first value that may not stand as an amount, with its position. -/
def firstNonAmount? (xs : List α) : Option (Nat × α) :=
  (xs.zipIdx.find? (fun p => !isAmount p.1)).map fun p => (p.2, p.1)

end Scalar

/-- Double precision floating point, on which the planner runs. -/
instance Scalar.float : Scalar Float where
  half := 0.5
  isFinite := Float.isFinite
  orInfinite x := if x.isNaN then 1.0 / 0.0 else x
  decLT := Float.decLt
  decLE := Float.decLe

end Freight
