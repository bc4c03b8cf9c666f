import Freight.Scalar

/-!
# Exact scalars

Two exact arithmetics. The rationals (`Rat`) are the one in which plans are reasoned about: every
value is finite. `Extended` adds the two infinities and an undefined value, with the arithmetic that
floating point gives them, so that a statement about malformed data can speak of entries that are
not finite while finite entries stay exact.
-/

namespace Freight

/-- The rationals: every value is finite and compares with itself. -/
instance Scalar.rational : Scalar Rat where
  zero := 0
  one := 1
  half := mkRat 1 2
  isFinite _ := true
  orInfinite := id
  decLT := Rat.instDecidableLt
  decLE := Rat.instDecidableLe

/-- A rational, an infinity, or the undefined result of an operation without a value. -/
inductive Extended where
  | finite (q : Rat)
  /-- Infinity, below all rationals or above them. -/
  | infinite (negative : Bool)
  | undefined
deriving DecidableEq

namespace Extended

def neg : Extended → Extended
  | finite q => finite (-q)
  | infinite s => infinite (!s)
  | undefined => undefined

/-- The sum; opposite infinities have none. -/
def add : Extended → Extended → Extended
  | finite p, finite q => finite (p + q)
  | infinite s, infinite t => if s = t then infinite s else undefined
  | infinite s, finite _ => infinite s
  | finite _, infinite t => infinite t
  | undefined, _ => undefined
  | _, undefined => undefined

/-- The product; zero times an infinity has none. -/
def mul : Extended → Extended → Extended
  | finite p, finite q => finite (p * q)
  | infinite s, infinite t => infinite (s != t)
  | infinite s, finite q => if q = 0 then undefined else infinite (s != decide (q < 0))
  | finite p, infinite t => if p = 0 then undefined else infinite (decide (p < 0) != t)
  | undefined, _ => undefined
  | _, undefined => undefined

/-- The strict order; nothing is below or above the undefined value. -/
def below : Extended → Extended → Bool
  | finite p, finite q => decide (p < q)
  | finite _, infinite t => !t
  | infinite s, finite _ => s
  | infinite s, infinite t => s && !t
  | undefined, _ => false
  | _, undefined => false

/-- The order; the undefined value does not compare with itself. -/
def atMost : Extended → Extended → Bool
  | undefined, _ => false
  | _, undefined => false
  | x, y => !below y x

end Extended

/-- Exact arithmetic on finite values, with infinities and undefined results beside them. -/
instance Scalar.extended : Scalar Extended where
  zero := .finite 0
  one := .finite 1
  add := Extended.add
  sub x y := Extended.add x (Extended.neg y)
  mul := Extended.mul
  neg := Extended.neg
  lt x y := Extended.below x y = true
  le x y := Extended.atMost x y = true
  half := .finite (mkRat 1 2)
  isFinite
    | .finite _ => true
    | _ => false
  orInfinite
    | .undefined => .infinite false
    | x => x
  decLT _ _ := inferInstanceAs (Decidable (_ = true))
  decLE _ _ := inferInstanceAs (Decidable (_ = true))

end Freight
