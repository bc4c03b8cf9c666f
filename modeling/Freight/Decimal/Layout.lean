import Freight.Decimal.Shortest

/-!
# Decimals on paper

A decimal is written either positionally, with zeros filled in around its digits, or with an
exponent. Which of the two, and whether a whole number keeps a point, is a matter of the text it
stands in: `Layout` is that choice, with one value for prose and one for data.
-/

namespace Freight

/-- How decimals are written. The *point position* of a decimal is the number of its digits before
the point; zeros between the point and the first digit count down from zero. -/
structure Layout where
  /-- Point positions that are written positionally: all of them, or those of a closed range. -/
  positional : Option (Int × Int)
  /-- Whole numbers written positionally end in a point and a zero. -/
  wholePoint : Bool

/-- In prose every number is positional and a whole one has no point. -/
def Layout.prose : Layout := ⟨none, false⟩

/-- In data numbers from `0.00001` to below `10 ^ 16` are positional, and a whole one shows by its
point that it need not be an integer. -/
def Layout.data : Layout := ⟨some (-4, 16), true⟩

namespace Decimal

def zeros (n : Nat) : String := String.ofList (List.replicate n '0')

/-- The digits with the point at a given position among them. -/
def placed (digits : List Char) (point : Int) (wholePoint : Bool) : String :=
  let whole := digits.length
  if (whole : Int) ≤ point then
    String.ofList digits ++ zeros (point - whole).toNat ++ (if wholePoint then ".0" else "")
  else if 0 < point then
    String.ofList (digits.take point.toNat) ++ "." ++ String.ofList (digits.drop point.toNat)
  else "0." ++ zeros (-point).toNat ++ String.ofList digits

/-- The digits with the point after the first one, and the power of ten that makes up for it. -/
def scientific (digits : List Char) (point : Int) : String :=
  let power := point - 1
  let fraction := digits.drop 1
  let places := if fraction.isEmpty then "" else "." ++ String.ofList fraction
  let sign := if power < 0 then "-" else "+"
  String.ofList (digits.take 1) ++ places ++ "e" ++ sign ++ toString power.natAbs

def render (layout : Layout) (d : Decimal) : String :=
  let digits := (toString d.digits).toList
  let point := (digits.length : Int) + d.exponent
  if d.digits = 0 then placed ['0'] 1 layout.wholePoint
  else match layout.positional with
    | none => placed digits point layout.wholePoint
    | some (first, last) =>
      if first ≤ point ∧ point ≤ last then placed digits point layout.wholePoint
      else scientific digits point

def isNegative (x : Float) : Bool := x.toBits >>> 63 == 1

/-- A double in prose: the fewest digits that read back, or the name of a value without digits. -/
def prose (x : Float) : String :=
  if x.isNaN then "NaN"
  else
    let sign := if isNegative x then "-" else ""
    if x.isFinite then sign ++ (ofFloat x).render .prose else sign ++ "inf"

end Decimal

end Freight
