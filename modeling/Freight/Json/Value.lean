/-!
# JSON values

A value as the text of a document states it: a number keeps the digits and the exponent it is
written with, an object its members in the order of the text, repeated names included. Escapes can
name half of a surrogate pair alone, which no text contains; such a string has no value (`none`)
though the document is well formed.
-/

namespace Freight

/-- A number as written: `± digits * 10 ^ exponent`, and whether it is written as an integer, with
neither fraction nor exponent. -/
structure Numeral where
  negative : Bool
  /-- All digits, the point left out. -/
  digits : Nat
  exponent : Int
  integral : Bool
deriving DecidableEq

inductive Json where
  | null
  | bool (value : Bool)
  | number (value : Numeral)
  /-- A string, without a value if its escapes name a lone surrogate. -/
  | string (value : Option String)
  | array (elements : List Json)
  /-- Named values in the order of the text. -/
  | object (members : List (Option String × Json))

namespace Numeral

/-- The nearest double, ties to the even neighbour; none if the number lies beyond all doubles.
Numbers whose magnitude is out of any doubt are decided by their size alone. -/
def toFloat? (n : Numeral) : Option Float :=
  let signed (x : Float) : Float := if n.negative then -x else x
  if n.digits = 0 then some (signed 0)
  else
    let size := ((toString n.digits).length : Int) + n.exponent
    if 400 < size then none
    else if size < -400 then some (signed 0)
    else
      let x := Float.ofScientific n.digits (n.exponent < 0) n.exponent.natAbs
      if x.isFinite then some (signed x) else none

/-- The number, if it is written as an integer without a sign and fits in 64 bits. -/
def toNat? (n : Numeral) : Option Nat :=
  if n.integral && !n.negative && n.digits < 0x10000000000000000 then some n.digits else none

end Numeral

namespace Json

mutual

/-- How many arrays and objects stand inside one another at most. -/
def depth : Json → Nat
  | array elements => depthOfElements elements + 1
  | object members => depthOfMembers members + 1
  | _ => 0

def depthOfElements : List Json → Nat
  | [] => 0
  | v :: vs => max (depth v) (depthOfElements vs)

def depthOfMembers : List (Option String × Json) → Nat
  | [] => 0
  | (_, v) :: vs => max (depth v) (depthOfMembers vs)

end

mutual

/-- Every number has a double and every string a value. -/
def isReadable : Json → Bool
  | number n => n.toFloat?.isSome
  | string s => s.isSome
  | array elements => elementsAreReadable elements
  | object members => membersAreReadable members
  | _ => true

def elementsAreReadable : List Json → Bool
  | [] => true
  | v :: vs => isReadable v && elementsAreReadable vs

def membersAreReadable : List (Option String × Json) → Bool
  | [] => true
  | (k, v) :: vs => k.isSome && isReadable v && membersAreReadable vs

end

def text (s : String) : Json := string (some s)

def nat (n : Nat) : Json := number ⟨false, n, 0, true⟩

def record (members : List (String × Json)) : Json :=
  object (members.map fun m => (some m.1, m.2))

/-- A list of values, each written by the same rule. -/
def list {α : Type} (write : α → Json) (xs : List α) : Json := array (xs.map write)

/-- A value that may be missing; it is null then. -/
def option {α : Type} (write : α → Json) (x : Option α) : Json := (x.map write).getD null

end Json

end Freight
