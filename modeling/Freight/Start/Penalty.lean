import Freight.Start.Remaining

/-!
# Penalties

The penalty of a line is what it costs to miss its cheapest open cell: the second smallest open cost
minus the smallest, or the only cost if one cell is open. The line to serve is found in one scan
over the open rows and then the open columns, where a later line replaces the candidate only if its
penalty is larger by more than the tolerance.
-/

namespace Freight

variable {α : Type} [Scalar α]

/-- The smallest value so far and, if there are two, the second smallest; with one value more. -/
def lowestTwoStep (best : Option (α × Option α)) (x : α) : Option (α × Option α) :=
  match best with
  | none => some (x, none)
  | some (low, none) => if x < low then some (x, some low) else some (low, some x)
  | some (low, some second) =>
    if x < low then some (x, some low)
    else if x < second then some (low, some x)
    else some (low, some second)

/-- The smallest and the second smallest value, counted with multiplicity. A value that is not a
number counts as infinite. -/
def lowestTwo (xs : List α) : Option (α × Option α) :=
  (xs.map Scalar.orInfinite).foldl lowestTwoStep none

/-- The penalty of a line with the given open costs; a line without any has none. -/
def penalty? (costs : List α) : Option α :=
  match lowestTwo costs with
  | none => none
  | some (low, none) => some low
  | some (low, some second) => some (second - low)

/-- One step of the scan for the line with the largest penalty. -/
def dearer (tol : α) (best : Option (Line × α)) (candidate : Line × α) : Option (Line × α) :=
  match best with
  | none => some candidate
  | some (line, p) => if candidate.2 ≤ p + tol then some (line, p) else some candidate

namespace Remaining

def openCosts? (r : Remaining α) (costs : Table α) (tol : α) (line : Line) : Option (List α) :=
  (r.openCellsOn tol line).mapM costs.get?

/-- The open lines with their penalties. -/
def penalties? (r : Remaining α) (costs : Table α) (tol : α) : Option (List (Line × α)) := do
  let priced ← (r.openLines tol).mapM fun line => do
    let cs ← r.openCosts? costs tol line
    pure ((penalty? cs).map (line, ·))
  pure (priced.filterMap id)

def dearestLine? (r : Remaining α) (costs : Table α) (tol : α) : Option (Option Line) := do
  let lines ← r.penalties? costs tol
  pure ((lines.foldl (dearer tol) none).map Prod.fst)

end Remaining

end Freight
