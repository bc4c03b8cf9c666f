import Freight.Problem

/-!
# Balanced tableaux

Planning needs equal totals. When they differ by more than the tolerance, one line without costs is
added on the short side and takes up the difference: a dummy destination for surplus supply, a dummy
source for unmet demand.
-/

namespace Freight

/-- How the totals were made equal. -/
inductive Balance (α : Type) where
  | balanced
  /-- A last source supplies what was missing. -/
  | dummySource (quantity : α)
  /-- A last destination takes what was left over. -/
  | dummyDestination (quantity : α)

/-- A problem that is ready for planning: a cost for each pair of lines. -/
structure Tableau (α : Type) where
  supply : List α
  demand : List α
  costs : Table α
  sourceNames : List String
  destinationNames : List String
  balance : Balance α

def dummySourceName : String := "Dummy Source"

def dummyDestinationName : String := "Dummy Destination"

namespace Tableau

variable {α : Type}

def rows (t : Tableau α) : Nat := t.supply.length

def cols (t : Tableau α) : Nat := t.demand.length

/-- The route starts or ends at the added line. -/
def isDummy (t : Tableau α) (c : Cell) : Bool :=
  match t.balance with
  | .balanced => false
  | .dummySource _ => c.row + 1 == t.rows
  | .dummyDestination _ => c.col + 1 == t.cols

/-- The tableau of a problem, with a line added if the totals differ by more than the tolerance. -/
def ofProblem [Scalar α] (p : Problem α) (tol : α) : Except (Cause α) (Tableau α) := do
  let costs ← p.costTable
  let surplus := p.totalSupply - p.totalDemand
  let sources := p.sourceLabels
  let destinations := p.destinationLabels
  if Scalar.distance surplus ≤ tol then
    pure ⟨p.supply, p.demand, costs, sources, destinations, .balanced⟩
  else if 0 < surplus then
    pure ⟨p.supply, p.demand ++ [surplus], costs.appendColumn 0, sources,
      destinations ++ [dummyDestinationName], .dummyDestination surplus⟩
  else
    pure ⟨p.supply ++ [-surplus], p.demand, costs.appendRow 0, sources ++ [dummySourceName],
      destinations, .dummySource (-surplus)⟩

end Tableau

end Freight
