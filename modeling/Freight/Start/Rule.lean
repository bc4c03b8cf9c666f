import Freight.Start.Penalty

/-!
# Greedy starts

Three rules for a first plan. Each chooses the next route among the cells whose lines are both open
and ships as much as possible on it:

* *north-west corner*: the first open row and the first open column, whatever the costs;
* *least cost*: the cheapest open cell, of equally cheap ones the first in row-major order;
* *Vogel*: on the line with the largest penalty, its cheapest open cell.

`StartRule.plan?` fails only if the costs are smaller than the supplies and demands call for.

The least-cost start searches all open cells anew for each shipment. A cell whose line is exhausted
stays closed for good, so one pass over the cells in ascending order of cost finds the same shipments
(`Table.singlePass?`).
-/

namespace Freight

inductive StartRule where
  /-- The cheapest cell of the line with the largest penalty. -/
  | vogel
  /-- The first open row and column. -/
  | northWestCorner
  /-- The cheapest cell of all. -/
  | leastCost
deriving DecidableEq

namespace StartRule

def label : StartRule → String
  | vogel => "vogel"
  | northWestCorner => "north_west_corner"
  | leastCost => "least_cost"

def title : StartRule → String
  | vogel => "Vogel's Approximation Method"
  | northWestCorner => "North-West Corner Method"
  | leastCost => "Least-Cost Method"

/-- The rule of a name in data. Two of them have a second name. -/
def ofLabel? (s : String) : Option StartRule :=
  if s = "vogel" ∨ s = "vam" then some vogel
  else if s = "north_west_corner" ∨ s = "north_west" then some northWestCorner
  else if s = "least_cost" then some leastCost
  else none

variable {α : Type} [Scalar α]

/-- The cell that the rule serves next; none if no cell has two open lines. -/
def choose? (rule : StartRule) (costs : Table α) (tol : α) (r : Remaining α) :
    Option (Option Cell) :=
  match rule with
  | northWestCorner => some (r.openCells tol).head?
  | leastCost => costs.cheapest? (r.openCells tol)
  | vogel => do
    match ← r.dearestLine? costs tol with
    | none => pure none
    | some line => costs.cheapest? (r.openCellsOn tol line)

/-- The shipments of the rule, one after another. -/
def shipments? (rule : StartRule) (supply demand : List α) (costs : Table α) (tol : α) :
    Option (List (Shipment α)) :=
  Remaining.shipments? ⟨supply, demand⟩ tol (rule.choose? costs tol)

/-- The first plan of the rule, in a table of the shape of the costs. -/
def plan? (rule : StartRule) (supply demand : List α) (costs : Table α) (tol : α) :
    Option (Table α) := do
  let shipments ← rule.shipments? supply demand costs tol
  (Table.fill costs.rows costs.cols 0).receive? shipments

end StartRule

/-! ## Least cost in a single pass -/

variable {α : Type} [Scalar α]

/-- The cells in ascending order of cost; equally dear ones stay in row-major order. -/
def Table.byCost (costs : Table α) : List Cell :=
  costs.cells.mergeSort fun a b => decide ((costs.get? a).getD 0 ≤ (costs.get? b).getD 0)

namespace Remaining

/-- Whether both lines of a cell are open. -/
def isOpen (r : Remaining α) (tol : α) (c : Cell) : Bool :=
  decide (tol < r.supply.getD c.row 0) && decide (tol < r.demand.getD c.col 0)

/-- The shipments of one pass over the given cells: on each of them the smaller of what its lines have
left, if both are still open. -/
def pass (tol : α) : List Cell → Remaining α → List (Shipment α)
  | [], _ => []
  | c :: cs, r =>
    if r.isOpen tol c then r.load c :: pass tol cs (r.deduct (r.load c)) else pass tol cs r

end Remaining

/-- The quantities that one pass over the cells in ascending order of cost ships. -/
def Table.singlePass? (costs : Table α) (supply demand : List α) (tol : α) : Option (Table α) :=
  (Table.fill costs.rows costs.cols 0).receive? (Remaining.pass tol costs.byCost ⟨supply, demand⟩)

end Freight
