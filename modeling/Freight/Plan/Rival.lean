import Freight.Plan.Check

/-!
# Rival plans

What a plan is compared with: any other way to ship. `Table.Serves` are the quantities that meet
supplies and demands exactly, `Table.Moves` those that stay within them and move a given total, and
`Table.Exhausts` those that stay within them and leave nothing of one side.
-/

namespace Freight

variable {α : Type} [Scalar α]

namespace Table

/-- The entry of a cell; outside the table it is zero. -/
def entry (t : Table α) (c : Cell) : α := (t.get? c).getD 0

/-- A table of quantities for a tableau of the given size: none of them is negative. -/
structure IsShipping (t : Table α) (rows cols : Nat) : Prop where
  wellFormed : t.WellFormed
  rows_eq : t.rows = rows
  cols_eq : t.cols = cols
  nonneg : ∀ c ∈ t.cells, 0 ≤ t.entry c

/-- The quantities ship every supply and meet every demand exactly. -/
structure Serves (t : Table α) (supply demand : List α) : Prop
    extends IsShipping t supply.length demand.length where
  supply_eq : ∀ i s, supply[i]? = some s → t.rowSum? i = some s
  demand_eq : ∀ j d, demand[j]? = some d → t.columnSum? j = some d

/-- The quantities stay within supplies and demands and come to a given total. -/
structure Moves (t : Table α) (supply demand : List α) (total : α) : Prop
    extends IsShipping t supply.length demand.length where
  le_supply : ∀ i s q, supply[i]? = some s → t.rowSum? i = some q → q ≤ s
  le_demand : ∀ j d q, demand[j]? = some d → t.columnSum? j = some q → q ≤ d
  total_eq : Scalar.sum t.data.toList = total

/-- The quantities stay within supplies and demands and come to all of what one side has. -/
structure Exhausts (t : Table α) (side : Side) (supply demand : List α) : Prop
    extends IsShipping t supply.length demand.length where
  le_supply : ∀ i s q, supply[i]? = some s → t.rowSum? i = some q → q ≤ s
  le_demand : ∀ j d q, demand[j]? = some d → t.columnSum? j = some q → q ≤ d
  supply_eq : side = .supply → ∀ i s, supply[i]? = some s → t.rowSum? i = some s
  demand_eq : side = .demand → ∀ j d, demand[j]? = some d → t.columnSum? j = some d

def dropRow (t : Table α) : Table α :=
  ⟨t.rows - 1, t.cols, t.data.extract 0 ((t.rows - 1) * t.cols)⟩

def dropColumn (t : Table α) : Table α :=
  ⟨t.rows, t.cols - 1, (t.toRows.flatMap List.dropLast).toArray⟩

end Table

/-- The side with less to ship or to receive. -/
def Problem.scarcer (p : Problem α) : Side :=
  if p.totalSupply < p.totalDemand then .supply else .demand

/-- The line that was added, with its recorded quantity. -/
def Tableau.added? (t : Tableau α) : Option (Line × α) :=
  match t.balance with
  | .balanced => none
  | .dummySource quantity => some (.row (t.rows - 1), quantity)
  | .dummyDestination quantity => some (.column (t.cols - 1), quantity)

/-- The quantities between given lines: those of a tableau without its added line. -/
def Tableau.withoutDummy (t : Tableau α) (quantities : Table α) : Table α :=
  match t.balance with
  | .balanced => quantities
  | .dummySource _ => quantities.dropRow
  | .dummyDestination _ => quantities.dropColumn

end Freight
