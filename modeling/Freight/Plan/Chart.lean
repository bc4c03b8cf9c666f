import Freight.Plan
import Freight.Decimal.Layout

/-!
# Plans as charts

The text form of a plan: a line for each source with a field for each destination, framed by names,
supplies and demands, and the total cost below. A field shows the shipped quantity and the unit
cost. Fields are padded on the right to the width of their column and stand two blanks apart.
-/

namespace Freight.Plan

def padded (width : Nat) (s : String) : String :=
  s ++ String.ofList (List.replicate (width - s.length) ' ')

/-- The field of a route: its quantity if there is one, and its unit cost. -/
def chartField (quantity cost : Float) : String :=
  (if 0 < quantity then "[" ++ Decimal.prose quantity ++ "]" else "-") ++ "/" ++ Decimal.prose cost

/-- The fields of a source: its name, its routes, its supply. -/
def chartRow? (p : Plan Float) (i : Nat) : Option (List String) := do
  let name ← p.sourceNames[i]?
  let fields ← (List.range p.allocation.cols).mapM fun j => do
    pure (chartField (← p.allocation.get? ⟨i, j⟩) (← p.costs.get? ⟨i, j⟩))
  let supply ← p.supply[i]?
  pure (name :: fields ++ [Decimal.prose supply])

def chartRows? (p : Plan Float) : Option (List (List String)) := do
  let rows ← (List.range p.allocation.rows).mapM p.chartRow?
  pure (("" :: p.destinationNames ++ ["Supply"]) :: rows ++
    ["Demand" :: p.demand.map Decimal.prose ++ [""]])

/-- The width of a column: that of its widest field. Every line must have a field in it. -/
def columnWidth? (rows : List (List String)) (k : Nat) : Option Nat := do
  let lengths ← rows.mapM fun r => (r[k]?).map String.length
  pure (lengths.foldl max 0)

/-- The chart of a plan; none if the plan's parts do not fit together. -/
def chart? (p : Plan Float) : Option String := do
  let rows ← p.chartRows?
  let widths ← (List.range (p.allocation.cols + 2)).mapM (columnWidth? rows)
  let lines := rows.map fun r => "  ".intercalate (List.zipWith padded widths r) ++ "\n"
  pure (String.join lines ++ "Total cost: " ++ Decimal.prose p.totalCost)

end Freight.Plan
