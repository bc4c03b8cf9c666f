import Freight.Line

/-!
# What is left to ship

A greedy start ships route after route. `Remaining` holds what each source still has and each
destination still needs; a line is open while that is more than the tolerance. Under a tolerance
that is not negative, each shipment on a cell of two open lines exhausts one of them, so there are
fewer shipments than open lines (`Remaining.shipments?` counts down the open lines it began with).

A start takes each shipment off the two lines of its cell before it chooses the next one, so where it
stands is what the shipments made so far have left (`Remaining.after`). The north-west corner need not
even look for its cell anew: lines do not open again, so a walk from the first cell finds the same
shipments, down past a row that is closed and right past a column that is closed
(`Remaining.cornerWalk?`).
-/

namespace Freight

structure Remaining (α : Type) where
  supply : List α
  demand : List α

structure Shipment (α : Type) where
  cell : Cell
  quantity : α

def openPositions {α : Type} [Scalar α] (tol : α) (xs : List α) : List Nat :=
  (xs.zipIdx.filter fun e => decide (tol < e.1)).map Prod.snd

namespace Remaining

variable {α : Type} [Scalar α]

/-- The rows with more than the tolerance left, from the top. -/
def openRows (r : Remaining α) (tol : α) : List Nat := openPositions tol r.supply

/-- The columns with more than the tolerance left, from the left. -/
def openColumns (r : Remaining α) (tol : α) : List Nat := openPositions tol r.demand

/-- The open lines, rows before columns. -/
def openLines (r : Remaining α) (tol : α) : List Line :=
  (r.openRows tol).map .row ++ (r.openColumns tol).map .column

/-- The cells of a line whose crossing line is open. -/
def openCellsOn (r : Remaining α) (tol : α) : Line → List Cell
  | .row i => (r.openColumns tol).map fun j => ⟨i, j⟩
  | .column j => (r.openRows tol).map fun i => ⟨i, j⟩

/-- The cells whose lines are both open, in row-major order. -/
def openCells (r : Remaining α) (tol : α) : List Cell :=
  (r.openRows tol).flatMap fun i => r.openCellsOn tol (.row i)

/-- The most that a route can take: the smaller of what its lines have left. -/
def capacity (r : Remaining α) (c : Cell) : α :=
  Scalar.positivePart (Scalar.least (r.supply.getD c.row 0) (r.demand.getD c.col 0))

/-- What is left after shipping as much as possible on a route. -/
def ship (r : Remaining α) (c : Cell) : Remaining α :=
  { supply := r.supply.modify c.row (· - r.capacity c)
    demand := r.demand.modify c.col (· - r.capacity c) }

/-- The shipments on the cells that a rule chooses one after another, at most `n` of them. The rule
gives no cell when it is done, and fails when it looks outside a table; a cell whose lines do not
exist is a failure too. -/
def shipUpTo? (choose : Remaining α → Option (Option Cell)) :
    Nat → Remaining α → Option (List (Shipment α))
  | 0, _ => some []
  | n + 1, r => do
    match ← choose r with
    | none => pure []
    | some c =>
      if c.row < r.supply.length ∧ c.col < r.demand.length then
        let rest ← shipUpTo? choose n (r.ship c)
        pure (⟨c, r.capacity c⟩ :: rest)
      else none

/-- The shipments on the cells that a rule chooses one after another. -/
def shipments? (r : Remaining α) (tol : α) (choose : Remaining α → Option (Option Cell)) :
    Option (List (Shipment α)) :=
  shipUpTo? choose (r.openLines tol).length r

/-- The smaller of what the two lines of a cell have left, as a shipment on it. -/
def load (r : Remaining α) (c : Cell) : Shipment α :=
  ⟨c, Scalar.least (r.supply.getD c.row 0) (r.demand.getD c.col 0)⟩

/-- What is left when a shipment is taken off its lines. -/
def deduct (r : Remaining α) (s : Shipment α) : Remaining α :=
  { supply := r.supply.modify s.cell.row (· - s.quantity)
    demand := r.demand.modify s.cell.col (· - s.quantity) }

/-- What some shipments leave. -/
def after (r : Remaining α) (shipments : List (Shipment α)) : Remaining α :=
  shipments.foldl deduct r

/-- The shipments of a walk from a cell; none if it has not left the tableau after so many moves. -/
def cornerWalk? (tol : α) : Nat → Cell → Remaining α → Option (List (Shipment α))
  | 0, _, _ => none
  | moves + 1, c, r =>
    if c.row < r.supply.length ∧ c.col < r.demand.length then
      if ¬ tol < r.supply.getD c.row 0 then cornerWalk? tol moves ⟨c.row + 1, c.col⟩ r
      else if ¬ tol < r.demand.getD c.col 0 then cornerWalk? tol moves ⟨c.row, c.col + 1⟩ r
      else (cornerWalk? tol moves c (r.ship c)).map (⟨c, r.capacity c⟩ :: ·)
    else some []

end Remaining

/-- A table with shipments added to it. -/
def Table.receive? {α : Type} [Scalar α] (t : Table α) (shipments : List (Shipment α)) :
    Option (Table α) :=
  shipments.foldlM (fun t s => t.modify? s.cell (· + s.quantity)) t

end Freight
