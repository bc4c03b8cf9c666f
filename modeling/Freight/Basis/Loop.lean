import Freight.Basis.Search

/-!
# Closed loops

A vacant cell whose row and column are connected by marked cells closes a loop with the path between
them. The loop is listed from the vacant cell on, then along the path from the cell's column back to
its row, so that vertical and horizontal moves alternate: cells at even positions gain when the
vacant cell is used, and those at odd positions lose.
-/

namespace Freight

/-- The cells on the way back from a line to the start of a walk, given the walk's fresh steps with
the last one first. A line is reached by one fresh step, and that comes after the one that reached
its source. -/
def Step.wayBack (target : Line) : List Step → List Cell
  | [] => []
  | s :: earlier =>
    if s.target = target then s.cell :: wayBack s.source earlier else wayBack target earlier

namespace Basis

/-- The loop that a vacant cell closes. It is refused for a marked cell and for a cell whose lines
are not connected. -/
def loop {α : Type} (b : Basis) (c : Cell) : Except (Cause α) (List Cell) := do
  if ← within (b.contains? c) then .error (.noLoop c)
  else if b.cols ≤ c.col then .error .outside
  else
    let fresh := (b.search (.row c.row)).filter Step.fresh
    if fresh.any fun s => s.target = .column c.col then
      .ok (c :: Step.wayBack (.column c.col) fresh.reverse)
    else .error (.noLoop c)

end Basis

/-- The cells of a loop that lose when its first cell gains: those at odd positions. -/
def losing {α : Type} : List α → List α
  | _ :: y :: rest => y :: losing rest
  | _ => []

end Freight
