import Freight.Basis.Loop

/-!
# Bases as graphs

The lines of a tableau are the nodes of a graph and the marked cells of a basis its edges. This is
what forests, spanning trees and closed loops are in it, said without union-find and without search.
-/

namespace Freight

namespace Line

/-- The line passes through a cell. -/
def Through : Line → Cell → Prop
  | row i, c => c.row = i
  | column j, c => c.col = j

/-- The line belongs to a tableau of the given size. -/
def Within (rows cols : Nat) : Line → Prop
  | row i => i < rows
  | column j => j < cols

/-- A line is connected with another if it gets there by changing lines in some of the cells. -/
inductive Connected (cells : List Cell) (start : Line) : Line → Prop where
  | refl : Connected cells start start
  /-- Change from a line to the one that crosses it in a cell. -/
  | change {l : Line} {c : Cell} : Connected cells start l → c ∈ cells → l.Through c →
      Connected cells start (l.crossing c)

end Line

/-- The lines of no cell are connected by the other cells. -/
def Acyclic (cells : List Cell) : Prop :=
  ∀ c ∈ cells, ¬ Line.Connected (cells.filter (· ≠ c)) (.row c.row) (.column c.col)

/-- The cells form a closed loop: they are distinct, at least four and even in number, and each
shares its column with the next one if it stands at an even position and its row if at an odd one;
after the last comes the first. -/
structure IsLoop (loop : List Cell) : Prop where
  nodup : loop.Nodup
  /-- There are corners on two rows and two columns at least. -/
  four_le : 4 ≤ loop.length
  even : loop.length % 2 = 0
  /-- Moves from even positions stay in the column. -/
  column : ∀ k c d, k % 2 = 0 → loop[k]? = some c → loop[k + 1]? = some d → c.col = d.col
  /-- Moves from odd positions stay in the row. -/
  row : ∀ k c d, k % 2 = 1 → loop[k]? = some c → loop[(k + 1) % loop.length]? = some d →
    c.row = d.row

namespace Basis

/-- The marked cells form a spanning tree: they close no cycle and connect all lines. -/
structure IsTree (b : Basis) : Prop where
  acyclic : Acyclic b.cells
  connected : ∀ k l : Line, k.Within b.rows b.cols → l.Within b.rows b.cols →
    Line.Connected b.cells k l

/-- A marked cell closes a cycle with the marked cells before it in row-major order. -/
structure ClosesCycle (b : Basis) (c : Cell) : Prop where
  marked : c ∈ b.cells
  connected : Line.Connected (b.cells.filter (·.before c)) (.row c.row) (.column c.col)

/-- A closed loop of marked cells in the component of a line. -/
structure ReachesLoop (b : Basis) (start : Line) (loop : List Cell) : Prop where
  isLoop : IsLoop loop
  marked : ∀ d ∈ loop, d ∈ b.cells
  connected : ∀ d ∈ loop, Line.Connected b.cells start (.row d.row)

end Basis

/-- The values at even positions less those at odd positions. -/
def alternating {α : Type} [Scalar α] : List α → α
  | [] => 0
  | [x] => x
  | x :: y :: rest => x - y + alternating rest

end Freight
