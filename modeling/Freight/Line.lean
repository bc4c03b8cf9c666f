import Freight.Table

/-!
# Lines

A line of a tableau is one of its rows or one of its columns. Greedy starts choose among lines, and
the basic cells of a tableau are the edges of a graph whose nodes are its lines.
-/

namespace Freight

inductive Line where
  | row (i : Nat)
  | column (j : Nat)
deriving DecidableEq

namespace Line

/-- The line that crosses this one in a cell. -/
def crossing : Line → Cell → Line
  | row _, c => column c.col
  | column _, c => row c.row

/-- The position among the rows followed by the columns of a tableau with `m` rows. -/
def index (m : Nat) : Line → Nat
  | row i => i
  | column j => m + j

end Line

end Freight
