import Freight.Basis

/-!
# Breadth-first search

The walk over the lines of a tableau along the marked cells, from one line outwards. It is recorded
as the list of its *steps*: from each line in turn, every marked cell on it but the one it was
reached by. A step is *fresh* if it reaches a line for the first time; a step that is not shows that
its cell closes a cycle. The fresh steps are the edges of a tree of shortest paths.
-/

namespace Freight

/-- A look along a marked cell from one of its lines. -/
structure Step where
  source : Line
  cell : Cell
  /-- The other line had not been reached before. -/
  fresh : Bool

def Step.target (s : Step) : Line := s.source.crossing s.cell

namespace Basis

/-- The marked cells of a line in ascending order. -/
def cellsOn (b : Basis) : Line → List Cell
  | .row i => ((List.range b.cols).map fun j => ⟨i, j⟩).filter b.contains
  | .column j => ((List.range b.rows).map fun i => ⟨i, j⟩).filter b.contains

/-- The steps from one line, given the cell it was reached by and the lines reached so far. -/
def stepsFrom (b : Basis) (line : Line) (via : Option Cell) (reached : List Line) : List Step :=
  ((b.cellsOn line).filter fun c => via ≠ some c).map fun c =>
    ⟨line, c, line.crossing c ∉ reached⟩

/-- The steps from the lines of a queue and from the lines that these reach, at most `n` lines in
all. -/
def searchUpTo (b : Basis) : Nat → List (Line × Option Cell) → List Line → List Step
  | 0, _, _ => []
  | _, [], _ => []
  | n + 1, (line, via) :: queue, reached =>
    let steps := b.stepsFrom line via reached
    let found := steps.filter Step.fresh
    steps ++ b.searchUpTo n (queue ++ found.map fun s => (s.target, some s.cell))
      (reached ++ found.map Step.target)

/-- The steps of the walk from a line. Every line enters the queue at most once. -/
def search (b : Basis) (start : Line) : List Step := b.searchUpTo b.lines [(start, none)] [start]

end Basis

end Freight
