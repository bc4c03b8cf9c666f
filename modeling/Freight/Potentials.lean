import Freight.Basis.Search

/-!
# Potentials

Potentials give each line a value such that on every marked cell row value and column value add up
to the unit cost. Row zero has the value zero; a search along the marked cells from there settles
the others. What a vacant cell's cost has beyond the values of its lines is its opportunity cost:
the change in total cost for each unit sent through it.
-/

namespace Freight

/-- A value for each line of a tableau. -/
structure Potentials (α : Type) where
  rows : Array α
  columns : Array α

namespace Potentials

variable {α : Type} [Scalar α]

def start (rows cols : Nat) : Potentials α := ⟨Array.replicate rows 0, Array.replicate cols 0⟩

/-- The value of a line, if the tableau has it. -/
def value? (p : Potentials α) : Line → Option α
  | .row i => p.rows[i]?
  | .column j => p.columns[j]?

/-- The potentials with the value of one line replaced, if the tableau has it. -/
def assign? (p : Potentials α) (x : α) : Line → Option (Potentials α)
  | .row i => if i < p.rows.size then some { p with rows := p.rows.setIfInBounds i x } else none
  | .column j =>
    if j < p.columns.size then some { p with columns := p.columns.setIfInBounds j x } else none

/-- The values settled along the steps of a search: each fresh step gives the line that it reaches
what the cell's cost leaves over. A step that is not fresh closes a cycle. -/
def settle (costs : Table α) : List Step → Potentials α → Except (Cause α) (Potentials α)
  | [], p => .ok p
  | s :: rest, p =>
    if s.fresh then do
      let value ← within (p.value? s.source)
      let cost ← within (costs.get? s.cell)
      let p ← within (p.assign? (cost - value) s.target)
      settle costs rest p
    else .error (.cyclic s.cell)

/-- The potentials of a basis. It is refused unless it is a spanning tree: for its size, for a cycle
that can be reached from row zero, or for lines that cannot. -/
def ofBasis (b : Basis) (costs : Table α) : Except (Cause α) (Potentials α) := do
  if b.size ≠ b.treeSize then .error (.basisSize b.treeSize b.size)
  else if b.rows = 0 then .error .outside
  else
    let steps := b.search (.row 0)
    let p ← settle costs steps (start b.rows b.cols)
    let reached := (steps.filter Step.fresh).length + 1
    if reached < b.lines then .error (.disconnected reached b.lines) else .ok p

/-- What a cell's cost has beyond the values of its lines. -/
def opportunityCost? (p : Potentials α) (costs : Table α) (c : Cell) : Option α := do
  let cost ← costs.get? c
  let u ← p.value? (.row c.row)
  let v ← p.value? (.column c.col)
  pure (cost - u - v)

end Potentials

end Freight
