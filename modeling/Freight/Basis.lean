import Freight.Line
import Freight.Partition
import Freight.Cause

/-!
# Bases

A basis marks the cells of a tableau that carry a plan. Seen as edges between rows and columns, the
marked cells of a usable basis form a spanning tree; a greedy start may leave too few of them, and
`Basis.repair` fills up such a forest to a tree.

The number of marked cells is kept beside the marks. `Basis.WellFormed` says that it is right.

A planner that keeps one basis and marks cells in it runs the filling up as a program on it
(`Basis.writeRepair`). A cycle is found before the first mark is made. `Basis.changes?` is what such a
basis goes through.
-/

namespace Freight

/-- A set of cells of a tableau. -/
structure Basis where
  marks : Table Bool
  size : Nat
deriving DecidableEq

namespace Basis

/-- The marks fill their buffer, and the size counts them. -/
def WellFormed (b : Basis) : Prop :=
  b.marks.WellFormed ∧ b.size = b.marks.data.toList.count true

def empty (rows cols : Nat) : Basis := ⟨Table.fill rows cols false, 0⟩

def rows (b : Basis) : Nat := b.marks.rows

def cols (b : Basis) : Nat := b.marks.cols

def lines (b : Basis) : Nat := b.rows + b.cols

/-- The size of a spanning tree. -/
def treeSize (b : Basis) : Nat := b.lines - 1

/-- Whether a cell is marked, if it has a mark. -/
def contains? (b : Basis) (c : Cell) : Option Bool := b.marks.get? c

/-- Whether a cell is marked; one without a mark is not. -/
def contains (b : Basis) (c : Cell) : Bool := (b.contains? c).getD false

/-- The basis with a cell marked, and whether that changed it. -/
def insert? (b : Basis) (c : Cell) : Option (Bool × Basis) := do
  if ← b.contains? c then pure (false, b)
  else
    let marks ← b.marks.set? c true
    pure (true, ⟨marks, b.size + 1⟩)

/-- The basis with a cell's mark taken away, and whether that changed it. -/
def erase? (b : Basis) (c : Cell) : Option (Bool × Basis) := do
  if ← b.contains? c then
    let marks ← b.marks.set? c false
    pure (true, ⟨marks, b.size - 1⟩)
  else pure (false, b)

/-- The basis of the given cells, repetitions allowed. -/
def ofCells? (rows cols : Nat) (cells : List Cell) : Option Basis :=
  cells.foldlM (fun b c => (b.insert? c).map Prod.snd) (empty rows cols)

/-- The basis of the cells that hold more than a tolerance. -/
def ofLoaded? {α : Type} [Scalar α] (t : Table α) (tol : α) : Option Basis :=
  ofCells? t.rows t.cols (t.loaded tol)

/-- The marked cells in row-major order. -/
def cells (b : Basis) : List Cell := b.marks.cellsWhere id

/-- The cells without a mark in row-major order. -/
def vacant (b : Basis) : List Cell := b.marks.cells.filter fun c => !b.contains c

/-- The partition of the lines with the two lines of a cell joined, and whether they were apart. -/
def join (b : Basis) (p : Partition) (c : Cell) : Bool × Partition :=
  p.union ((Line.row c.row).index b.rows) ((Line.column c.col).index b.rows)

/-- The partition of the lines after joining along the given cells, or the first cell whose lines
were joined before. -/
def joinAll (b : Basis) (p : Partition) : List Cell → Except Cell Partition
  | [] => .ok p
  | c :: cs =>
    match b.join p c with
    | (true, p) => b.joinAll p cs
    | (false, _) => .error c

/-- The classes of lines that the marked cells connect, or the first marked cell that closes a
cycle with those before it. -/
def components (b : Basis) : Except Cell Partition :=
  b.joinAll (Partition.discrete b.lines) b.cells

/-- The marked cells form a spanning tree: as many as a tree has, without a cycle. -/
def isSpanningTree (b : Basis) : Bool := b.size == b.treeSize && b.components.isOk

/-- The basis with those of the given cells marked that join lines not yet connected, until it has
the size of a tree, and the number of cells added. -/
def fill (b : Basis) (p : Partition) : List Cell → Basis × Nat
  | [] => (b, 0)
  | c :: cs =>
    if b.treeSize ≤ b.size then (b, 0)
    else if b.contains c then b.fill p cs
    else
      match b.join p c, b.insert? c with
      | (true, p), some (_, b) =>
        let (b, added) := b.fill p cs
        (b, added + 1)
      | (_, p), _ => b.fill p cs

/-- The basis filled up to a spanning tree in row-major order, and the number of cells added; or the
first marked cell that closes a cycle with those before it. -/
def repair (b : Basis) : Except Cell (Basis × Nat) :=
  b.components.map fun p => b.fill p b.marks.cells

/-! ## Filling up in place -/

/-- A program on a basis. A refusal names a cell; what has been marked by then stays marked. -/
abbrev Program (β : Type) : Type := EStateM Cell Basis β

/-- Those of the given cells marked that join lines not yet connected, until the basis has the size
of a tree, and the number of cells added. -/
def writeFill : Partition → List Cell → Program Nat
  | _, [] => pure 0
  | p, c :: cs => do
    let b ← get
    if b.treeSize ≤ b.size then pure 0
    else if b.contains c then writeFill p cs
    else
      match b.join p c, b.insert? c with
      | (true, p), some (_, next) => do
        set next
        let added ← writeFill p cs
        pure (added + 1)
      | (_, p), _ => writeFill p cs

/-- The basis filled up to a spanning tree, in place, and the number of cells added. -/
def writeRepair : Program Nat := do
  let b ← get
  match b.components with
  | .error c => throw c
  | .ok p => writeFill p b.marks.cells

/-! ## Sequences of changes

Marking and unmarking need a cell of the tableau; a refusal to fill up leaves what has been marked by
then. -/

inductive Change where
  | insert (c : Cell)
  | erase (c : Cell)
  | repair

/-- The cell of a change lies in a tableau of the given size. -/
def Change.Within (rows cols : Nat) : Change → Prop
  | insert c => c.row < rows ∧ c.col < cols
  | erase c => c.row < rows ∧ c.col < cols
  | repair => True

/-- The basis after a change; none if the cell has no mark to change. -/
def change? (b : Basis) : Change → Option Basis
  | .insert c => (b.insert? c).map Prod.snd
  | .erase c => (b.erase? c).map Prod.snd
  | .repair =>
    match writeRepair.run b with
    | .ok _ b => some b
    | .error _ b => some b

def changes? (b : Basis) (changes : List Change) : Option Basis := changes.foldlM change? b

end Basis

end Freight
