import Freight.Scalar

/-!
# Tables

A table keeps its entries row after row in one buffer, so the entry at `(i, j)` stands at position
`i * cols + j`. A lookup fails exactly when that position lies outside the buffer: a column index
beyond the last column reads on into the next row. The buffer's length is data of its own, because a
table can be read from outside; `Table.WellFormed` says that it agrees with the dimensions. A program
that compares the two counts the cells in words, which start over at `USize.size`
(`Table.entryCount`).

The same type holds unit costs and shipped quantities.
-/

namespace Freight

structure Cell where
  row : Nat
  col : Nat
deriving DecidableEq, Repr, Inhabited

/-- Row-major order: by row, then by column. -/
def Cell.before (a b : Cell) : Bool := a.row < b.row || (a.row == b.row && a.col < b.col)

/-- All cells of a rectangle in row-major order. -/
def Cell.grid (rows cols : Nat) : List Cell :=
  (List.range rows).flatMap fun i => (List.range cols).map fun j => ⟨i, j⟩

/-- A dense table in row-major order. -/
structure Table (α : Type) where
  rows : Nat
  cols : Nat
  /-- The entries, row after row. -/
  data : Array α
deriving DecidableEq

namespace Table

variable {α : Type}

/-- The buffer holds one entry for each cell. -/
def WellFormed (t : Table α) : Prop := t.data.size = t.rows * t.cols

/-- The number of entries that the dimensions call for, in words, for comparison with the length of a
buffer. A buffer with an entry for each cell shows that words can count the cells, and the product is
exact; otherwise it starts over at `USize.size`. -/
def entryCount (rows cols length : Nat) : Nat :=
  if length = rows * cols then length else rows * cols % USize.size

def fill (rows cols : Nat) (x : α) : Table α := ⟨rows, cols, Array.replicate (rows * cols) x⟩

/-- The table with the given rows, if they are of one length. The first row gives the number of
columns; without rows there are none. -/
def ofRows? (rows : List (List α)) : Option (Table α) :=
  let cols := (rows.head?.map List.length).getD 0
  if rows.all (fun r => r.length == cols) then some ⟨rows.length, cols, rows.flatten.toArray⟩
  else none

/-- The table with the given buffer, if its length agrees with the dimensions as words count them. -/
def ofData? (rows cols : Nat) (data : List α) : Option (Table α) :=
  if data.length = entryCount rows cols data.length then some ⟨rows, cols, data.toArray⟩ else none

/-- Where the entry of a cell stands in the buffer. -/
def position (t : Table α) (c : Cell) : Nat := c.row * t.cols + c.col

/-- The cell whose entry stands at a position of the buffer. -/
def cellAt (t : Table α) (k : Nat) : Cell := ⟨k / t.cols, k % t.cols⟩

def get? (t : Table α) (c : Cell) : Option α := t.data[t.position c]?

def modify? (t : Table α) (c : Cell) (f : α → α) : Option (Table α) :=
  if t.position c < t.data.size then some { t with data := t.data.modify (t.position c) f }
  else none

def set? (t : Table α) (c : Cell) (x : α) : Option (Table α) := t.modify? c fun _ => x

/-- The entries of a row, if the buffer reaches to its end. -/
def row? (t : Table α) (i : Nat) : Option (List α) :=
  if (i + 1) * t.cols ≤ t.data.size then
    some (t.data.extract (i * t.cols) ((i + 1) * t.cols)).toList
  else none

/-- The entries of a column from top to bottom. -/
def column? (t : Table α) (j : Nat) : Option (List α) :=
  (List.range t.rows).mapM fun i => t.get? ⟨i, j⟩

/-- The rows from top to bottom, each with the entries that the buffer holds for it. -/
def toRows (t : Table α) : List (List α) :=
  (List.range t.rows).map fun i => (t.data.extract (i * t.cols) ((i + 1) * t.cols)).toList

/-- The list cut into pieces of a given length, at most `n` of them; the last one may be shorter. -/
def pieces (width : Nat) : Nat → List α → List (List α)
  | 0, _ => []
  | _, [] => []
  | n + 1, xs => xs.take width :: pieces width n (xs.drop width)

/-- The buffer cut into rows. A table without entries has none to show, however many rows it has. -/
def bufferRows (t : Table α) : List (List α) :=
  pieces (max t.cols 1) t.data.size t.data.toList

def appendRow (t : Table α) (x : α) : Table α :=
  ⟨t.rows + 1, t.cols, t.data ++ Array.replicate t.cols x⟩

def appendColumn (t : Table α) (x : α) : Table α :=
  ⟨t.rows, t.cols + 1, (t.toRows.flatMap fun r => r ++ [x]).toArray⟩

def cells (t : Table α) : List Cell := Cell.grid t.rows t.cols

/-- The cells whose entries pass a test, in the order of the buffer. -/
def cellsWhere (t : Table α) (p : α → Bool) : List Cell :=
  (t.data.toList.zipIdx.filter fun e => p e.1).map fun e => t.cellAt e.2

section Scalars

variable [Scalar α]

def largest? (t : Table α) : Option α := Scalar.maximum? t.data.toList

def rowSum? (t : Table α) (i : Nat) : Option α := (t.row? i).map Scalar.sum

def columnSum? (t : Table α) (j : Nat) : Option α := (t.column? j).map Scalar.sum

/-- The cells that hold more than the tolerance, in the order of the buffer. -/
def loaded (t : Table α) (tol : α) : List Cell := t.cellsWhere fun q => decide (tol < q)

/-- What it costs to ship the quantities of a table at the unit costs of another. -/
def cost? (quantities costs : Table α) : Option α :=
  quantities.cells.foldlM
    (fun total c => do
      let q ← quantities.get? c
      let unit ← costs.get? c
      pure (total + q * unit))
    0

/-- One step of the search for the cheapest cell: the candidate stays against a cell that costs as
much or more. -/
def cheaper? (t : Table α) (best : Option (Cell × α)) (c : Cell) : Option (Option (Cell × α)) := do
  let x ← t.get? c
  match best with
  | some (b, y) => if y ≤ x then pure (some (b, y)) else pure (some (c, x))
  | none => pure (some (c, x))

/-- The cheapest of the given cells; of equally cheap ones the first. The outer option is empty if a
cell lies outside the table, the inner one if no cell is given. -/
def cheapest? (t : Table α) (candidates : List Cell) : Option (Option Cell) :=
  (candidates.foldlM t.cheaper? none).map fun best => best.map Prod.fst

end Scalars

end Table

end Freight
