import Freight.Basis.Loop
import Freight.Potentials

/-!
# Pivots

A plan under improvement is a *position*: shipped quantities and a basis. Pricing fills the basis up
to a tree and looks for the vacant cell with the lowest opportunity cost; if none lies below minus
the tolerance, no other plan is cheaper. A pivot sends as much as possible through that cell around
its loop and exchanges it for a cell that ran empty.

`Position.run` repeats this within a budget of pivots and records the total cost after each. Its
*course* lists the pivots of its steps, each with the position that it led to; these positions and the
first one are what the run visits (`Position.visited`). Where so many steps lead without any budget is
said by `Position.after?`.

A planner that keeps one position and overwrites it, entry by entry and mark by mark, runs a pivot as a
program on it (`Position.writePivot`). Everything that can refuse a pivot is looked up before the first
write.
-/

namespace Freight

/-- Shipped quantities with the basis that carries them. -/
structure Position (α : Type) where
  allocation : Table α
  basis : Basis

/-- A vacant cell worth using. -/
structure Entering (α : Type) where
  cell : Cell
  /-- The change in total cost for each unit sent through it. -/
  opportunityCost : α

structure Pivot (α : Type) where
  entering : Cell
  opportunityCost : α
  leaving : Cell
  /-- The quantity sent around the loop. -/
  quantity : α

inductive Ending where
  /-- No vacant cell is worth using. -/
  | optimal
  /-- The budget is spent while a cell is still worth using. -/
  | improving
deriving DecidableEq

structure Outcome (α : Type) where
  position : Position α
  iterations : Nat
  ending : Ending
  /-- The total cost at the start and after each pivot. -/
  costHistory : List α

variable {α : Type} [Scalar α]

/-- The vacant cells of a basis with their opportunity costs, in row-major order. -/
def Basis.offers? (b : Basis) (costs : Table α) (p : Potentials α) : Option (List (Entering α)) :=
  b.vacant.mapM fun c => (p.opportunityCost? costs c).map fun d => ⟨c, d⟩

/-- Of the given offers the first one within the tolerance of the lowest, unless that is at least
minus the tolerance. -/
def bestOffer? (tol : α) (offers : List (Entering α)) : Option (Entering α) :=
  match Scalar.minimum? (offers.map Entering.opportunityCost) with
  | none => none
  | some lowest =>
    if -tol ≤ lowest then none
    else offers.find? fun o => decide (o.opportunityCost ≤ lowest + tol)

/-- The basis filled up to a tree, and the cell that should enter it, if any. -/
def Basis.price (b : Basis) (costs : Table α) (tol : α) :
    Except (Cause α) (Basis × Option (Entering α)) := do
  let (b, _) ← b.repair.mapError .cyclic
  let p ← Potentials.ofBasis b costs
  let offers ← within (b.offers? costs p)
  pure (b, bestOffer? tol offers)

/-- The first of the given cells in row-major order. -/
def firstCell? : List Cell → Option Cell
  | [] => none
  | c :: cs => some (cs.foldl (fun best c => if c.before best then c else best) c)

namespace Table

/-- A quantity sent around a loop: cells gain and lose in turn, beginning as `gains` says, and what
is left on a losing cell is dropped if it is within the tolerance. -/
def shift? (quantity tol : α) : Bool → List Cell → Table α → Option (Table α)
  | _, [], t => some t
  | true, c :: rest, t => do
    let t ← t.modify? c (· + quantity)
    shift? quantity tol false rest t
  | false, c :: rest, t => do
    let t ← t.modify? c fun q => if q + -quantity ≤ tol then 0 else q + -quantity
    shift? quantity tol true rest t

end Table

namespace Position

/-- The cells of a loop that lose, with what they hold. -/
def losingQuantities? (p : Position α) (loop : List Cell) : Option (List (Cell × α)) :=
  (losing loop).mapM fun c => (p.allocation.get? c).map (c, ·)

/-- The quantity that a loop can take, and the cell that leaves: of the losing cells that run empty
the first in row-major order. -/
def exchange? (tol : α) (losses : List (Cell × α)) : Option (α × Cell) := do
  let quantity := Scalar.positivePart (← Scalar.minimum? (losses.map Prod.snd))
  let emptied := losses.filter fun l => decide (l.2 ≤ quantity + tol)
  let leaving ← firstCell? (emptied.map Prod.fst)
  pure (quantity, leaving)

/-- The position after a pivot on a vacant cell, and its record. -/
def pivot (p : Position α) (tol : α) (entering : Entering α) :
    Except (Cause α) (Position α × Pivot α) := do
  let loop ← p.basis.loop entering.cell
  let losses ← within (p.losingQuantities? loop)
  match exchange? tol losses with
  | none => .error (.noLoop entering.cell)
  | some (quantity, leaving) => do
    let allocation ← within (p.allocation.shift? quantity tol true loop)
    let (_, basis) ← within (p.basis.erase? leaving)
    let (_, basis) ← within (basis.insert? entering.cell)
    pure (⟨allocation, basis⟩, ⟨entering.cell, entering.opportunityCost, leaving, quantity⟩)

/-- One improvement: a pivot on the cell that pricing finds, if any. The basis stays filled up even
when the pivot is refused. -/
def step (p : Position α) (costs : Table α) (tol : α) :
    Position α × Except (Cause α) (Option (Pivot α)) :=
  match p.basis.price costs tol with
  | .error e => (p, .error e)
  | .ok (basis, none) => ({ p with basis }, .ok none)
  | .ok (basis, some entering) =>
    match ({ p with basis } : Position α).pivot tol entering with
    | .error e => ({ p with basis }, .error e)
    | .ok (next, record) => (next, .ok (some record))

/-- The improvements within a budget of pivots: where they end, and the total cost after each. -/
def improve (costs : Table α) (tol : α) :
    Nat → Position α → Except (Cause α) (Position α × Ending × List α)
  | 0, p => do
    let (basis, offer) ← p.basis.price costs tol
    pure ({ p with basis }, if offer.isSome then .improving else .optimal, [])
  | budget + 1, p => do
    let (basis, offer) ← p.basis.price costs tol
    let p : Position α := { p with basis }
    match offer with
    | none => .ok (p, .optimal, [])
    | some entering => do
      let (next, _) ← p.pivot tol entering
      let cost ← within (next.allocation.cost? costs)
      let (last, ending, later) ← improve costs tol budget next
      pure (last, ending, cost :: later)

/-- The run of improvements from a position within a budget of pivots. -/
def run (p : Position α) (costs : Table α) (tol : α) (budget : Nat) :
    Except (Cause α) (Outcome α) := do
  let cost ← within (p.allocation.cost? costs)
  let (last, ending, later) ← improve costs tol budget p
  pure ⟨last, later.length, ending, cost :: later⟩

/-! ## The course of a run -/

/-- The pivots of the steps from a position, each with the position that it led to, at most `n` of
them. -/
def course (costs : Table α) (tol : α) : Nat → Position α → List (Pivot α × Position α)
  | 0, _ => []
  | n + 1, p =>
    match p.step costs tol with
    | (next, .ok (some record)) => (record, next) :: course costs tol n next
    | _ => []

/-- The positions that a run within a budget of pivots visits, its start first. -/
def visited (p : Position α) (costs : Table α) (tol : α) (budget : Nat) : List (Position α) :=
  p :: (course costs tol budget p).map Prod.snd

/-- The position that `k` steps lead to, if each of them makes a pivot. -/
def after? (costs : Table α) (tol : α) : Position α → Nat → Option (Position α)
  | p, 0 => some p
  | p, k + 1 =>
    match p.step costs tol with
    | (next, .ok (some _)) => next.after? costs tol k
    | _ => none

/-! ## Pivots in place -/

/-- A program on a position. A refusal stops it, and what it has written by then stays written. -/
abbrev Program (α β : Type) : Type := EStateM (Cause α) (Position α) β

/-- One write, if it hits the position. -/
def write (f : Position α → Option (Position α)) : Program α Unit := do
  let next ← MonadExcept.ofExcept (within (f (← get)))
  set next

def writeEntry (c : Cell) (f : α → α) : Program α Unit :=
  write fun p => (p.allocation.modify? c f).map fun allocation => { p with allocation }

/-- A quantity sent around a loop, cell by cell: a losing cell is lowered first, and then cleared if
what is left is within the tolerance. -/
def writeShift (quantity tol : α) : Bool → List Cell → Program α Unit
  | _, [] => pure ()
  | true, c :: rest => do
    writeEntry c (· + quantity)
    writeShift quantity tol false rest
  | false, c :: rest => do
    writeEntry c (· + -quantity)
    writeEntry c fun q => if q ≤ tol then 0 else q
    writeShift quantity tol true rest

/-- The pivot on a vacant cell, in place, and its record. -/
def writePivot (tol : α) (entering : Entering α) : Program α (Pivot α) := do
  let p ← get
  let loop ← MonadExcept.ofExcept (p.basis.loop entering.cell)
  let losses ← MonadExcept.ofExcept (within (p.losingQuantities? loop))
  match exchange? tol losses with
  | none => throw (.noLoop entering.cell)
  | some (quantity, leaving) => do
    writeShift quantity tol true loop
    write fun p => (p.basis.erase? leaving).map fun r => { p with basis := r.2 }
    write fun p => (p.basis.insert? entering.cell).map fun r => { p with basis := r.2 }
    pure ⟨entering.cell, entering.opportunityCost, leaving, quantity⟩

end Position

end Freight
