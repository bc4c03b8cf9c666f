/-!
# Partitions by union and find

A partition of `0, …, n - 1` kept as a forest: each element points to a parent, and a root to
itself. Two elements are in one class exactly when they have one root. `Partition.find` makes every
node that it passes point to its grandparent, which shortens later searches and changes no root.
-/

namespace Freight

/-- A partition of the first natural numbers. -/
structure Partition where
  /-- The parent of each element; a root is its own. -/
  parent : Array Nat
deriving DecidableEq

namespace Partition

def discrete (n : Nat) : Partition := ⟨Array.range n⟩

/-- The parent of an element. One without an entry is its own. -/
def parentOf (p : Partition) (x : Nat) : Nat := p.parent.getD x x

/-- The walk from `x` towards its root in at most `n` steps, two generations at a step. -/
def climb : Nat → Partition → Nat → Nat × Partition
  | 0, p, x => (x, p)
  | n + 1, p, x =>
    if p.parentOf x = x then (x, p)
    else
      let up := p.parentOf (p.parentOf x)
      climb n ⟨p.parent.setIfInBounds x up⟩ up

/-- The root of an element, and the partition with the path to it shortened. A path has fewer steps
than there are elements. -/
def find (p : Partition) (x : Nat) : Nat × Partition := climb p.parent.size p x

/-- The partition with the classes of two elements joined, and whether they were apart before. -/
def union (p : Partition) (a b : Nat) : Bool × Partition :=
  let (ra, p) := p.find a
  let (rb, p) := p.find b
  if ra = rb then (false, p) else (true, ⟨p.parent.setIfInBounds rb ra⟩)

end Partition

end Freight
