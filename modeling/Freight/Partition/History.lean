import Freight.Partition
import Mathlib.Logic.Relation

/-!
# Histories of a partition

What a partition goes through: the rounds of one walk towards a root (`Partition.Walk`), to which no
number of steps is given, and sequences of calls, with the relation that they establish. Two elements
are in one class if the joined pairs connect them, however often elements were looked up in between.
-/

namespace Freight.Partition

/-- From `x` in a partition the walk stands at `y` after `k` rounds and has left the last partition. A
round is made at an element that is not its own parent; it points the element to its grandparent and
goes on from there. Both of its lookups are inside the buffer. -/
inductive Walk : Partition → Nat → Nat → Partition → Nat → Prop where
  | stay (p : Partition) (x : Nat) : Walk p x 0 p x
  | round {p q : Partition} {x y up top k : Nat} : p.parent[x]? = some up → up ≠ x →
      p.parent[up]? = some top → Walk ⟨p.parent.setIfInBounds x top⟩ top k q y →
      Walk p x (k + 1) q y

inductive Call where
  | find (x : Nat)
  | union (a b : Nat)

/-- The elements of a call lie below a bound. -/
def Call.Below (n : Nat) : Call → Prop
  | find x => x < n
  | union a b => a < n ∧ b < n

def call (p : Partition) : Call → Partition
  | .find x => (p.find x).2
  | .union a b => (p.union a b).2

/-- The partition of `n` elements after a sequence of calls. -/
def after (n : Nat) (calls : List Call) : Partition := calls.foldl call (discrete n)

/-- The pairs that a sequence of calls joins. -/
def joinedPairs (calls : List Call) : List (Nat × Nat) :=
  calls.filterMap fun
    | .find _ => none
    | .union a b => some (a, b)

/-- The least equivalence that holds for the given pairs. -/
def Joined (pairs : List (Nat × Nat)) : Nat → Nat → Prop :=
  Relation.EqvGen fun a b => (a, b) ∈ pairs

end Freight.Partition
