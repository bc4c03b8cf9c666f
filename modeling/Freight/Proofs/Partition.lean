import Freight.Partition.History
import Mathlib.Data.Finset.Card
import Mathlib.Order.Interval.Finset.Nat

/-!
# Classes of a partition

A partition represents a function `rep` that sends each element to the root of its class
(`Partition.Represents`). Looking up a root returns that function's value and keeps it
(`Represents.find`), although it rewrites parents; joining two elements merges their classes and
tells whether they were apart (`Represents.union_of_eq`, `Represents.union_of_ne`). Every successful
join leaves one root fewer (`card_roots_merge`), which is how the edges of a forest are counted.

The walk towards a root ends because some height grows along it, so fewer elements stand above it
after each round (`Represents.exists_walk`). Heights are not stored: that they exist is all the walk
needs. A lookup is this walk (`Represents.find_walk`), and none of its rounds changes a root
(`Represents.of_walk`).
-/

namespace Freight.Partition

variable {p : Partition} {n : Nat} {rep height : Nat → Nat} {a b x : Nat}

theorem parentOf_eq {up : Nat} (h : p.parent[x]? = some up) : p.parentOf x = up := by
  rw [parentOf, Array.getD_eq_getD_getElem?, h, Option.getD_some]

theorem parentOf_set (hx : x < p.parent.size) (up y : Nat) :
    (Partition.mk (p.parent.setIfInBounds x up)).parentOf y =
      if y = x then up else p.parentOf y := by
  unfold parentOf
  by_cases h : y = x
  · subst h
    simp [Array.getD_eq_getD_getElem?, hx]
  · rw [if_neg h]
    simp [Array.getD_eq_getD_getElem?, Ne.symm h]

/-- A height grows from each element that is no root to its parent. -/
def Climbs (p : Partition) (n : Nat) (height : Nat → Nat) : Prop :=
  ∀ x, x < n → p.parentOf x ≠ x → height x < height (p.parentOf x)

/-- The partition has the elements below `n`, and `rep` gives the root of each. -/
structure Represents (p : Partition) (n : Nat) (rep : Nat → Nat) : Prop where
  size_eq : p.parent.size = n
  parent_lt : ∀ x, x < n → p.parentOf x < n
  /-- A parent has the root of its child. -/
  rep_parent : ∀ x, x < n → rep (p.parentOf x) = rep x
  root_iff : ∀ x, x < n → (p.parentOf x = x ↔ rep x = x)
  climbs : ∃ height, p.Climbs n height

/-- The elements that are their own representatives. -/
def roots (rep : Nat → Nat) (n : Nat) : Finset Nat := (Finset.range n).filter fun x => rep x = x

theorem mem_roots : x ∈ roots rep n ↔ x < n ∧ rep x = x := by
  rw [roots, Finset.mem_filter, Finset.mem_range]

/-- The representatives after the class of `b` has joined that of `a`. -/
def merge (rep : Nat → Nat) (a b : Nat) : Nat → Nat := fun x => if rep x = rep b then rep a else rep x

/-! ## The discrete partition -/

theorem parentOf_discrete (n x : Nat) : (discrete n).parentOf x = x := by
  unfold parentOf discrete
  by_cases h : x < n <;> simp [Array.getD_eq_getD_getElem?, h]

theorem represents_discrete (n : Nat) : Represents (discrete n) n id where
  size_eq := by simp [discrete]
  parent_lt x hx := by rwa [parentOf_discrete]
  rep_parent x _ := by rw [parentOf_discrete]
  root_iff x _ := by simp [parentOf_discrete]
  climbs := ⟨id, fun x _ h => absurd (parentOf_discrete n x) h⟩

theorem card_roots_id (n : Nat) : (roots id n).card = n := by
  simp [roots]

/-! ## Looking up -/

/-- The elements that stand higher than one of them. -/
def above (n : Nat) (height : Nat → Nat) (x : Nat) : Finset Nat :=
  (Finset.range n).filter fun y => height x < height y

theorem mem_above {y : Nat} : y ∈ above n height x ↔ y < n ∧ height x < height y := by
  rw [above, Finset.mem_filter, Finset.mem_range]

/-- Higher up there are fewer elements above. -/
theorem card_above_lt {y : Nat} (hy : y < n) (lt : height x < height y) :
    (above n height y).card < (above n height x).card := by
  have sub : above n height y ⊆ above n height x := fun z hz =>
    mem_above.mpr ((mem_above.mp hz).imp_right lt.trans)
  apply Finset.card_lt_card
  exact (Finset.ssubset_iff_of_subset sub).mpr
    ⟨y, mem_above.mpr ⟨hy, lt⟩, fun hm => Nat.lt_irrefl _ (mem_above.mp hm).2⟩

theorem card_above_lt_card (height : Nat → Nat) (hx : x < n) : (above n height x).card < n := by
  have sub : above n height x ⊆ Finset.range n := Finset.filter_subset ..
  have strict : above n height x ⊂ Finset.range n := (Finset.ssubset_iff_of_subset sub).mpr
    ⟨x, Finset.mem_range.mpr hx, fun hm => Nat.lt_irrefl _ (mem_above.mp hm).2⟩
  simpa using Finset.card_lt_card strict

/-- A walk that comes to a root is what the bounded one does if it is given enough steps. -/
theorem climb_of_walk {k y : Nat} {q : Partition} (walk : Walk p x k q y)
    (root : q.parent[y]? = some y) {m : Nat} (enough : k ≤ m) : climb m p x = (y, q) := by
  induction walk generalizing m with
  | stay p x =>
    cases m with
    | zero => rfl
    | succ m => rw [climb, if_pos (parentOf_eq root)]
  | round lookup ne lookup' _ ih =>
    cases m with
    | zero => omega
    | succ m =>
      rw [climb, parentOf_eq lookup, parentOf_eq lookup', if_neg ne]
      exact ih root (by omega)

namespace Represents

theorem getElem?_parent (h : Represents p n rep) (hx : x < n) :
    p.parent[x]? = some (p.parentOf x) := by
  have lookup := Array.getElem?_eq_getElem (h.size_eq.symm ▸ hx)
  rw [lookup, parentOf_eq lookup]

theorem grandparent_lt (h : Represents p n rep) (hx : x < n) : p.parentOf (p.parentOf x) < n :=
  h.parent_lt _ (h.parent_lt x hx)

theorem rep_grandparent (h : Represents p n rep) (hx : x < n) :
    rep (p.parentOf (p.parentOf x)) = rep x := by
  rw [h.rep_parent _ (h.parent_lt x hx), h.rep_parent x hx]

/-- Pointing an element to its grandparent changes no root, and heights still grow. -/
theorem halve (h : Represents p n rep) (hh : p.Climbs n height) (hx : x < n)
    (hroot : p.parentOf x ≠ x) :
    let q := Partition.mk (p.parent.setIfInBounds x (p.parentOf (p.parentOf x)))
    Represents q n rep ∧ q.Climbs n height := by
  intro q
  have hp := h.parent_lt x hx
  have hq : ∀ y, q.parentOf y = if y = x then p.parentOf (p.parentOf x) else p.parentOf y :=
    parentOf_set (h.size_eq ▸ hx) _
  have grow : height x < height (p.parentOf (p.parentOf x)) := by
    have h₁ := hh x hx hroot
    by_cases hg : p.parentOf (p.parentOf x) = p.parentOf x
    · rwa [hg]
    · exact h₁.trans (hh _ hp hg)
  have ne : p.parentOf (p.parentOf x) ≠ x := fun e => by
    rw [e] at grow
    exact Nat.lt_irrefl _ grow
  have climbs : q.Climbs n height := by
    intro y hy hne
    rw [hq] at hne ⊢
    split at hne
    · next e =>
      subst e
      simpa using grow
    · next e =>
      rw [if_neg e]
      exact hh y hy hne
  refine ⟨⟨by simp [q, h.size_eq], ?_, ?_, ?_, _, climbs⟩, climbs⟩
  · intro y hy
    rw [hq]
    split
    · exact h.grandparent_lt hx
    · exact h.parent_lt y hy
  · intro y hy
    rw [hq]
    split
    · next e => rw [h.rep_grandparent hx, e]
    · exact h.rep_parent y hy
  · intro y hy
    rw [hq]
    split
    · next e =>
      subst e
      exact iff_of_false ne fun e => hroot ((h.root_iff y hx).mpr e)
    · exact h.root_iff y hy

/-- Every round of a walk keeps the roots and stays in the class of its start. -/
theorem of_walk {k y : Nat} {q : Partition} (h : Represents p n rep) (hx : x < n)
    (walk : Walk p x k q y) : Represents q n rep ∧ y < n ∧ rep y = rep x := by
  induction walk with
  | stay p x => exact ⟨h, hx, rfl⟩
  | round lookup ne lookup' _ ih =>
    obtain rfl := parentOf_eq lookup
    obtain rfl := parentOf_eq lookup'
    obtain ⟨height, hh⟩ := h.climbs
    obtain ⟨h', -⟩ := h.halve hh hx ne
    obtain ⟨hq, hy, e⟩ := ih h' (h.grandparent_lt hx)
    exact ⟨hq, hy, e.trans (h.rep_grandparent hx)⟩

/-- A walk comes to the root. Each of its rounds but the last passes two elements. -/
theorem exists_walk (h : Represents p n rep) (hh : p.Climbs n height) (hx : x < n) :
    ∃ k q, Walk p x k q (rep x) ∧ q.parent[rep x]? = some (rep x) ∧
      2 * k ≤ (above n height x).card + 1 := by
  induction e : (above n height x).card using Nat.strong_induction_on generalizing p x with
  | _ c ih =>
    by_cases root : p.parentOf x = x
    · rw [(h.root_iff x hx).mp root]
      exact ⟨0, p, .stay p x, by rw [h.getElem?_parent hx, root], by omega⟩
    · have hp := h.parent_lt x hx
      have hg := h.grandparent_lt hx
      have same := h.rep_grandparent hx
      have lookup := h.getElem?_parent hx
      have lookup' := h.getElem?_parent hp
      have passed := card_above_lt hp (hh x hx root)
      obtain ⟨h', hh'⟩ := h.halve hh hx root
      by_cases top : p.parentOf (p.parentOf x) = p.parentOf x
      · -- The parent is the root, so this round is the last one.
        have hroot : rep x = p.parentOf (p.parentOf x) := by
          rw [← same, (h.root_iff _ hg).mp (by rw [top, top])]
        rw [hroot]
        refine ⟨1, _, .round lookup root lookup' (.stay _ _), ?_, by omega⟩
        rw [h'.getElem?_parent hg, (h'.root_iff _ hg).mpr (same.trans hroot)]
      · have passed' := card_above_lt hg (hh _ hp top)
        obtain ⟨k, q, walk, hroot, bound⟩ := ih _ (by omega) h' hh' hg rfl
        rw [same] at walk hroot
        exact ⟨k + 1, q, .round lookup root lookup' walk, hroot, by omega⟩

/-- A lookup is a walk to the root. It has at most half as many rounds as there are elements, so the
steps given to it are never used up. -/
theorem find_walk (h : Represents p n rep) (hx : x < n) :
    ∃ k, 2 * k ≤ n ∧ Walk p x k (p.find x).2 (rep x) ∧ (p.find x).1 = rep x ∧
      (p.find x).2.parent[rep x]? = some (rep x) := by
  obtain ⟨height, hh⟩ := h.climbs
  obtain ⟨k, q, walk, root, bound⟩ := h.exists_walk hh hx
  have few := card_above_lt_card height hx
  have found : p.find x = (rep x, q) := climb_of_walk walk root (by rw [h.size_eq]; omega)
  rw [found]
  exact ⟨k, by omega, walk, rfl, root⟩

/-- Looking up an element returns its root and keeps all roots. -/
theorem find (h : Represents p n rep) (hx : x < n) :
    (p.find x).1 = rep x ∧ Represents (p.find x).2 n rep := by
  obtain ⟨k, -, walk, found, -⟩ := h.find_walk hx
  exact ⟨found, (h.of_walk hx walk).1⟩

theorem rep_lt (h : Represents p n rep) (hx : x < n) : rep x < n := by
  obtain ⟨k, -, walk, -⟩ := h.find_walk hx
  exact (h.of_walk hx walk).2.1

theorem rep_rep (h : Represents p n rep) (hx : x < n) : rep (rep x) = rep x := by
  obtain ⟨k, -, walk, -⟩ := h.find_walk hx
  exact (h.of_walk hx walk).2.2

/-! ## Joining -/

/-- Pointing one root to another one merges their classes. -/
theorem link (h : Represents p n rep) (ha : a < n) (hb : b < n) (hne : rep a ≠ rep b) :
    Represents ⟨p.parent.setIfInBounds (rep b) (rep a)⟩ n (merge rep a b) := by
  have ha' := h.rep_lt ha
  have hb' := h.rep_lt hb
  have hq : ∀ y, (Partition.mk (p.parent.setIfInBounds (rep b) (rep a))).parentOf y =
      if y = rep b then rep a else p.parentOf y := parentOf_set (h.size_eq ▸ hb') _
  have of_rep : ∀ y, rep y ≠ rep b → merge rep a b y = rep y := fun y e => if_neg e
  have to_a : ∀ y, rep y = rep b → merge rep a b y = rep a := fun y e => if_pos e
  obtain ⟨height, hh⟩ := h.climbs
  refine ⟨by simp [h.size_eq], ?_, ?_, ?_,
    fun y => if rep y = rep a then height y + (height (rep b) + 1) else height y, ?_⟩
  · intro y hy
    rw [hq]
    split
    · exact ha'
    · exact h.parent_lt y hy
  · intro y hy
    rw [hq]
    split
    · next e =>
      rw [of_rep _ (by rw [h.rep_rep ha]; exact hne), h.rep_rep ha, e, to_a _ (h.rep_rep hb)]
    · unfold merge
      rw [h.rep_parent y hy]
  · intro y hy
    rw [hq]
    split
    · next e =>
      subst e
      rw [to_a _ (h.rep_rep hb)]
    · next e =>
      rw [h.root_iff y hy]
      by_cases hyb : rep y = rep b
      · rw [to_a y hyb]
        refine iff_of_false (fun e' => e (e' ▸ hyb)) fun e' => ?_
        rw [← e', h.rep_rep ha] at hyb
        exact hne hyb
      · rw [of_rep y hyb]
  · intro y hy hyne
    rw [hq] at hyne ⊢
    dsimp only
    split at hyne
    · next e =>
      have below : ¬ rep y = rep a := by
        rw [e, h.rep_rep hb]
        exact Ne.symm hne
      rw [if_pos e, if_neg below, if_pos (h.rep_rep ha), e]
      omega
    · next e =>
      have := hh y hy hyne
      rw [if_neg e, h.rep_parent y hy]
      split <;> omega

theorem union_of_eq (h : Represents p n rep) (ha : a < n) (hb : b < n) (heq : rep a = rep b) :
    (p.union a b).1 = false ∧ Represents (p.union a b).2 n rep := by
  obtain ⟨e₁, h₁⟩ := h.find ha
  obtain ⟨e₂, h₂⟩ := h₁.find hb
  simp only [union, e₁, e₂, if_pos heq]
  exact ⟨trivial, h₂⟩

theorem union_of_ne (h : Represents p n rep) (ha : a < n) (hb : b < n) (hne : rep a ≠ rep b) :
    (p.union a b).1 = true ∧ Represents (p.union a b).2 n (merge rep a b) := by
  obtain ⟨e₁, h₁⟩ := h.find ha
  obtain ⟨e₂, h₂⟩ := h₁.find hb
  simp only [union, e₁, e₂, if_neg hne]
  exact ⟨trivial, h₂.link ha hb hne⟩

/-- Merging two classes leaves one root fewer. -/
theorem card_roots_merge (h : Represents p n rep) (ha : a < n) (hb : b < n)
    (hne : rep a ≠ rep b) : (roots (merge rep a b) n).card + 1 = (roots rep n).card := by
  have erased : roots (merge rep a b) n = (roots rep n).erase (rep b) := by
    ext y
    rw [Finset.mem_erase, mem_roots, mem_roots]
    unfold merge
    constructor
    · rintro ⟨hy, e⟩
      split at e
      · next hyb =>
        rw [← e, h.rep_rep ha] at hyb
        exact absurd hyb hne
      · next hyb => exact ⟨fun e' => hyb (by rw [e', h.rep_rep hb]), hy, e⟩
    · rintro ⟨hyb, hy, e⟩
      exact ⟨hy, by rw [if_neg (by rwa [e]), e]⟩
  rw [erased]
  exact Finset.card_erase_add_one
    (mem_roots.mpr ⟨h.rep_lt hb, h.rep_rep hb⟩)

theorem card_roots_pos (h : Represents p n rep) (hn : 0 < n) : 0 < (roots rep n).card :=
  Finset.card_pos.mpr ⟨rep 0, mem_roots.mpr ⟨h.rep_lt hn, h.rep_rep hn⟩⟩

/-- There is a single class exactly when there is a single root. -/
theorem card_roots_eq_one_iff (h : Represents p n rep) (hn : 0 < n) :
    (roots rep n).card = 1 ↔ ∀ x y, x < n → y < n → rep x = rep y := by
  have root_mem : ∀ x, x < n → rep x ∈ roots rep n := fun x hx =>
    mem_roots.mpr ⟨h.rep_lt hx, h.rep_rep hx⟩
  constructor
  · intro hc x y hx hy
    obtain ⟨r, hr⟩ := Finset.card_eq_one.mp hc
    have e₁ := root_mem x hx
    have e₂ := root_mem y hy
    rw [hr, Finset.mem_singleton] at e₁ e₂
    rw [e₁, e₂]
  · intro hall
    refine Finset.card_eq_one.mpr ⟨rep 0, Finset.eq_singleton_iff_unique_mem.mpr
      ⟨root_mem 0 hn, fun y hy => ?_⟩⟩
    obtain ⟨hy, e⟩ := mem_roots.mp hy
    rw [← e]
    exact hall y 0 hy hn

end Represents

end Freight.Partition
