import Freight.Proofs.Choice
import Freight.Proofs.Shipments

/-!
# Least cost in a single pass

Sorting by cost keeps equally dear cells in row-major order, so the sorted cells come by cost, row and
column (`Table.Fits.pairwise_byCost`). A pass over them is at any time through with closed cells only:
the cells that are still open lie ahead (`Remaining.Sound.shipUpTo?_eq_pass`). If the next one is open,
it is the one that the search through all open cells finds; if it is closed, it stays closed.

Main statement: the least-cost start fills the table of one pass (`StartRule.leastCost_eq_singlePass`).
-/

namespace Freight

/-! ## Pairs in a list -/

/-- In a list without duplicates no two elements stand in both orders. -/
theorem not_sublist_of_swapped {β : Type} {a b : β} {l : List β} (nodup : l.Nodup)
    (h : [a, b].Sublist l) : ¬ [b, a].Sublist l := by
  induction l with
  | nil => cases h
  | cons x l ih =>
    obtain ⟨new, nodup⟩ := List.nodup_cons.mp nodup
    intro h'
    rcases List.sublist_cons_iff.mp h with later | ⟨_, e, later⟩
    · rcases List.sublist_cons_iff.mp h' with later' | ⟨_, e', -⟩
      · exact ih nodup later later'
      · cases e'
        exact new (later.subset (List.mem_cons_of_mem a List.mem_cons_self))
    · cases e
      rcases List.sublist_cons_iff.mp h' with later' | ⟨_, e', -⟩
      · exact new (later'.subset (List.mem_cons_of_mem b List.mem_cons_self))
      · cases e'
        exact new (later.subset List.mem_cons_self)

/-- Two elements stand in the order of a sorted list. -/
theorem sublist_of_pairwise {β : Type} {R : β → β → Prop} {a b : β} {l : List β}
    (asymm : ∀ x y, R x y → ¬ R y x) (sorted : l.Pairwise R) (ha : a ∈ l) (hb : b ∈ l) (h : R a b) :
    [a, b].Sublist l := by
  induction l with
  | nil => cases ha
  | cons x l ih =>
    obtain ⟨first, sorted⟩ := List.pairwise_cons.mp sorted
    rcases List.mem_cons.mp ha with rfl | ha'
    · rcases List.mem_cons.mp hb with rfl | hb
      · exact absurd h (asymm _ _ h)
      · exact (List.singleton_sublist.mpr hb).cons_cons a
    · rcases List.mem_cons.mp hb with rfl | hb
      · exact absurd h (asymm _ _ (first a ha'))
      · exact (ih sorted ha' hb).cons x

variable {α : Type} [Scalar α] {costs : Table α} {cs : List Cell} {c : Cell} {tol : α} {m n : Nat}
  {r : Remaining α}

/-! ## Cells in ascending order of cost -/

namespace Table

/-- Finite entries are finite for any cell, inside or outside of the table. -/
theorem isFinite_entry [Scalar.Lawful α] (h : ∀ x ∈ costs.data, Scalar.isFinite x = true)
    (c : Cell) : Scalar.isFinite (costs.entry c) = true := by
  rw [entry]
  cases e : costs.get? c with
  | none => exact Scalar.Lawful.isFinite_zero
  | some x => exact h x (Array.mem_of_getElem? e)

namespace Fits

theorem byCost_perm (h : costs.Fits m n) : costs.byCost.Perm (Cell.grid m n) := by
  rw [byCost, h.cells_eq]
  exact List.mergeSort_perm _ _

variable [Scalar.Lawful α] (finite : ∀ c, Scalar.isFinite (costs.entry c) = true)

include finite

/-- The sorted cells come by cost, row and column. -/
theorem pairwise_byCost (h : costs.Fits m n) : costs.byCost.Pairwise costs.Precedes := by
  have trans : ∀ a b c : Cell, decide (costs.entry a ≤ costs.entry b) = true →
      decide (costs.entry b ≤ costs.entry c) = true → decide (costs.entry a ≤ costs.entry c) = true :=
    fun a b c hab hbc => decide_eq_true
      (Scalar.Lawful.le_trans (of_decide_eq_true hab) (of_decide_eq_true hbc))
  have total : ∀ a b : Cell, (decide (costs.entry a ≤ costs.entry b) ||
      decide (costs.entry b ≤ costs.entry a)) = true := by
    intro a b
    rw [Bool.or_eq_true, decide_eq_true_eq, decide_eq_true_eq]
    exact Scalar.Lawful.le_total (finite a) (finite b)
  have perm := h.byCost_perm
  rw [List.pairwise_iff_forall_sublist]
  intro a b sub
  have ascending := List.pairwise_mergeSort trans total costs.cells
  have le : costs.entry a ≤ costs.entry b :=
    of_decide_eq_true (List.pairwise_iff_forall_sublist.mp ascending sub)
  by_cases tie : costs.entry b ≤ costs.entry a
  · refine .inr ⟨⟨le, tie⟩, ?_⟩
    -- If the grid had them the other way round, sorting would have left them so.
    by_contra behind
    rcases Cell.eq_or_before behind with rfl | before
    · exact (List.nodup_iff_sublist.mp (perm.nodup_iff.mpr (Cell.nodup_grid m n)) a) sub
    · have asymm : ∀ x y : Cell, x.before y = true → ¬ y.before x = true :=
        fun x y h h' => Cell.not_before_self x (Cell.before_trans h h')
      have hb := perm.mem_iff.mp (sub.subset (by simp : b ∈ [a, b]))
      have ha := perm.mem_iff.mp (sub.subset (by simp : a ∈ [a, b]))
      have swapped : [b, a].Sublist costs.cells := by
        rw [h.cells_eq]
        exact sublist_of_pairwise asymm (Cell.pairwise_grid m n) hb ha before
      exact not_sublist_of_swapped (perm.nodup_iff.mpr (Cell.nodup_grid m n)) sub
        (List.pair_sublist_mergeSort trans total (decide_eq_true tie) swapped)
  · exact .inl ((Scalar.Lawful.lt_iff_not_le (finite a) (finite b)).mpr tie)

end Fits

end Table

/-! ## The pass -/

namespace Remaining

theorem isOpen_iff (hr : c.row < r.supply.length) (hc : c.col < r.demand.length) :
    r.isOpen tol c = true ↔ c ∈ r.openCells tol := by
  rw [isOpen, Bool.and_eq_true, decide_eq_true_eq, decide_eq_true_eq, mem_openCells,
    row_mem_openLines_iff hr, column_mem_openLines_iff hc]

/-- An open cell that no other open cell precedes is the one that the search finds. -/
theorem Sound.cheapest?_openCells [Scalar.Lawful α] (h : r.Sound m n) (hc : costs.Fits m n)
    (finite : ∀ c, Scalar.isFinite (costs.entry c) = true) (hopen : c ∈ r.openCells tol)
    (first : ∀ d ∈ r.openCells tol, d = c ∨ costs.Precedes c d) :
    costs.cheapest? (r.openCells tol) = some (some c) := by
  obtain ⟨o, e, empty, -⟩ := hc.exists_cheapest? fun d (hd : d ∈ r.openCells tol) => h.mem_grid hd
  cases o with
  | none =>
    rw [empty rfl] at hopen
    cases hopen
  | some d =>
    have found := Table.firstCheapest_of_cheapest? finite e
    rcases first d found.mem with rfl | precedes
    · exact e
    · rcases found.precedes finite (pairwise_openCells r tol) c hopen with rfl | precedes'
      · exact e
      · exact absurd precedes' (precedes.asymm finite)

/-- With all open cells ahead, a pass over sorted cells makes the shipments of the rule. -/
theorem Sound.shipUpTo?_eq_pass [Scalar.Separated α] (hpos : 0 ≤ tol) (hc : costs.Fits m n)
    (finite : ∀ c, Scalar.isFinite (costs.entry c) = true) (sorted : cs.Pairwise costs.Precedes)
    (inside : ∀ c ∈ cs, c ∈ Cell.grid m n) {limit : Nat} (h : r.Sound m n)
    (ahead : ∀ c ∈ r.openCells tol, c ∈ cs) (enough : (r.openLines tol).length ≤ limit) :
    shipUpTo? (StartRule.leastCost.choose? costs tol) limit r = some (pass tol cs r) := by
  induction cs generalizing r limit with
  | nil =>
    refine shipUpTo?_of_none ?_ limit
    rw [StartRule.choose?, List.eq_nil_iff_forall_not_mem.mpr fun c hc => List.not_mem_nil (ahead c hc)]
    rfl
  | cons c cs ih =>
    obtain ⟨first, sorted⟩ := List.pairwise_cons.mp sorted
    obtain ⟨hrow, hcol⟩ := Cell.mem_grid.mp (inside c List.mem_cons_self)
    have inside : ∀ d ∈ cs, d ∈ Cell.grid m n := fun d hd => inside d (List.mem_cons_of_mem c hd)
    have isOpen : r.isOpen tol c = true ↔ c ∈ r.openCells tol :=
      isOpen_iff (h.supply_length.symm ▸ hrow) (h.demand_length.symm ▸ hcol)
    by_cases hopen : c ∈ r.openCells tol
    · have ht := h.isFinite_of_open hpos (Remaining.mem_openCells.mp hopen).1
      have chosen := h.cheapest?_openCells hc finite hopen fun d hd =>
        (List.mem_cons.mp (ahead d hd)).imp_right (first d)
      -- The shipment closes a line of its cell, so the cells that stay open are behind it.
      have later : ∀ d ∈ (r.ship c).openCells tol, d ∈ cs := by
        intro d hd
        refine (List.mem_cons.mp (ahead d (openCells_ship_subset hopen d hd))).resolve_left ?_
        rintro rfl
        obtain ⟨l, hl, closed⟩ := h.closes ht hpos hopen
        exact closed (mem_openLines_of_through hd hl)
      have fewer := h.length_openLines_ship ht hpos hopen
      cases limit with
      | zero => omega
      | succ limit =>
        rw [shipUpTo?_of_some chosen (h.inside hopen),
          ih sorted inside (h.ship ht hpos hopen) later (by omega), pass, if_pos (isOpen.mpr hopen),
          h.load_eq ht hpos hopen]
        rfl
    · rw [pass, if_neg (mt isOpen.mp hopen)]
      refine ih sorted inside h (fun d hd => ?_) enough
      refine (List.mem_cons.mp (ahead d hd)).resolve_left ?_
      rintro rfl
      exact hopen hd

end Remaining

/-- The least-cost start, which searches all open cells anew for each shipment, and one pass over all
cells. The pass comes to each cell once, by cost, row and column, and ships on it the smaller of what
its lines have left, if both have more than the tolerance. Both make the same shipments and fill the
same table, for finite costs, supplies and demands and under any tolerance that is not negative. -/
theorem StartRule.leastCost_eq_singlePass {α : Type} [Scalar α] [Scalar.Separated α]
    (supply demand : List α) (costs : Table α) (tol : α)
    (hs : ∀ x ∈ supply, Scalar.isFinite x = true) (hd : ∀ x ∈ demand, Scalar.isFinite x = true)
    (hcosts : ∀ x ∈ costs.data, Scalar.isFinite x = true)
    (hc : costs.Fits supply.length demand.length) (hpos : 0 ≤ tol) :
    costs.byCost.Perm (Cell.grid supply.length demand.length) ∧
      costs.byCost.Pairwise costs.Precedes ∧
      leastCost.shipments? supply demand costs tol =
        some (Remaining.pass tol costs.byCost ⟨supply, demand⟩) ∧
      ∃ t, leastCost.plan? supply demand costs tol = some t ∧
        costs.singlePass? supply demand tol = some t := by
  have hr : (Remaining.mk supply demand).Sound supply.length demand.length :=
    ⟨rfl, rfl, Remaining.forall_left? hs hd⟩
  have finite := Table.isFinite_entry hcosts
  have perm := hc.byCost_perm
  have sorted := hc.pairwise_byCost finite
  have same : leastCost.shipments? supply demand costs tol =
      some (Remaining.pass tol costs.byCost ⟨supply, demand⟩) :=
    hr.shipUpTo?_eq_pass hpos hc finite sorted (fun c hm => perm.mem_iff.mp hm)
      (fun c hm => perm.mem_iff.mpr (hr.mem_grid hm)) (Nat.le_refl _)
  obtain ⟨ss, t, filled⟩ := leastCost.exists_filled hr hc hpos
  refine ⟨perm, sorted, same, t, filled.plan, ?_⟩
  rw [← filled.plan, plan?_eq same]
  rfl

/-- Three routes tie for the lowest cost. The first one empties its source, so the second is passed
over, and half a unit that another source has left is not worth shipping. -/
theorem StartRule.leastCost_eq_singlePass_ties :
    let supply : List Rat := [3, 9 / 2, 2]
    let demand : List Rat := [4, 3, 2]
    let costs : Table Rat := ⟨3, 3, #[4, 1, 1, 1, 6, 2, 5, 7, 2]⟩
    let half : Rat := 1 / 2
    let shipped : Table Rat := ⟨3, 3, #[0, 3, 0, 4, 0, 0, 0, 0, 2]⟩
    (∀ x ∈ supply, Scalar.isFinite x = true) ∧ (∀ x ∈ demand, Scalar.isFinite x = true) ∧
      (∀ x ∈ costs.data, Scalar.isFinite x = true) ∧ costs.Fits 3 3 ∧ 0 ≤ half ∧
      costs.Precedes ⟨0, 2⟩ ⟨1, 0⟩ ∧ leastCost.plan? supply demand costs half = some shipped ∧
      costs.singlePass? supply demand half = some shipped := by
  intro supply demand costs half shipped
  have hc : costs.Fits 3 3 := ⟨rfl, rfl, rfl⟩
  have hpos : 0 ≤ half := by decide +kernel
  have plan : leastCost.plan? supply demand costs half = some shipped := by decide +kernel
  obtain ⟨-, -, -, t, e, pass⟩ := leastCost_eq_singlePass supply demand costs half
    (fun _ _ => rfl) (fun _ _ => rfl) (fun _ _ => rfl) hc hpos
  rw [plan] at e
  cases e
  have tie : costs.Precedes ⟨0, 2⟩ ⟨1, 0⟩ := .inr (by decide +kernel)
  exact ⟨fun _ _ => rfl, fun _ _ => rfl, fun _ _ => rfl, hc, hpos, tie, plan, pass⟩

end Freight
