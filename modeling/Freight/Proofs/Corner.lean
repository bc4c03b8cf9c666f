import Freight.Proofs.Start

/-!
# The north-west corner as a walk

A walk has passed rows and columns that are closed for good (`Remaining.Passed`), so where it ships is
the first open cell (`Passed.head?_openCells`), and when it leaves the tableau no cell is open
(`Passed.openCells_eq_nil`). Each move passes a line or, with a shipment, closes one, so a bounded
number of moves is enough for all the shipments of the rule (`Sound.cornerWalk?_eq`).
-/

namespace Freight.Remaining

variable {α : Type} [Scalar α] {r : Remaining α} {tol : α} {m n i j : Nat} {c d : Cell}

/-! ## The order of the open cells -/

theorem pairwise_openCellsOn (r : Remaining α) (tol : α) (l : Line) :
    (r.openCellsOn tol l).Pairwise fun a b => a.before b = true := by
  cases l with
  | row i =>
    refine List.pairwise_map.mpr ((pairwise_openPositions tol _).imp fun h => ?_)
    exact Cell.before_iff.mpr (.inr ⟨rfl, h⟩)
  | column j =>
    refine List.pairwise_map.mpr ((pairwise_openPositions tol _).imp fun h => ?_)
    exact Cell.before_iff.mpr (.inl h)

theorem pairwise_openCells (r : Remaining α) (tol : α) :
    (r.openCells tol).Pairwise fun a b => a.before b = true :=
  Cell.pairwise_cross (pairwise_openPositions tol _) (pairwise_openPositions tol _)

theorem row_mem_openLines_iff (h : i < r.supply.length) :
    .row i ∈ r.openLines tol ↔ tol < r.supply.getD i 0 := by
  simp [mem_openLines, left?, List.getD_eq_getElem?_getD, List.getElem?_eq_getElem h]

theorem column_mem_openLines_iff (h : j < r.demand.length) :
    .column j ∈ r.openLines tol ↔ tol < r.demand.getD j 0 := by
  simp [mem_openLines, left?, List.getD_eq_getElem?_getD, List.getElem?_eq_getElem h]

/-! ## Lines behind the walk -/

/-- All rows above a cell and all columns to the left of it are closed. -/
structure Passed (r : Remaining α) (tol : α) (c : Cell) : Prop where
  rows : ∀ i < c.row, .row i ∉ r.openLines tol
  columns : ∀ j < c.col, .column j ∉ r.openLines tol

namespace Passed

/-- An open cell lies ahead. -/
theorem le_of_open (h : r.Passed tol c) (hd : d ∈ r.openCells tol) :
    c.row ≤ d.row ∧ c.col ≤ d.col := by
  obtain ⟨row, column⟩ := mem_openCells.mp hd
  constructor
  · by_contra behind
    exact h.rows _ (not_le.mp behind) row
  · by_contra behind
    exact h.columns _ (not_le.mp behind) column

/-- An open cell that the walk has come to is the first one. -/
theorem head?_openCells (h : r.Passed tol c) (hc : c ∈ r.openCells tol) :
    (r.openCells tol).head? = some c := by
  have sorted := r.pairwise_openCells tol
  have ahead : ∀ d ∈ r.openCells tol, c.row ≤ d.row ∧ c.col ≤ d.col := fun d => h.le_of_open
  cases e : r.openCells tol with
  | nil =>
    rw [e] at hc
    cases hc
  | cons d ds =>
    rw [e] at hc sorted ahead
    rcases List.mem_cons.mp hc with rfl | hc
    · rfl
    · obtain ⟨row, column⟩ := ahead d List.mem_cons_self
      have before := Cell.before_iff.mp ((List.pairwise_cons.mp sorted).1 c hc)
      omega

/-- Conversely, the first open cell has only closed lines above and to the left of it. -/
theorem of_head? (h : (r.openCells tol).head? = some c) : r.Passed tol c := by
  obtain ⟨ds, e⟩ := List.head?_eq_some_iff.mp h
  obtain ⟨row, column⟩ := mem_openCells.mp (List.mem_of_mem_head? h)
  have sorted := r.pairwise_openCells tol
  rw [e] at sorted
  have first : ∀ d ∈ r.openCells tol, d = c ∨ c.before d = true := fun d hd =>
    (List.mem_cons.mp (e ▸ hd)).imp_right ((List.pairwise_cons.mp sorted).1 d)
  refine ⟨fun i hi hm => ?_, fun j hj hm => ?_⟩
  · rcases first ⟨i, c.col⟩ (mem_openCells.mpr ⟨hm, column⟩) with same | before
    · exact Nat.ne_of_lt hi (congrArg Cell.row same)
    · have := Cell.before_iff.mp before
      simp only at this
      omega
  · rcases first ⟨c.row, j⟩ (mem_openCells.mpr ⟨row, hm⟩) with same | before
    · exact Nat.ne_of_lt hj (congrArg Cell.col same)
    · have := Cell.before_iff.mp before
      simp only at this
      omega

/-- When the walk has left the tableau, no cell is open. -/
theorem openCells_eq_nil (h : r.Passed tol c) (hr : r.Sound m n) (out : ¬ (c.row < m ∧ c.col < n)) :
    r.openCells tol = [] := by
  apply List.eq_nil_iff_forall_not_mem.mpr
  intro d hd
  obtain ⟨row, column⟩ := h.le_of_open hd
  obtain ⟨hrow, hcol⟩ := Cell.mem_grid.mp (hr.mem_grid hd)
  omega

theorem down (h : r.Passed tol c) (closed : .row c.row ∉ r.openLines tol) :
    r.Passed tol ⟨c.row + 1, c.col⟩ := by
  refine ⟨fun i hi => ?_, h.columns⟩
  rcases Nat.lt_succ_iff_lt_or_eq.mp hi with hi | rfl
  · exact h.rows i hi
  · exact closed

theorem right (h : r.Passed tol c) (closed : .column c.col ∉ r.openLines tol) :
    r.Passed tol ⟨c.row, c.col + 1⟩ := by
  refine ⟨h.rows, fun j hj => ?_⟩
  rcases Nat.lt_succ_iff_lt_or_eq.mp hj with hj | rfl
  · exact h.columns j hj
  · exact closed

/-- Lines do not open again. -/
theorem ship (h : r.Passed tol c) (hd : d ∈ r.openCells tol) : (r.ship d).Passed tol c :=
  ⟨fun i hi hm => h.rows i hi (openLines_ship_subset hd _ hm),
    fun j hj hm => h.columns j hj (openLines_ship_subset hd _ hm)⟩

end Passed

/-! ## The walk -/

section Separated

variable [Scalar.Separated α]

/-- A line is open only under a tolerance that is finite. -/
theorem Sound.isFinite_of_open (h : r.Sound m n) (hpos : 0 ≤ tol) {l : Line}
    (hl : l ∈ r.openLines tol) : Scalar.isFinite tol = true := by
  obtain ⟨x, hx, lt⟩ := mem_openLines.mp hl
  exact Scalar.Separated.isFinite_of_lt hpos lt (h.finite l x hx)

/-- With more moves than there are lines ahead and open lines, the walk makes the shipments of the
rule. -/
theorem Sound.cornerWalk?_eq (hpos : 0 ≤ tol) : ∀ (moves limit : Nat) {c : Cell} {r : Remaining α},
    r.Sound m n → r.Passed tol c →
    (m - c.row) + (n - c.col) + (r.openLines tol).length < moves →
    (r.openLines tol).length ≤ limit →
    cornerWalk? tol moves c r = shipUpTo? (fun r => some (r.openCells tol).head?) limit r
  | 0, _, _, _, _, _, few, _ => absurd few (Nat.not_lt_zero _)
  | moves + 1, limit, c, r, h, passed, few, enough => by
    rw [cornerWalk?, h.supply_length, h.demand_length]
    by_cases inside : c.row < m ∧ c.col < n
    · have row : .row c.row ∈ r.openLines tol ↔ tol < r.supply.getD c.row 0 :=
        row_mem_openLines_iff (h.supply_length.symm ▸ inside.1)
      have column : .column c.col ∈ r.openLines tol ↔ tol < r.demand.getD c.col 0 :=
        column_mem_openLines_iff (h.demand_length.symm ▸ inside.2)
      rw [if_pos inside]
      by_cases hr : tol < r.supply.getD c.row 0
      · by_cases hc : tol < r.demand.getD c.col 0
        · -- Both lines are open: a shipment, which closes one of them.
          have hopen : c ∈ r.openCells tol := mem_openCells.mpr ⟨row.mpr hr, column.mpr hc⟩
          have ht := h.isFinite_of_open hpos (row.mpr hr)
          have fewer := h.length_openLines_ship ht hpos hopen
          cases limit with
          | zero => omega
          | succ limit =>
            have walk := Sound.cornerWalk?_eq hpos moves limit (h.ship ht hpos hopen)
              (passed.ship hopen) (by omega) (by omega)
            rw [if_neg (not_not.mpr hr), if_neg (not_not.mpr hc), walk]
            exact (shipUpTo?_of_some (congrArg some (passed.head?_openCells hopen))
              (h.inside hopen) limit).symm
        · rw [if_neg (not_not.mpr hr), if_pos hc]
          refine Sound.cornerWalk?_eq hpos moves limit h (passed.right (mt column.mp hc)) ?_ enough
          simp only
          omega
      · rw [if_pos hr]
        refine Sound.cornerWalk?_eq hpos moves limit h (passed.down (mt row.mp hr)) ?_ enough
        simp only
        omega
    · rw [if_neg inside]
      have closed := passed.openCells_eq_nil h inside
      exact (shipUpTo?_of_none (by rw [closed]; rfl) limit).symm

end Separated

end Freight.Remaining
