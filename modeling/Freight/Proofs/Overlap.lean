import Freight.Proofs.Conservation
import Freight.Proofs.Shipments
import Mathlib.Algebra.Order.Group.MinMax

/-!
# The north-west corner in closed form

Supplies laid end to end cut a line into intervals, one for each source, and demands cut it into
intervals, one for each destination. A route carries the length that its two intervals share.

The first open cell has nothing left above and to the left of it, so its shipment takes the first piece
of both cuts (`Remaining.overlap_ship`): the shared length of its cell goes down by the shipment, and
the others only move. With no open cell one side has nothing left, and nothing is shared.

Main statement: that closed form, for the rule and for the walk (`StartRule.northWestCorner_eq_overlap`).
-/

namespace Freight

open Scalar

variable {m n : Nat} {c d : Cell} {x q tol : Rat} {xs supply demand : List Rat} {r : Remaining Rat}
  {ss : List (Shipment Rat)}

/-- Where the interval with a given number begins when lengths are laid end to end. -/
def boundary (lengths : List Rat) (k : Nat) : Rat := (lengths.take k).sum

/-- The length that the interval of a source and that of a destination share. -/
def overlap (supply demand : List Rat) (c : Cell) : Rat :=
  max 0 (min (boundary supply (c.row + 1)) (boundary demand (c.col + 1)) -
    max (boundary supply c.row) (boundary demand c.col))

/-! ## Boundaries -/

section Boundary

variable {i k : Nat}

theorem boundary_nonneg (hn : ∀ x ∈ xs, 0 ≤ x) (k : Nat) : 0 ≤ boundary xs k :=
  List.sum_nonneg fun x hx => hn x (List.mem_of_mem_take hx)

theorem boundary_mono (hn : ∀ x ∈ xs, 0 ≤ x) (h : i ≤ k) : boundary xs i ≤ boundary xs k :=
  (List.take_sublist_take_left h).sum_le_sum fun x hx => hn x (List.mem_of_mem_take hx)

theorem boundary_succ (hx : xs[k]? = some x) : boundary xs (k + 1) = boundary xs k + x := by
  obtain ⟨hk, rfl⟩ := List.getElem?_eq_some_iff.mp hx
  exact List.sum_take_succ xs k hk

/-- Lengths of nothing do not move the boundary. -/
theorem boundary_eq_zero (h : ∀ i < k, ∀ x, xs[i]? = some x → x = 0) : boundary xs k = 0 := by
  refine List.sum_eq_zero fun x hx => ?_
  obtain ⟨i, hi⟩ := List.getElem?_of_mem hx
  have hik : i < k :=
    Nat.lt_of_lt_of_le (List.getElem?_eq_some_iff.mp hi).1 (List.length_take_le k xs)
  rw [List.getElem?_take_of_lt hik] at hi
  exact h i hik x hi

/-- A piece cut off one length moves the boundaries behind it. -/
theorem boundary_modify_of_lt (hi : i < xs.length) (h : i < k) (q : Rat) :
    boundary (xs.modify i (· - q)) k = boundary xs k - q := by
  rw [boundary, List.take_modify, Remaining.sum_modify_sub (by rw [List.length_take]; omega)]
  rfl

theorem boundary_modify_of_le (h : k ≤ i) (q : Rat) :
    boundary (xs.modify i (· - q)) k = boundary xs k := by
  rw [boundary, List.take_modify, List.modify_eq_self (by rw [List.length_take]; omega)]
  rfl

end Boundary

/-! ## Shared lengths -/

/-- Nothing is shared with an interval that ends at the beginning of the line. -/
theorem overlap_eq_zero (hs : ∀ x ∈ supply, 0 ≤ x)
    (h : boundary supply (c.row + 1) = 0 ∨ boundary demand (c.col + 1) = 0) :
    overlap supply demand c = 0 := by
  refine max_eq_left (sub_nonpos.mpr ?_)
  have start : 0 ≤ max (boundary supply c.row) (boundary demand c.col) :=
    (boundary_nonneg hs _).trans (le_max_left _ _)
  rcases h with h | h
  · exact ((min_le_left _ _).trans h.le).trans start
  · exact ((min_le_right _ _).trans h.le).trans start

/-- Intervals that end earlier, and of which the later one begins earlier by as much, share the
same. -/
theorem overlap_of_shift {supply' demand' : List Rat}
    (rows : boundary supply' (c.row + 1) = boundary supply (c.row + 1) - q)
    (columns : boundary demand' (c.col + 1) = boundary demand (c.col + 1) - q)
    (start : max (boundary supply' c.row) (boundary demand' c.col) =
      max (boundary supply c.row) (boundary demand c.col) - q) :
    overlap supply' demand' c = overlap supply demand c := by
  rw [overlap, overlap, rows, columns, start, min_sub_sub_right, sub_sub_sub_cancel_right]

namespace Remaining

/-- Without an open cell nothing is shared. -/
theorem overlap_eq_zero_of_closed (small : tol < 1) (hn : r.Nonneg) (hi : r.Integral)
    (closed : r.openCells tol = []) (d : Cell) : overlap r.supply r.demand d = 0 := by
  refine overlap_eq_zero hn.supply ?_
  rcases closed_of_openCells_eq_nil closed with rows | columns
  · exact .inl (boundary_eq_zero fun i _ x hx =>
      hi.eq_zero hn small (l := .row i) hx (rows x (List.mem_of_getElem? hx)))
  · exact .inr (boundary_eq_zero fun j _ x hx =>
      hi.eq_zero hn small (l := .column j) hx (columns x (List.mem_of_getElem? hx)))

section Step

variable (h : r.Sound m n) (hpos : 0 ≤ tol) (small : tol < 1) (hn : r.Nonneg) (hi : r.Integral)

include h hpos small hn hi

/-- What the cell of the first shipment shares goes down by the shipment, and the other cells share as
much as before. -/
theorem Sound.overlap_ship (hc : c ∈ r.openCells tol) (passed : r.Passed tol c) (d : Cell) :
    overlap r.supply r.demand d = (if d = c then r.capacity c else 0) +
      overlap (r.ship c).supply (r.ship c).demand d := by
  have above : ∀ k ≤ c.row, boundary r.supply k = 0 := fun k hk => boundary_eq_zero fun i hik x hx =>
    hi.eq_zero_of_closed hn small (passed.rows i (Nat.lt_of_lt_of_le hik hk)) hx
  have left : ∀ k ≤ c.col, boundary r.demand k = 0 := fun k hk => boundary_eq_zero fun j hjk x hx =>
    hi.eq_zero_of_closed hn small (passed.columns j (Nat.lt_of_lt_of_le hjk hk)) hx
  obtain ⟨hrow, hcol⟩ := h.inside hc
  obtain ⟨s, t, hs, ht, quantity⟩ := h.capacity_cases rfl hpos hc
  have first : boundary r.supply (c.row + 1) = s := by
    rw [boundary_succ hs, above _ le_rfl, zero_add]
  have first' : boundary r.demand (c.col + 1) = t := by
    rw [boundary_succ ht, left _ le_rfl, zero_add]
  have hmin : min s t = r.capacity c := by
    rcases quantity with ⟨e, hle⟩ | ⟨e, hle⟩
    · rw [e, min_eq_left hle]
    · rw [e, min_eq_right hle]
  have amount : 0 ≤ r.capacity c := positivePart_nonneg _
  have rest := hn.ship hpos h hc
  have rows : ∀ k, c.row < k → boundary (r.ship c).supply k = boundary r.supply k - r.capacity c :=
    fun k hk => boundary_modify_of_lt hrow hk _
  have columns : ∀ k, c.col < k → boundary (r.ship c).demand k = boundary r.demand k - r.capacity c :=
    fun k hk => boundary_modify_of_lt hcol hk _
  have above' : ∀ k ≤ c.row, boundary (r.ship c).supply k = 0 := fun k hk =>
    (boundary_modify_of_le hk _).trans (above k hk)
  have left' : ∀ k ≤ c.col, boundary (r.ship c).demand k = 0 := fun k hk =>
    (boundary_modify_of_le hk _).trans (left k hk)
  by_cases behind : d.row < c.row ∨ d.col < c.col
  · -- The interval of a line that is behind is empty, before and after.
    have ne : d ≠ c := by
      rintro rfl
      omega
    have none : boundary r.supply (d.row + 1) = 0 ∨ boundary r.demand (d.col + 1) = 0 :=
      behind.imp (above _) (left _)
    have none' : boundary (r.ship c).supply (d.row + 1) = 0 ∨
        boundary (r.ship c).demand (d.col + 1) = 0 := behind.imp (above' _) (left' _)
    rw [if_neg ne, overlap_eq_zero hn.supply none,
      overlap_eq_zero rest.supply none', zero_add]
  · have ahead : c.row ≤ d.row ∧ c.col ≤ d.col := by omega
    have endRow := rows (d.row + 1) (Nat.lt_succ_of_le ahead.1)
    have endColumn := columns (d.col + 1) (Nat.lt_succ_of_le ahead.2)
    rcases Nat.eq_or_lt_of_le ahead.1 with row | row
    · rcases Nat.eq_or_lt_of_le ahead.2 with column | column
      · -- The cell of the shipment itself: both intervals begin at the beginning of the line.
        obtain rfl : c = d := congrArg₂ Cell.mk row column
        rw [if_pos rfl, overlap, overlap, endRow, endColumn, first, first', above _ le_rfl,
          left _ le_rfl, above' _ le_rfl, left' _ le_rfl, min_sub_sub_right, hmin, max_self, sub_zero,
          sub_self, sub_zero, max_self, max_eq_right amount, add_zero]
      · have far : r.capacity c ≤ boundary r.demand d.col := by
          rw [← hmin]
          exact ((min_le_right s t).trans first'.ge).trans (boundary_mono hn.demand column)
        rw [if_neg (by rintro rfl; omega), zero_add]
        refine (overlap_of_shift endRow endColumn ?_).symm
        rw [above _ row.ge, above' _ row.ge, columns _ column, max_eq_right (sub_nonneg.mpr far),
          max_eq_right (amount.trans far)]
    · rw [if_neg (by rintro rfl; omega), zero_add]
      refine (overlap_of_shift endRow endColumn ?_).symm
      rcases Nat.eq_or_lt_of_le ahead.2 with column | column
      · have far : r.capacity c ≤ boundary r.supply d.row := by
          rw [← hmin]
          exact ((min_le_left s t).trans first.ge).trans (boundary_mono hn.supply row)
        rw [left _ column.ge, left' _ column.ge, rows _ row, max_eq_left (sub_nonneg.mpr far),
          max_eq_left (amount.trans far)]
      · rw [rows _ row, columns _ column, max_sub_sub_right]

end Step

/-- The shipments of the north-west corner are the shared lengths, and there are no others. -/
theorem Sound.overlap_eq_quantity (hpos : 0 ≤ tol) (small : tol < 1) {limit : Nat} (h : r.Sound m n)
    (hn : r.Nonneg) (hi : r.Integral) (enough : (r.openLines tol).length ≤ limit)
    (e : shipUpTo? (fun r => some (r.openCells tol).head?) limit r = some ss)
    (nodup : (ss.map Shipment.cell).Nodup) :
    (∀ s ∈ ss, overlap r.supply r.demand s.cell = s.quantity) ∧
      ∀ d ∉ ss.map Shipment.cell, overlap r.supply r.demand d = 0 := by
  induction limit generalizing r ss with
  | zero =>
    cases e
    have closed : r.openCells tol = [] := List.eq_nil_iff_forall_not_mem.mpr fun c hc => by
      have := List.length_pos_of_mem (mem_openCells.mp hc).1
      omega
    exact ⟨fun s hs => absurd hs List.not_mem_nil,
      fun d _ => overlap_eq_zero_of_closed small hn hi closed d⟩
  | succ limit ih =>
    obtain ⟨done, rfl⟩ | ⟨c, rest, -, chosen, erest, rfl⟩ := shipUpTo?_cases e
    · have closed := List.head?_eq_none_iff.mp (Option.some.inj done)
      exact ⟨fun s hs => absurd hs List.not_mem_nil,
        fun d _ => overlap_eq_zero_of_closed small hn hi closed d⟩
    · have first := Option.some.inj chosen
      have hc := List.mem_of_mem_head? first
      have step := h.overlap_ship hpos small hn hi hc (Passed.of_head? first)
      have fewer := h.length_openLines_ship rfl hpos hc
      obtain ⟨new, nodup⟩ : c ∉ rest.map Shipment.cell ∧ (rest.map Shipment.cell).Nodup :=
        List.nodup_cons.mp nodup
      obtain ⟨shipped, others⟩ := ih (h.ship rfl hpos hc) (hn.ship hpos h hc) (hi.ship hpos h hc)
        (by omega) erest nodup
      constructor
      · intro s hs
        rcases List.mem_cons.mp hs with rfl | later
        · rw [step, if_pos rfl, others c new, add_zero]
        · have ne : s.cell ≠ c := by
            rintro rfl
            exact new (List.mem_map_of_mem later)
          rw [step, if_neg ne, zero_add, shipped s later]
      · intro d hd
        rw [List.map_cons, List.mem_cons, not_or] at hd
        rw [step, if_neg hd.1, zero_add, others d hd.2]

end Remaining

/-- The north-west corner start of integer amounts, balanced or not, under a tolerance below one. The
rule, and the walk too if it has two moves for each line and one more, fill a table in which each route
carries the length that the interval of its source and that of its destination share. -/
theorem StartRule.northWestCorner_eq_overlap (supply demand : List Rat) (costs : Table Rat) (tol : Rat)
    (hs : ∀ x ∈ supply, 0 ≤ x ∧ IsInteger x) (hd : ∀ x ∈ demand, 0 ≤ x ∧ IsInteger x)
    (hc : costs.Fits supply.length demand.length) (hpos : 0 ≤ tol) (small : tol < 1) :
    ∃ t, northWestCorner.plan? supply demand costs tol = some t ∧
      (∀ moves, 2 * (supply.length + demand.length) < moves →
        (Remaining.cornerWalk? tol moves ⟨0, 0⟩ ⟨supply, demand⟩).bind
          (Table.fill costs.rows costs.cols 0).receive? = some t) ∧
      t.Fits supply.length demand.length ∧
      ∀ i < supply.length, ∀ j < demand.length,
        t.get? ⟨i, j⟩ = some (overlap supply demand ⟨i, j⟩) := by
  have hr : (Remaining.mk supply demand).Sound supply.length demand.length :=
    Remaining.sound_rat _
  have nonneg : (Remaining.mk supply demand).Nonneg :=
    Remaining.forall_left? (fun x hx => (hs x hx).1) fun x hx => (hd x hx).1
  have integral : (Remaining.mk supply demand).Integral :=
    Remaining.forall_left? (fun x hx => (hs x hx).2) fun x hx => (hd x hx).2
  obtain ⟨ss, t, filled⟩ := northWestCorner.exists_filled hr hc hpos
  obtain ⟨shipped, others⟩ := hr.overlap_eq_quantity hpos small nonneg integral le_rfl
    filled.shipments?_eq filled.nodup
  have above : countAbove tol supply + countAbove tol demand ≤ supply.length + demand.length :=
    Nat.add_le_add List.countP_le_length List.countP_le_length
  refine ⟨t, filled.plan, fun moves enough => ?_, filled.holds.fits, fun i hi j hj => ?_⟩
  · rw [filled.cornerWalk?_eq hr hpos (by omega), ← filled.plan, plan?_eq filled.shipments?_eq]
    rfl
  · by_cases hm : (⟨i, j⟩ : Cell) ∈ ss.map Shipment.cell
    · obtain ⟨s, hs, e⟩ := List.mem_map.mp hm
      rw [← e, filled.holds.shipped s hs, shipped s hs]
    · rw [filled.holds.empty _ (Cell.mem_grid.mpr ⟨hi, hj⟩) hm, others _ hm]

/-- Seven units for eleven: one source has nothing, the first shipment serves both of its lines, and
the last destination waits for four units in vain. -/
theorem StartRule.northWestCorner_eq_overlap_unmet :
    let supply : List Rat := [3, 0, 4]
    let demand : List Rat := [3, 1, 2, 5]
    let costs : Table Rat := ⟨3, 4, #[9, 1, 1, 1, 1, 1, 1, 1, 1, 9, 9, 9]⟩
    let half : Rat := 1 / 2
    let shipped : Table Rat := ⟨3, 4, #[3, 0, 0, 0, 0, 0, 0, 0, 0, 1, 2, 1]⟩
    (∀ x ∈ supply, 0 ≤ x ∧ IsInteger x) ∧ (∀ x ∈ demand, 0 ≤ x ∧ IsInteger x) ∧
      costs.Fits 3 4 ∧ 0 ≤ half ∧ half < 1 ∧
      northWestCorner.plan? supply demand costs half = some shipped ∧
      (Remaining.cornerWalk? half 15 ⟨0, 0⟩ ⟨supply, demand⟩).bind
        (Table.fill 3 4 0).receive? = some shipped ∧
      overlap supply demand ⟨2, 2⟩ = 2 ∧ overlap supply demand ⟨2, 3⟩ = 1 ∧
      overlap supply demand ⟨0, 1⟩ = 0 := by
  intro supply demand costs half shipped
  have hs : ∀ x ∈ supply, 0 ≤ x ∧ IsInteger x := by decide +kernel
  have hd : ∀ x ∈ demand, 0 ≤ x ∧ IsInteger x := by decide +kernel
  have hc : costs.Fits 3 4 := ⟨rfl, rfl, rfl⟩
  have hpos : 0 ≤ half := by decide +kernel
  have small : half < 1 := by decide +kernel
  have plan : northWestCorner.plan? supply demand costs half = some shipped := by decide +kernel
  obtain ⟨t, e, walk, -, entries⟩ :=
    northWestCorner_eq_overlap supply demand costs half hs hd hc hpos small
  rw [plan] at e
  cases e
  have read : ∀ i < 3, ∀ j < 4, shipped.get? ⟨i, j⟩ = some (overlap supply demand ⟨i, j⟩) := entries
  exact ⟨hs, hd, hc, hpos, small, plan, walk 15 (by decide),
    (Option.some.inj (read 2 (by decide) 2 (by decide))).symm,
    (Option.some.inj (read 2 (by decide) 3 (by decide))).symm,
    (Option.some.inj (read 0 (by decide) 1 (by decide))).symm⟩

end Freight
