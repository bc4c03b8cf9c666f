import Freight.Proofs.Circulation
import Freight.Proofs.Start
import Mathlib.Algebra.Order.BigOperators.Group.List

/-!
# What a greedy run leaves, over the rationals

What a line had at first is what it has left in the end and what was shipped on it
(`Run.conserves`), and that is the line's total in the table that holds the shipments
(`Holds.total_eq`). Amounts stay amounts, and both sides lose the same, so what the totals differ by
is left in the end (`Run.surplus_eq`). With integers of equal totals and a tolerance below one
nothing is left at all (`Run.exhausted`), so the first position of such a tableau serves it exactly
(`Run.ships`).
-/

namespace Freight

open Finset Scalar

variable {m n : Nat} {c : Cell} {l : Line} {x tol : Rat} {r last : Remaining Rat}
  {ss : List (Shipment Rat)}

namespace Remaining

/-- What is shipped on a line. -/
def shippedOn (ss : List (Shipment Rat)) (l : Line) : Rat :=
  (ss.map fun s => s.quantity * l.weight s.cell).sum

theorem left?_ship_rat (r : Remaining Rat) (c : Cell) (l : Line) :
    (r.ship c).left? l = (r.left? l).map (· - r.capacity c * l.weight c) := by
  by_cases h : l.Through c
  · rw [left?_ship h, Line.weight_of_through h]
    simp only [mul_one]
  · rw [left?_ship_of_not_through h, Line.weight_of_not_through h]
    simp

/-- What a line had is what it has left and what was shipped on it. -/
theorem Run.conserves (h : Run tol r ss last) :
    ∀ l x, r.left? l = some x → last.left? l = some (x - shippedOn ss l) := by
  induction h with
  | done _ =>
    intro l x hx
    rw [hx, shippedOn, List.map_nil, List.sum_nil, sub_zero]
  | @ship r last c ss _ _ ih =>
    intro l x hx
    have step : (r.ship c).left? l = some (x - r.capacity c * l.weight c) := by
      rw [left?_ship_rat, hx]
      rfl
    rw [ih l _ step, shippedOn, shippedOn, List.map_cons, List.sum_cons]
    exact congrArg some (by ring)

/-! ## Amounts -/

/-- Every line has an amount left. -/
def Nonneg (r : Remaining Rat) : Prop := ∀ l x, r.left? l = some x → 0 ≤ x

section Sound

variable (hpos : 0 ≤ tol)

include hpos

theorem Nonneg.ship (h : r.Nonneg) (hr : r.Sound m n) (hc : c ∈ r.openCells tol) :
    (r.ship c).Nonneg := by
  intro l x hx
  by_cases hl : l.Through c
  · obtain ⟨-, -, bound⟩ := hr.capacity_spec rfl hpos hc
    obtain ⟨y, hy, hle⟩ := bound l hl
    rw [left?_ship hl, hy] at hx
    cases hx
    exact sub_nonneg.mpr hle
  · rw [left?_ship_of_not_through hl] at hx
    exact h l x hx

theorem Run.nonneg (h : Run tol r ss last) (hr : r.Sound m n) (hn : r.Nonneg) :
    last.Nonneg := by
  induction h with
  | done _ => exact hn
  | ship hc _ ih => exact ih (hr.ship rfl hpos hc) (hn.ship hpos hr hc)

end Sound

/-! ## Totals of both sides -/

theorem sum_modify_sub {xs : List Rat} {i : Nat} (hi : i < xs.length) (q : Rat) :
    (xs.modify i (· - q)).sum = xs.sum - q := by
  induction xs generalizing i with
  | nil => cases hi
  | cons x xs ih =>
    cases i with
    | zero =>
      rw [List.modify_zero_cons, List.sum_cons, List.sum_cons]
      ring
    | succ i =>
      rw [List.modify_succ_cons, List.sum_cons, List.sum_cons, ih (Nat.lt_of_succ_lt_succ hi)]
      ring

/-- A shipment takes as much from the supplies as from the demands. -/
theorem Sound.surplus_ship (hr : r.Sound m n) (hc : c ∈ r.openCells tol) :
    (r.ship c).supply.sum - (r.ship c).demand.sum = r.supply.sum - r.demand.sum := by
  obtain ⟨hi, hj⟩ := Cell.mem_grid.mp (hr.mem_grid hc)
  rw [← hr.supply_length] at hi
  rw [← hr.demand_length] at hj
  rw [Remaining.ship, sum_modify_sub hi, sum_modify_sub hj, sub_sub_sub_cancel_right]

/-- What the supplies have beyond the demands is left in the end. -/
theorem Run.surplus_eq (h : Run tol r ss last) (hr : r.Sound m n) (hpos : 0 ≤ tol) :
    last.supply.sum - last.demand.sum = r.supply.sum - r.demand.sum := by
  induction h with
  | done _ => rfl
  | ship hc _ ih => exact (ih (hr.ship rfl hpos hc)).trans (hr.surplus_ship hc)

/-- Without an open cell, all lines of one side are closed. -/
theorem closed_of_openCells_eq_nil (h : last.openCells tol = []) :
    (∀ x ∈ last.supply, x ≤ tol) ∨ ∀ x ∈ last.demand, x ≤ tol := by
  by_contra hopen
  simp only [not_or, not_forall, not_le] at hopen
  obtain ⟨⟨x, hx, htx⟩, y, hy, hty⟩ := hopen
  obtain ⟨i, hi⟩ := List.getElem?_of_mem hx
  obtain ⟨j, hj⟩ := List.getElem?_of_mem hy
  have hcell : Cell.mk i j ∈ last.openCells tol :=
    mem_openCells.mpr ⟨mem_openLines.mpr ⟨x, hi, htx⟩, mem_openLines.mpr ⟨y, hj, hty⟩⟩
  rw [h] at hcell
  cases hcell

/-- Amounts that together hardly exceed values within the tolerance: none of them is large. -/
theorem le_of_forall_le {xs ys : List Rat} {rest : Rat} (closed : ∀ x ∈ xs, x ≤ tol)
    (nonneg : ∀ y ∈ ys, 0 ≤ y) (near : ys.sum ≤ xs.sum + rest) :
    ∀ y ∈ ys, y ≤ xs.length * tol + rest := by
  intro y hy
  have few : xs.sum ≤ xs.length * tol := by
    have := List.sum_le_card_nsmul xs tol closed
    rwa [nsmul_eq_mul] at this
  calc y ≤ ys.sum := List.single_le_sum nonneg y hy
    _ ≤ xs.length * tol + rest := by linarith

theorem Nonneg.supply (h : r.Nonneg) : ∀ x ∈ r.supply, 0 ≤ x := fun x hx => by
  obtain ⟨i, hi⟩ := List.getElem?_of_mem hx
  exact h (.row i) x hi

theorem Nonneg.demand (h : r.Nonneg) : ∀ x ∈ r.demand, 0 ≤ x := fun x hx => by
  obtain ⟨j, hj⟩ := List.getElem?_of_mem hx
  exact h (.column j) x hj

/-! ## Integers -/

/-- Every line has an integer left. -/
def Integral (r : Remaining Rat) : Prop := ∀ l x, r.left? l = some x → IsInteger x

section Integral

variable (hpos : 0 ≤ tol)

include hpos

/-- The capacity of an open cell is what one of its lines has left. -/
theorem Sound.exists_capacity_eq (hr : r.Sound m n) (hc : c ∈ r.openCells tol) :
    ∃ l, r.left? l = some (r.capacity c) := by
  obtain ⟨s, d, hs, hd, ⟨e, -⟩ | ⟨e, -⟩⟩ := hr.capacity_cases rfl hpos hc
  · exact ⟨_, e ▸ hs⟩
  · exact ⟨_, e ▸ hd⟩

theorem Integral.ship (h : r.Integral) (hr : r.Sound m n) (hc : c ∈ r.openCells tol) :
    (r.ship c).Integral := by
  intro l x hx
  obtain ⟨k, hk⟩ := hr.exists_capacity_eq hpos hc
  by_cases hl : l.Through c
  · rw [left?_ship hl] at hx
    obtain ⟨y, hy, rfl⟩ := Option.map_eq_some_iff.mp hx
    exact (h l y hy).sub (h k _ hk)
  · rw [left?_ship_of_not_through hl] at hx
    exact h l x hx

end Integral

/-- Under a tolerance below one, a line with an integer amount within it has nothing left. -/
theorem Integral.eq_zero (h : r.Integral) (hn : r.Nonneg) (small : tol < 1)
    (hx : r.left? l = some x) (hle : x ≤ tol) : x = 0 :=
  (h l x hx).eq_zero (hn l x hx) (lt_of_le_of_lt hle small)

theorem Integral.eq_zero_of_closed (h : r.Integral) (hn : r.Nonneg) (small : tol < 1)
    (closed : l ∉ r.openLines tol) (hx : r.left? l = some x) : x = 0 := by
  refine h.eq_zero hn small hx ?_
  by_contra hlt
  exact closed (mem_openLines.mpr ⟨x, hx, not_le.mp hlt⟩)

/-! ## Integers of equal totals -/

/-- Integer amounts of equal totals on both sides. -/
structure Whole (r : Remaining Rat) : Prop where
  nonneg : r.Nonneg
  integer : ∀ l x, r.left? l = some x → IsInteger x
  balanced : r.supply.sum = r.demand.sum

section Whole

variable (hpos : 0 ≤ tol)

include hpos

theorem Whole.ship (h : r.Whole) (hr : r.Sound m n) (hc : c ∈ r.openCells tol) :
    (r.ship c).Whole := by
  have integer : r.Integral := h.integer
  refine ⟨h.nonneg.ship hpos hr hc, integer.ship hpos hr hc, ?_⟩
  have surplus := hr.surplus_ship hc
  rw [h.balanced, sub_self] at surplus
  exact sub_eq_zero.mp surplus

theorem Run.whole (h : Run tol r ss last) (hr : r.Sound m n) (hw : r.Whole) :
    last.Whole ∧ ∀ s ∈ ss, IsInteger s.quantity := by
  induction h with
  | done _ => exact ⟨hw, fun s hs => absurd hs List.not_mem_nil⟩
  | ship hc _ ih =>
    obtain ⟨whole, integers⟩ := ih (hr.ship rfl hpos hc) (hw.ship hpos hr hc)
    refine ⟨whole, fun s hs => ?_⟩
    rcases List.mem_cons.mp hs with rfl | hs
    · obtain ⟨k, hk⟩ := hr.exists_capacity_eq hpos hc
      exact hw.integer k _ hk
    · exact integers s hs

omit hpos in
/-- Amounts that add up to nothing are all nothing. -/
theorem eq_zero_of_sum_eq_zero {xs : List Rat} (hn : ∀ x ∈ xs, 0 ≤ x) (hs : xs.sum = 0) :
    ∀ x ∈ xs, x = 0 := fun x hx =>
  le_antisymm (hs ▸ List.single_le_sum hn x hx) (hn x hx)

/-- With integers of equal totals and a tolerance below one a run leaves nothing. -/
theorem Run.exhausted (h : Run tol r ss last) (hr : r.Sound m n) (hw : r.Whole)
    (small : tol < 1) : ∀ l x, last.left? l = some x → x = 0 := by
  obtain ⟨whole, -⟩ := h.whole hpos hr hw
  have integer : last.Integral := whole.integer
  have supplyNonneg := whole.nonneg.supply
  have demandNonneg := whole.nonneg.demand
  have both : (∀ x ∈ last.supply, x = 0) ∧ ∀ x ∈ last.demand, x = 0 := by
    rcases closed_of_openCells_eq_nil h.openCells_last with closed | closed
    · have zero : ∀ x ∈ last.supply, x = 0 := fun x hx => by
        obtain ⟨i, hi⟩ := List.getElem?_of_mem hx
        exact integer.eq_zero whole.nonneg small (l := .row i) hi (closed x hx)
      exact ⟨zero, eq_zero_of_sum_eq_zero demandNonneg
        (whole.balanced ▸ List.sum_eq_zero zero)⟩
    · have zero : ∀ x ∈ last.demand, x = 0 := fun x hx => by
        obtain ⟨j, hj⟩ := List.getElem?_of_mem hx
        exact integer.eq_zero whole.nonneg small (l := .column j) hj (closed x hx)
      exact ⟨eq_zero_of_sum_eq_zero supplyNonneg
        (whole.balanced.symm ▸ List.sum_eq_zero zero), zero⟩
  intro l x hx
  cases l with
  | row i => exact both.1 x (List.mem_of_getElem? hx)
  | column j => exact both.2 x (List.mem_of_getElem? hx)

end Whole

end Remaining

/-! ## The first position -/

namespace Table

variable {t : Table Rat}

theorem Holds.entry_eq_zero (h : t.Holds ss m n) (hc : c ∈ Cell.grid m n)
    (hout : c ∉ ss.map Shipment.cell) : t.entry c = 0 := by
  rw [entry, h.empty c hc hout]
  rfl

theorem Holds.entry_cell (h : t.Holds ss m n) {s : Shipment Rat} (hs : s ∈ ss) :
    t.entry s.cell = s.quantity := by
  rw [entry, h.shipped s hs]
  rfl

/-- The total of a line in a table of shipments is what was shipped on it. -/
theorem Holds.total_eq (h : t.Holds ss m n) (hn : (ss.map Shipment.cell).Nodup)
    (hs : ∀ s ∈ ss, s.cell ∈ Cell.grid m n) (hl : l.Within m n) :
    Line.total m n t.entry l = Remaining.shippedOn ss l := by
  have sub : (ss.map Shipment.cell).toFinset ⊆ Cell.rectangle m n := by
    intro c hc
    obtain ⟨s, hm, rfl⟩ := List.mem_map.mp (List.mem_toFinset.mp hc)
    exact Cell.mem_rectangle.mpr (hs s hm)
  rw [total_eq_sum _ hl, ← sum_subset sub fun c hc hout => ?_, List.sum_toFinset _ hn,
    List.map_map, Remaining.shippedOn]
  · refine congrArg List.sum (List.map_congr_left fun s hm => ?_)
    exact congrArg (· * l.weight s.cell) (h.entry_cell hm)
  · rw [h.entry_eq_zero (Cell.mem_rectangle.mp hc) (fun hm => hout (List.mem_toFinset.mpr hm)),
      zero_mul]

end Table

/-- What a line had and the table of shipments does not carry is left. -/
theorem Remaining.Run.left?_eq {t : Table Rat} (h : Run tol r ss last) (hr : r.Sound m n)
    (hpos : 0 ≤ tol) (holds : t.Holds ss m n) (hx : r.left? l = some x) :
    last.left? l = some (x - Line.total m n t.entry l) := by
  have hl := Remaining.exists_left?_iff.mp ⟨x, hx⟩
  rw [hr.supply_length, hr.demand_length] at hl
  rw [holds.total_eq (h.acyclic rfl hpos hr).1 (fun s hs => hr.mem_grid (h.mem_openCells s hs)) hl]
  exact h.conserves l x hx

/-- A greedy run ships amounts. -/
theorem Remaining.Run.entry_nonneg {t : Table Rat} (h : Run tol r ss last) (hr : r.Sound m n)
    (hpos : 0 ≤ tol) (holds : t.Holds ss m n) (hc : c ∈ Cell.grid m n) : 0 ≤ t.entry c := by
  by_cases hm : c ∈ ss.map Shipment.cell
  · obtain ⟨s, hs, rfl⟩ := List.mem_map.mp hm
    rw [holds.entry_cell hs]
    exact hpos.trans (h.lt_quantity rfl hpos hr s hs).2.le
  · exact (holds.entry_eq_zero hc hm).ge

section First

variable {p : Position Rat} (h : Remaining.Run tol r ss last) (hr : r.Sound m n) (hpos : 0 ≤ tol)
  (holds : p.allocation.Holds ss m n)

include h hr hpos holds

/-- A greedy run ships amounts, and only on its own cells. -/
theorem Remaining.Run.feasible (cells : ∀ s ∈ ss, s.cell ∈ p.basis.cells) : p.Feasible m n := by
  refine ⟨fun c hc => h.entry_nonneg hr hpos holds hc, fun c hc hout => ?_⟩
  refine holds.entry_eq_zero hc fun hm => hout ?_
  obtain ⟨s, hs, rfl⟩ := List.mem_map.mp hm
  exact cells s hs

/-- The first position of integer supplies and demands of equal totals serves them exactly. -/
theorem Remaining.Run.ships (hw : r.Whole) (small : tol < 1)
    (cells : ∀ s ∈ ss, s.cell ∈ p.basis.cells) : p.Ships r.supply r.demand m n := by
  refine ⟨h.feasible hr hpos holds cells, fun c hc => ?_, fun l q hq => ?_⟩
  · by_cases hm : c ∈ ss.map Shipment.cell
    · obtain ⟨s, hs, rfl⟩ := List.mem_map.mp hm
      rw [holds.entry_cell hs]
      exact (h.whole hpos hr hw).2 s hs
    · rw [holds.entry_eq_zero hc hm]
      exact IsInteger.zero
  · have nothing := h.exhausted hpos hr hw small l _ (h.left?_eq hr hpos holds hq)
    linarith

end First

end Freight
