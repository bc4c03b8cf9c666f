import Freight.Proofs.Conservation

/-!
# What a greedy start leaves open

A greedy start of amounts ships no more than any line has. It goes on while a row and a column have
more than the tolerance left, so in the end one side has run dry up to the tolerance on each of its
lines (`Remaining.closed_of_openCells_eq_nil`). The other side is not served within the tolerance on
each line: a line of it can be short by all that is left on the side that ran dry, and by what the
totals differ by.

Main statement: both, for each of the three rules (`StartRule.start_maximal`).
-/

namespace Freight

variable {m n : Nat} {l : Line} {x tol rest : Rat} {r last : Remaining Rat}
  {ss : List (Shipment Rat)} {t : Table Rat}

/-- No row of a table falls short of its supply by more than an amount. -/
def Table.ShipsWithin (t : Table Rat) (supply : List Rat) (rest : Rat) : Prop :=
  ∀ i s, supply[i]? = some s → ∃ x, t.rowSum? i = some x ∧ s - x ≤ rest

/-- No column of a table falls short of its demand by more than an amount. -/
def Table.MeetsWithin (t : Table Rat) (demand : List Rat) (rest : Rat) : Prop :=
  ∀ j d, demand[j]? = some d → ∃ x, t.columnSum? j = some x ∧ d - x ≤ rest

/-! ## Shortages are what a run leaves -/

namespace Remaining.Run

variable (h : Run tol r ss last) (hr : r.Sound m n) (hpos : 0 ≤ tol) (holds : t.Holds ss m n)

include h hr hpos holds

/-- What a line has left in the end is what it had and the table does not carry. -/
theorem exists_left?_eq (hx : last.left? l = some x) :
    ∃ y, r.left? l = some y ∧ x = y - Line.total m n t.entry l := by
  have sound := h.sound rfl hpos hr
  have within := exists_left?_iff.mp ⟨x, hx⟩
  rw [sound.supply_length, sound.demand_length, ← hr.supply_length, ← hr.demand_length] at within
  obtain ⟨y, hy⟩ := exists_left?_iff.mpr within
  refine ⟨y, hy, ?_⟩
  rw [h.left?_eq hr hpos holds hy] at hx
  exact (Option.some.inj hx).symm

theorem shipsWithin_iff : t.ShipsWithin r.supply rest ↔ ∀ x ∈ last.supply, x ≤ rest := by
  constructor
  · intro within x hx
    obtain ⟨i, hi⟩ := List.getElem?_of_mem hx
    obtain ⟨s, hs, rfl⟩ := h.exists_left?_eq hr hpos holds (l := .row i) hi
    obtain ⟨y, hy, hle⟩ := within i s hs
    rw [holds.fits.rowSum?_rat (hr.supply_length ▸ (List.getElem?_eq_some_iff.mp hs).1)] at hy
    cases hy
    exact hle
  · intro closed i s hs
    have left := h.left?_eq hr hpos holds (l := .row i) hs
    refine ⟨_, holds.fits.rowSum?_rat (hr.supply_length ▸ (List.getElem?_eq_some_iff.mp hs).1), ?_⟩
    exact closed _ (List.mem_of_getElem? left)

theorem meetsWithin_iff : t.MeetsWithin r.demand rest ↔ ∀ x ∈ last.demand, x ≤ rest := by
  constructor
  · intro within x hx
    obtain ⟨j, hj⟩ := List.getElem?_of_mem hx
    obtain ⟨d, hd, rfl⟩ := h.exists_left?_eq hr hpos holds (l := .column j) hj
    obtain ⟨y, hy, hle⟩ := within j d hd
    rw [holds.fits.columnSum?_rat (hr.demand_length ▸ (List.getElem?_eq_some_iff.mp hd).1)] at hy
    cases hy
    exact hle
  · intro closed j d hd
    have left := h.left?_eq hr hpos holds (l := .column j) hd
    refine ⟨_, holds.fits.columnSum?_rat (hr.demand_length ▸ (List.getElem?_eq_some_iff.mp hd).1), ?_⟩
    exact closed _ (List.mem_of_getElem? left)

end Remaining.Run

/-! ## Starts -/

/-- What a greedy start of amounts leaves open, by any of the three rules, balanced or not. It ships
amounts, and on no line more than the line has. Either no row has more than the tolerance left or no
column has. If the totals differ by no more than `rest`, each line of the other side is short by no more
than the tolerance for each line of the side that ran dry, and `rest`. -/
theorem StartRule.start_maximal (rule : StartRule) (supply demand : List Rat) (costs : Table Rat)
    (tol : Rat) (hs : ∀ x ∈ supply, 0 ≤ x) (hd : ∀ x ∈ demand, 0 ≤ x)
    (hc : costs.Fits supply.length demand.length) (hpos : 0 ≤ tol) :
    ∃ t, rule.plan? supply demand costs tol = some t ∧ t.IsShipping supply.length demand.length ∧
      (∀ i s, supply[i]? = some s → ∃ x, t.rowSum? i = some x ∧ x ≤ s) ∧
      (∀ j d, demand[j]? = some d → ∃ x, t.columnSum? j = some x ∧ x ≤ d) ∧
      (t.ShipsWithin supply tol ∨ t.MeetsWithin demand tol) ∧
      ∀ rest, |supply.sum - demand.sum| ≤ rest →
        (t.ShipsWithin supply tol → t.MeetsWithin demand (supply.length * tol + rest)) ∧
        (t.MeetsWithin demand tol → t.ShipsWithin supply (demand.length * tol + rest)) := by
  have hr : (Remaining.mk supply demand).Sound supply.length demand.length :=
    Remaining.sound_rat _
  obtain ⟨ss, last, t, run, plan, holds⟩ := rule.exists_plan? rfl hpos hr hc
  have sound := run.sound rfl hpos hr
  have nonneg := run.nonneg hpos hr (Remaining.forall_left? hs hd)
  have left := fun l x hx => run.left?_eq hr hpos holds (l := l) (x := x) hx
  have surplus := run.surplus_eq hr hpos
  have rows : ∀ rest, t.ShipsWithin supply rest ↔ ∀ x ∈ last.supply, x ≤ rest :=
    fun _ => run.shipsWithin_iff hr hpos holds
  have columns : ∀ rest, t.MeetsWithin demand rest ↔ ∀ x ∈ last.demand, x ≤ rest :=
    fun _ => run.meetsWithin_iff hr hpos holds
  refine ⟨t, plan, ⟨holds.fits.wellFormed, holds.fits.rows_eq, holds.fits.cols_eq, ?_⟩, ?_, ?_, ?_, ?_⟩
  · intro c hc
    rw [holds.fits.cells_eq] at hc
    exact run.entry_nonneg hr hpos holds hc
  · intro i s hs
    refine ⟨_, holds.fits.rowSum?_rat (List.getElem?_eq_some_iff.mp hs).1, ?_⟩
    exact sub_nonneg.mp (nonneg (.row i) _ (left (.row i) s hs))
  · intro j d hd
    refine ⟨_, holds.fits.columnSum?_rat (List.getElem?_eq_some_iff.mp hd).1, ?_⟩
    exact sub_nonneg.mp (nonneg (.column j) _ (left (.column j) d hd))
  · rw [rows, columns]
    exact Remaining.closed_of_openCells_eq_nil run.openCells_last
  · intro rest near
    rw [rows, rows, columns, columns]
    rw [← surplus, abs_le] at near
    constructor
    · intro closed
      rw [← sound.supply_length]
      exact Remaining.le_of_forall_le closed nonneg.demand (by linarith)
    · intro closed
      rw [← sound.demand_length]
      exact Remaining.le_of_forall_le closed nonneg.supply (by linarith)

/-- Two sources within the tolerance never ship, so a destination stays short by all that they have:
twice the tolerance. -/
theorem StartRule.start_maximal_twoCrumbs :
    let supply : List Rat := [1, 1, 4]
    let demand : List Rat := [2, 4]
    let costs : Table Rat := ⟨3, 2, #[5, 3, 2, 6, 4, 1]⟩
    (∀ x ∈ supply, 0 ≤ x) ∧ (∀ x ∈ demand, 0 ≤ x) ∧ costs.Fits 3 2 ∧ (0 : Rat) ≤ 1 ∧
      |supply.sum - demand.sum| ≤ 0 ∧
      ∃ t, leastCost.plan? supply demand costs 1 = some t ∧ t.columnSum? 0 = some 0 ∧
        t.ShipsWithin supply 1 ∧ ¬ t.MeetsWithin demand 1 ∧ t.MeetsWithin demand 3 := by
  intro supply demand costs
  have hs : ∀ x ∈ supply, 0 ≤ x := by decide +kernel
  have hd : ∀ x ∈ demand, 0 ≤ x := by decide +kernel
  have hc : costs.Fits 3 2 := ⟨rfl, rfl, rfl⟩
  have near : |supply.sum - demand.sum| ≤ 0 := by decide +kernel
  obtain ⟨t, plan, -, -, -, one, short⟩ := start_maximal leastCost supply demand costs 1 hs hd hc
    zero_le_one
  have empty : (leastCost.plan? supply demand costs 1).bind (·.columnSum? 0) = some 0 := by
    decide +kernel
  rw [plan] at empty
  have empty : t.columnSum? 0 = some 0 := empty
  have unmet : ¬ t.MeetsWithin demand 1 := by
    intro within
    obtain ⟨x, hx, hle⟩ := within 0 2 rfl
    rw [empty] at hx
    cases hx
    exact absurd hle (by decide +kernel)
  have shipped := one.resolve_right unmet
  have all := (short 0 near).1 shipped
  have bound : (supply.length : Rat) * 1 + 0 = 3 := by decide +kernel
  rw [bound] at all
  exact ⟨hs, hd, hc, zero_le_one, near, t, plan, empty, shipped, unmet, all⟩

end Freight
