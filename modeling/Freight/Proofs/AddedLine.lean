import Freight.Proofs.Unbalanced
import Mathlib.Data.Set.Function

/-!
# The added line

What balancing does to a problem, in exact arithmetic. The lines of the problem stay as they are, and
at most one line comes after them, without costs and with the difference of the totals
(`Tableau.Appends`). With it the totals agree, and without it they are within the tolerance.

A shipment of the tableau is a plan of the problem and what it leaves over. Dropping the added line is
one-to-one, because each line that crosses it ships there what is left to it (`eq_of_rows`,
`eq_of_columns`); and each plan that exhausts the scarcer side is reached, because such plans are
those that move the smaller total (`Problem.exhausts_iff`).

Main statement: `Tableau.ofProblem_appends`.
-/

namespace Freight

open Finset Scalar

variable {m n : Nat}

/-! ## Tables without their last line -/

namespace Table

section Drop

variable {α : Type} [Scalar α] {t u : Table α}

/-- Two tables of one shape with the same entries are the same. -/
theorem Fits.ext_entry (h : t.Fits m n) (hu : u.Fits m n)
    (same : ∀ c ∈ Cell.grid m n, t.entry c = u.entry c) : t = u := by
  refine ext_get? hu.wellFormed h.wellFormed (h.rows_eq.trans hu.rows_eq.symm)
    (h.cols_eq.trans hu.cols_eq.symm) fun c hc => ?_
  rw [hu.cells_eq] at hc
  rw [h.get?_eq hc, hu.get?_eq hc, same c hc]

theorem Fits.dropRow (h : t.Fits (m + 1) n) :
    t.dropRow.Fits m n ∧ ∀ c ∈ Cell.grid m n, t.dropRow.entry c = t.entry c := by
  have size : t.data.size = (m + 1) * n := by rw [h.wellFormed.size_eq, h.rows_eq, h.cols_eq]
  have le : m * n ≤ t.data.size := size ▸ Nat.mul_le_mul_right n (Nat.le_succ m)
  have rows : t.rows - 1 = m := by rw [h.rows_eq, Nat.add_sub_cancel]
  refine ⟨⟨?_, rows, h.cols_eq⟩, fun c hc => ?_⟩
  · rw [WellFormed, Table.dropRow, rows, h.cols_eq, Array.size_extract, Nat.min_eq_left le,
      Nat.sub_zero]
  · obtain ⟨hr, hcol⟩ := Cell.mem_grid.mp hc
    have inside : c.row * n + c.col < m * n :=
      (Nat.add_lt_add_left hcol _).trans_le (by rw [← Nat.succ_mul]; exact Nat.mul_le_mul_right n hr)
    rw [entry, entry, get?, get?, Table.dropRow, position, position, rows, h.cols_eq,
      Array.getElem?_extract, Nat.min_eq_left le, Nat.sub_zero, if_pos inside, Nat.zero_add]

theorem Fits.dropColumn (h : t.Fits m (n + 1)) :
    t.dropColumn.Fits m n ∧ ∀ c ∈ Cell.grid m n, t.dropColumn.entry c = t.entry c := by
  have rows : t.toRows.map List.dropLast =
      (List.range m).map fun i => (List.range n).map fun j => t.entry ⟨i, j⟩ := by
    rw [h.toRows_eq, List.map_map]
    refine List.map_congr_left fun i _ => ?_
    rw [Function.comp_apply, List.range_succ, List.map_append, List.map_singleton,
      List.dropLast_concat]
  have lengths : ∀ row ∈ t.toRows.map List.dropLast, row.length = n := by
    rw [rows]
    exact List.forall_mem_map.mpr fun i _ => by simp
  obtain ⟨fits, read⟩ := fits_of_flatten (t := t.dropColumn) lengths
    (by simp [Table.dropColumn, toRows]) (by rw [Table.dropColumn, h.cols_eq, Nat.add_sub_cancel])
    (by rw [Table.dropColumn, List.flatMap_def])
  rw [rows, List.length_map, List.length_range] at fits
  refine ⟨fits, fun c hc => ?_⟩
  obtain ⟨hr, hcol⟩ := Cell.mem_grid.mp hc
  rw [entry, read c.row c.col hcol, rows, List.getElem?_map, List.getElem?_range hr]
  simp [List.getElem?_range hcol]

end Drop

end Table

/-! ## Plans and shipments -/

section Last

variable {f g : Cell → Rat}

/-- The last column is what the totals of the rows leave to it. -/
theorem eq_of_rows (same : ∀ c ∈ Cell.grid m n, f c = g c)
    (rows : ∀ i < m, Line.total m (n + 1) f (.row i) = Line.total m (n + 1) g (.row i)) :
    ∀ c ∈ Cell.grid m (n + 1), f c = g c := by
  intro c hc
  obtain ⟨hr, hcol⟩ := Cell.mem_grid.mp hc
  rcases Nat.lt_succ_iff_lt_or_eq.mp hcol with hcol | last
  · exact same c (Cell.mem_grid.mpr ⟨hr, hcol⟩)
  · have others : ∑ j ∈ range n, f ⟨c.row, j⟩ = ∑ j ∈ range n, g ⟨c.row, j⟩ :=
      sum_congr rfl fun j hj => same _ (Cell.mem_grid.mpr ⟨hr, mem_range.mp hj⟩)
    have e := rows c.row hr
    rw [Line.total, Line.total, sum_range_succ, sum_range_succ, others, ← last] at e
    exact add_left_cancel e

/-- The last row is what the totals of the columns leave to it. -/
theorem eq_of_columns (same : ∀ c ∈ Cell.grid m n, f c = g c)
    (columns : ∀ j < n, Line.total (m + 1) n f (.column j) = Line.total (m + 1) n g (.column j)) :
    ∀ c ∈ Cell.grid (m + 1) n, f c = g c := by
  -- With rows and columns exchanged, a row is a column.
  have swapped := eq_of_rows (f := fun c => f ⟨c.col, c.row⟩) (g := fun c => g ⟨c.col, c.row⟩)
    (fun c hc => same _ (Cell.mem_grid.mpr (Cell.mem_grid.mp hc).symm)) columns
  exact fun c hc => swapped ⟨c.col, c.row⟩ (Cell.mem_grid.mpr (Cell.mem_grid.mp hc).symm)

end Last

variable {p : Problem Rat} {t : Tableau Rat} {costs : Table Rat}

/-- Plans that exhaust the scarcer side are those that move the smaller total. -/
theorem Problem.exhausts_iff {y : Table Rat} : y.Exhausts p.scarcer p.supply p.demand ↔
    y.Moves p.supply p.demand (min p.supply.sum p.demand.sum) := by
  have totalSupply : p.totalSupply = p.supply.sum := sum_rat p.supply
  have totalDemand : p.totalDemand = p.demand.sum := sum_rat p.demand
  rw [scarcer, totalSupply, totalDemand]
  constructor
  · intro h
    have fits := h.toIsShipping.fits
    refine ⟨h.toIsShipping, h.le_supply, h.le_demand, ?_⟩
    rw [sum_rat, fits.toList_eq, sum_map_grid]
    by_cases lt : p.supply.sum < p.demand.sum
    · have rows : ∀ i s, p.supply[i]? = some s →
          Line.total p.supply.length p.demand.length y.entry (.row i) = s := fun i s hs => by
        have e := h.supply_eq (if_pos lt) i s hs
        rw [fits.rowSum?_rat (List.getElem?_eq_some_iff.mp hs).1] at e
        exact Option.some.inj e
      rw [Table.sum_of_rows rows, min_eq_left lt.le]
    · have columns : ∀ j d, p.demand[j]? = some d →
          Line.total p.supply.length p.demand.length y.entry (.column j) = d := fun j d hd => by
        have e := h.demand_eq (if_neg lt) j d hd
        rw [fits.columnSum?_rat (List.getElem?_eq_some_iff.mp hd).1] at e
        exact Option.some.inj e
      rw [Table.sum_of_columns columns, min_eq_right (not_lt.mp lt)]
  · intro h
    have fits := h.toIsShipping.fits
    refine ⟨h.toIsShipping, h.le_supply, h.le_demand, fun side i s hs => ?_, fun side j d hd => ?_⟩
    · have le : p.supply.sum ≤ p.demand.sum := by
        by_contra lt
        rw [if_neg fun less => lt less.le] at side
        cases side
      rw [fits.rowSum?_rat (List.getElem?_eq_some_iff.mp hs).1,
        h.total_row (min_eq_left le) i s hs]
    · have le : p.demand.sum ≤ p.supply.sum := by
        by_contra lt
        rw [if_pos (not_le.mp lt)] at side
        cases side
      rw [fits.columnSum?_rat (List.getElem?_eq_some_iff.mp hd).1,
        h.total_column (min_eq_right le) j d hd]

namespace Tableau

/-- The part of a shipment between given lines is a plan that moves the smaller total. -/
theorem Extends.moves (h : t.Extends p costs) {y z : Table Rat} (hz : z.Serves t.supply t.demand)
    (hy : y.Fits p.supply.length p.demand.length)
    (same : ∀ c ∈ Cell.grid p.supply.length p.demand.length, y.entry c = z.entry c) :
    y.Moves p.supply p.demand (min p.supply.sum p.demand.sum) := by
  obtain ⟨shipping, total⟩ := Table.serves_iff.mp hz
  have nonneg : ∀ c ∈ Cell.grid t.supply.length t.demand.length, 0 ≤ z.entry c := fun c hc =>
    shipping.nonneg c (shipping.fits.cells_eq ▸ hc)
  have le : ∀ l x, (Remaining.mk p.supply p.demand).left? l = some x →
      Line.total p.supply.length p.demand.length y.entry l ≤ x := by
    intro l x hx
    have hl := Remaining.exists_left?_iff.mp ⟨x, hx⟩
    rw [total_congr same hl, ← total l x (h.left?_eq hx)]
    exact h.total_le nonneg hl
  refine ⟨⟨hy.wellFormed, hy.rows_eq, hy.cols_eq, fun c hc => ?_⟩, fun i s q hs hq => ?_,
    fun j d q hd hq => ?_, ?_⟩
  · rw [hy.cells_eq] at hc
    rw [same c hc]
    exact nonneg c (h.mem_grid hc)
  · rw [hy.rowSum?_rat (List.getElem?_eq_some_iff.mp hs).1] at hq
    exact Option.some.inj hq ▸ le (.row i) s hs
  · rw [hy.columnSum?_rat (List.getElem?_eq_some_iff.mp hd).1] at hq
    exact Option.some.inj hq ▸ le (.column j) d hd
  · rw [sum_rat, hy.toList_eq, sum_map_grid, ← h.sum_given total]
    exact sum_congr rfl fun c hc => same c (Cell.mem_rectangle.mp hc)

/-- Amounts with the same totals on all lines that agree within the problem agree on the added line
too. -/
theorem Extends.eq_of_totals (h : t.Extends p costs) {f g : Cell → Rat}
    (same : ∀ c ∈ Cell.grid p.supply.length p.demand.length, f c = g c)
    (totals : ∀ l, l.Within t.supply.length t.demand.length →
      Line.total t.supply.length t.demand.length f l =
        Line.total t.supply.length t.demand.length g l) :
    ∀ c ∈ Cell.grid t.supply.length t.demand.length, f c = g c := by
  obtain ⟨-, es, ed⟩ | ⟨-, es, ed⟩ | ⟨-, es, ed⟩ := h.lines <;> rw [es, ed] at totals ⊢
  · exact same
  · rw [List.length_append] at totals ⊢
    exact eq_of_rows same fun i hi => totals (.row i) hi
  · rw [List.length_append] at totals ⊢
    exact eq_of_columns same fun j hj => totals (.column j) hj

/-- Dropping the added line leads from the shipments of a tableau to the plans that exhaust the
scarcer side of its problem, and to each of them from one shipment. -/
theorem Extends.bijOn (h : t.Extends p costs) (hm : 0 < p.supply.length)
    {drop : Table Rat → Table Rat}
    (dropped : ∀ z : Table Rat, z.Fits t.supply.length t.demand.length →
      (drop z).Fits p.supply.length p.demand.length ∧
        ∀ c ∈ Cell.grid p.supply.length p.demand.length, (drop z).entry c = z.entry c) :
    Set.BijOn drop {z | z.Serves t.supply t.demand}
      {y | y.Exhausts p.scarcer p.supply p.demand} := by
  -- Into the plans, one-to-one, and onto them.
  refine ⟨fun z hz => ?_, fun z hz w hw e => ?_, fun y hy => ?_⟩
  · obtain ⟨fits, same⟩ := dropped z hz.toIsShipping.fits
    exact Problem.exhausts_iff.mpr (h.moves hz fits same)
  · obtain ⟨-, same⟩ := dropped z hz.toIsShipping.fits
    obtain ⟨-, same'⟩ := dropped w hw.toIsShipping.fits
    refine hz.toIsShipping.fits.ext_entry hw.toIsShipping.fits (h.eq_of_totals ?_ fun l hl => ?_)
    · intro c hc
      rw [← same c hc, ← same' c hc, e]
    · obtain ⟨x, hx⟩ : ∃ x, (Remaining.mk t.supply t.demand).left? l = some x :=
        Remaining.exists_left?_iff.mpr hl
      rw [(Table.serves_iff.mp hz).2 l x hx, (Table.serves_iff.mp hw).2 l x hx]
  · obtain ⟨z, hz, same⟩ := h.exists_rival hm (Problem.exhausts_iff.mp hy)
    obtain ⟨fits, same'⟩ := dropped z hz.toIsShipping.fits
    refine ⟨z, hz, fits.ext_entry hy.toIsShipping.fits fun c hc => ?_⟩
    rw [same' c hc, same c hc]

end Tableau

/-! ## What balancing appends -/

theorem Problem.getElem?_sourceLabels {α : Type} (p : Problem α) {i : Nat}
    (hi : i < p.supply.length) : p.sourceLabels[i]? = some (p.sourceName i) := by
  rw [sourceLabels, List.getElem?_map, List.getElem?_range hi]
  rfl

theorem Problem.getElem?_destinationLabels {α : Type} (p : Problem α) {j : Nat}
    (hj : j < p.demand.length) : p.destinationLabels[j]? = some (p.destinationName j) := by
  rw [destinationLabels, List.getElem?_map, List.getElem?_range hj]
  rfl

namespace Tableau

section Appends

variable {α : Type} [Scalar α]

/-- A tableau has the lines of a problem as they are, and at most one line after them, which costs
nothing. -/
structure Appends (t : Tableau α) (p : Problem α) : Prop where
  fits : t.Fits t.rows t.cols
  lines : ∀ l : Line, l.Within t.rows t.cols ↔
    l.Within p.supply.length p.demand.length ∨ ∃ q, t.added? = some (l, q)
  new : ∀ l q, t.added? = some (l, q) → ¬ l.Within p.supply.length p.demand.length
  amounts : ∀ l : Line, l.Within p.supply.length p.demand.length →
    (Remaining.mk t.supply t.demand).left? l = (Remaining.mk p.supply p.demand).left? l
  quantity : ∀ l q, t.added? = some (l, q) → (Remaining.mk t.supply t.demand).left? l = some q
  sources : ∀ i < p.supply.length, t.sourceNames[i]? = some (p.sourceName i)
  destinations : ∀ j < p.demand.length, t.destinationNames[j]? = some (p.destinationName j)
  costs : ∀ c ∈ Cell.grid p.supply.length p.demand.length,
    t.costs.get? c = p.costs[c.row]?.bind (·[c.col]?)
  isDummy_iff : ∀ c, t.isDummy c = true ↔ ∃ l q, t.added? = some (l, q) ∧ l.Through c
  free : ∀ c ∈ Cell.grid t.rows t.cols, t.isDummy c = true → t.costs.get? c = some 0

variable {t : Tableau α} {p : Problem α} {tol : α}

/-- Dropping the added line leaves a table of the problem's size with the other entries. -/
theorem withoutDummy_of_ofProblem (h : p.check = .ok ()) (e : ofProblem p tol = .ok t)
    {z : Table α} (hz : z.Fits t.supply.length t.demand.length) :
    (t.withoutDummy z).Fits p.supply.length p.demand.length ∧
      ∀ c ∈ Cell.grid p.supply.length p.demand.length, (t.withoutDummy z).entry c = z.entry c := by
  obtain ⟨costs, -, ⟨-, et⟩ | ⟨-, -, et⟩ | ⟨-, -, et⟩⟩ := ofProblem_cases h tol <;>
    rw [et] at e <;> cases e
  · exact ⟨hz, fun _ _ => rfl⟩
  · rw [List.length_append] at hz
    exact hz.dropColumn
  · rw [List.length_append] at hz
    exact hz.dropRow

theorem isDummy_iff_of_fits (h : t.Fits m n) (c : Cell) :
    t.isDummy c = true ↔ ∃ l q, t.added? = some (l, q) ∧ l.Through c := by
  have rows : 0 < t.rows := h.rows_pos.trans_eq h.supply_length.symm
  have cols : 0 < t.cols := h.cols_pos.trans_eq h.demand_length.symm
  unfold isDummy added?
  cases t.balance <;> simp [Line.Through] <;> omega

/-- Cells of the problem have the costs that the problem gives. -/
theorem get?_costs_of_mem (h : p.check = .ok ()) (e : ofProblem p tol = .ok t)
    (fits : t.Fits t.rows t.cols) {c : Cell}
    (hc : c ∈ Cell.grid p.supply.length p.demand.length) (hg : c ∈ Cell.grid t.rows t.cols) :
    t.costs.get? c = p.costs[c.row]?.bind (·[c.col]?) := by
  obtain ⟨costs, ec, costsFit, get⟩ := Problem.exists_costTable h
  obtain ⟨-, hout, -⟩ | ⟨-, -, same⟩ := costs_of_ofProblem h e ec hg
  · exact absurd hc hout
  · rw [fits.costs.get?_eq hg, same, ← costsFit.get?_eq hc]
    exact get c.row c.col (Cell.mem_grid.mp hc).2

/-- Cells of the added line cost nothing. -/
theorem get?_costs_of_isDummy (h : p.check = .ok ()) (e : ofProblem p tol = .ok t)
    (fits : t.Fits t.rows t.cols) {c : Cell} (hg : c ∈ Cell.grid t.rows t.cols)
    (added : t.isDummy c = true) : t.costs.get? c = some 0 := by
  obtain ⟨costs, ec, -⟩ := Problem.exists_costTable h
  obtain ⟨-, -, zero⟩ | ⟨given, -, -⟩ := costs_of_ofProblem h e ec hg
  · rw [fits.costs.get?_eq hg, zero]
  · rw [given] at added
    cases added

/-- A balanced tableau has the lines of its problem and at most one more. -/
theorem appends_of_ofProblem [Scalar.Exact α] (h : p.check = .ok ())
    (e : ofProblem p tol = .ok t) : t.Appends p := by
  obtain ⟨t', e', fits, -⟩ := exists_ofProblem h tol
  obtain rfl : t = t' := Except.ok.inj (e.symm.trans e')
  have dummy := isDummy_iff_of_fits fits
  have kept := fun c => get?_costs_of_mem (c := c) h e fits
  have free := fun c => get?_costs_of_isDummy (c := c) h e fits
  obtain ⟨costs', -, ⟨-, et⟩ | ⟨-, -, et⟩ | ⟨-, -, et⟩⟩ := ofProblem_cases h tol <;>
    rw [et] at e <;> cases e
  · refine ⟨fits, ?_, nofun, fun _ _ => rfl, nofun, fun _ => p.getElem?_sourceLabels,
      fun _ => p.getElem?_destinationLabels, fun c hc => kept c hc hc, dummy, free⟩
    exact fun l => ⟨.inl, fun h => h.resolve_right nofun⟩
  · refine ⟨fits, ?_, ?_, fun l hl => ?_, ?_, fun _ => p.getElem?_sourceLabels, fun j hj => ?_,
      fun c hc => ?_, dummy, free⟩
    · rintro (i | j)
      · simp [Line.Within, added?, rows]
      · simpa [Line.Within, added?, cols, eq_comm] using Nat.lt_succ_iff_lt_or_eq
    · simp [Line.Within, added?, cols]
    · cases l with
      | row i => rfl
      | column j => exact List.getElem?_append_left hl
    · simp [added?, cols, Remaining.left?]
    · rw [List.getElem?_append_left (p.length_destinationLabels.symm ▸ hj),
        p.getElem?_destinationLabels hj]
    · obtain ⟨hr, hcol⟩ := Cell.mem_grid.mp hc
      exact kept c hc (Cell.mem_grid.mpr ⟨hr, hcol.trans_le (by simp [cols])⟩)
  · refine ⟨fits, ?_, ?_, fun l hl => ?_, ?_, fun i hi => ?_,
      fun _ => p.getElem?_destinationLabels, fun c hc => ?_, dummy, free⟩
    · rintro (i | j)
      · simpa [Line.Within, added?, rows, eq_comm] using Nat.lt_succ_iff_lt_or_eq
      · simp [Line.Within, added?, cols]
    · simp [Line.Within, added?, rows]
    · cases l with
      | row i => exact List.getElem?_append_left hl
      | column j => rfl
    · simp [added?, rows, Remaining.left?]
    · rw [List.getElem?_append_left (p.length_sourceLabels.symm ▸ hi), p.getElem?_sourceLabels hi]
    · obtain ⟨hr, hcol⟩ := Cell.mem_grid.mp hc
      exact kept c hc (Cell.mem_grid.mpr ⟨hr.trans_le (by simp [rows]), hcol⟩)

end Appends

/-- With the added line the totals agree; it has the difference of the totals, which is more than the
tolerance. Without one they differ by no more than the tolerance. -/
theorem totals_of_ofProblem {tol : Rat} (h : p.check = .ok ()) (e : ofProblem p tol = .ok t)
    (ec : p.costTable = .ok costs) :
    (t.added? = none → |Scalar.sum t.supply - Scalar.sum t.demand| ≤ tol) ∧
      ∀ l q, t.added? = some (l, q) → q = |p.totalSupply - p.totalDemand| ∧ tol < q ∧
        Scalar.sum t.supply = Scalar.sum t.demand ∧ t.Extends p costs := by
  have totalSupply : p.totalSupply = p.supply.sum := sum_rat p.supply
  have totalDemand : p.totalDemand = p.demand.sum := sum_rat p.demand
  obtain ⟨costs', -, cases⟩ := ofProblem_cases h tol
  rw [totalSupply, totalDemand, distance_rat] at cases
  rw [totalSupply, totalDemand]
  obtain ⟨near, et⟩ | ⟨far, pos, et⟩ | ⟨far, neg, et⟩ := cases <;>
    obtain rfl := Except.ok.inj (e.symm.trans et)
  · refine ⟨fun _ => ?_, fun l q hl => nomatch hl⟩
    rwa [sum_rat, sum_rat]
  · refine ⟨fun none => (nomatch none), fun l q hl => ?_⟩
    obtain ⟨-, rfl⟩ := Prod.mk.inj (Option.some.inj hl)
    have surplus := abs_of_pos pos
    refine ⟨surplus.symm, surplus ▸ not_le.mp far, ?_, extends_of_lines h e ec (.inr (.inl ?_))⟩
    · rw [sum_rat, sum_rat, List.sum_append, List.sum_singleton]
      exact (add_sub_cancel _ _).symm
    · exact ⟨(sub_pos.mp pos).le, rfl, rfl⟩
  · refine ⟨fun none => (nomatch none), fun l q hl => ?_⟩
    obtain ⟨-, rfl⟩ := Prod.mk.inj (Option.some.inj hl)
    have missing := abs_of_nonpos (not_lt.mp neg)
    refine ⟨missing.symm, missing ▸ not_le.mp far, ?_, extends_of_lines h e ec (.inr (.inr ?_))⟩
    · rw [sum_rat, sum_rat, List.sum_append, List.sum_singleton, neg_sub]
      exact add_sub_cancel _ _
    · exact ⟨sub_nonpos.mp (not_lt.mp neg), by rw [neg_sub], rfl⟩

end Tableau

/-- Balancing a problem that passes its check, in exact arithmetic and at any tolerance. At most one
line is appended to the lines of the problem, which stay as they are, and it costs nothing. If none
is, the totals agree within the tolerance. If one is, it has the difference of the totals, the totals
then agree exactly, and dropping it is one-to-one from the shipments of the tableau onto the plans of
the problem that exhaust the scarcer side, at the same cost. -/
theorem Tableau.ofProblem_appends (p : Problem Rat) (tol : Rat) (h : p.check = .ok ()) :
    ∃ t costs, ofProblem p tol = .ok t ∧ p.costTable = .ok costs ∧ t.Appends p ∧
      (t.added? = none → |Scalar.sum t.supply - Scalar.sum t.demand| ≤ tol) ∧
      ∀ l q, t.added? = some (l, q) →
        q = |p.totalSupply - p.totalDemand| ∧ tol < q ∧
        Scalar.sum t.supply = Scalar.sum t.demand ∧
        Set.BijOn t.withoutDummy {z | z.Serves t.supply t.demand}
          {y | y.Exhausts p.scarcer p.supply p.demand} ∧
        ∀ z : Table Rat, z.Serves t.supply t.demand → ∃ cost,
          z.cost? t.costs = some cost ∧ (t.withoutDummy z).cost? costs = some cost := by
  obtain ⟨t, e, fits, -⟩ := exists_ofProblem h tol
  obtain ⟨costs, ec, costsFit, -⟩ := Problem.exists_costTable h
  obtain ⟨near, added⟩ := totals_of_ofProblem h e ec
  refine ⟨t, costs, e, ec, appends_of_ofProblem h e, near, fun l q hl => ?_⟩
  obtain ⟨quantity, more, same, extends'⟩ := added l q hl
  refine ⟨quantity, more, same, extends'.bijOn (Problem.plannable_of_check h).rows_pos fun z hz =>
    withoutDummy_of_ofProblem h e hz, fun z hz => ?_⟩
  obtain ⟨dropped, kept⟩ := withoutDummy_of_ofProblem h e hz.toIsShipping.fits
  obtain ⟨cost, ecost⟩ := hz.toIsShipping.fits.exists_cost? fits.costs
  refine ⟨cost, ecost, ?_⟩
  rw [← extends'.cost?_eq hz.toIsShipping.fits fits.costs dropped costsFit fun c hc =>
    (kept c hc).symm, ecost]

/-- Five units are left over. With a destination for them all 75 units are shipped, and without it the
demands are met and the supplies are not exceeded. -/
theorem Tableau.ofProblem_appends_threeSources :
    threeSources.check = .ok () ∧ ∃ t, ofProblem threeSources 0 = .ok t ∧
      t.added? = some (.column 4, 5) ∧ Scalar.sum t.demand = 75 ∧
      Set.BijOn t.withoutDummy {z | z.Serves t.supply t.demand}
        {y | y.Exhausts .demand threeSources.supply threeSources.demand} := by
  have accepted : threeSources.check = .ok () := rfl
  have values : (ofProblem threeSources 0).toOption.map
      (fun t => (t.added?, Scalar.sum t.demand)) = some (some (.column 4, 5), 75) := by decide +kernel
  have scarcer : threeSources.scarcer = .demand := by decide +kernel
  obtain ⟨t, costs, e, -, -, -, added⟩ := ofProblem_appends threeSources 0 accepted
  rw [e] at values
  obtain ⟨line, total⟩ := Prod.mk.inj (Option.some.inj values)
  obtain ⟨-, -, -, bij, -⟩ := added _ _ line
  exact ⟨accepted, t, e, line, total, scarcer ▸ bij⟩

end Freight
