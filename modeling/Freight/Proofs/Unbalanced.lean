import Freight.Proofs.Optimum

/-!
# Plans of unbalanced problems

A balanced tableau extends its problem by at most one line of free cells, on the side of the smaller
total (`Tableau.Extends`). A plan of the problem becomes a shipment of the tableau, at the same cost,
when the added line takes what it leaves over (`Extends.exists_rival`). The routes between given
lines are the cells of the problem in use (`Extends.sum_active`), so what holds of the tableau's
quantities can be read from them. Together they show that a plan which is optimal for the tableau is
optimal for the problem, whichever side falls short (`Problem.solve_moves`).
-/

namespace Freight

open Finset Scalar

variable {p : Problem Rat} {t : Tableau Rat} {tol : Rat} {costs : Table Rat} {f : Cell → Rat}

/-! ## Tableaux and their problems -/

namespace Tableau

/-- A tableau has the lines of a problem, and at most one more that makes up the difference of the
totals. -/
structure Extends (t : Tableau Rat) (p : Problem Rat) (costs : Table Rat) : Prop where
  lines : (p.supply.sum = p.demand.sum ∧ t.supply = p.supply ∧ t.demand = p.demand) ∨
    (p.demand.sum ≤ p.supply.sum ∧ t.supply = p.supply ∧
      t.demand = p.demand ++ [p.supply.sum - p.demand.sum]) ∨
    (p.supply.sum ≤ p.demand.sum ∧ t.supply = p.supply ++ [p.demand.sum - p.supply.sum] ∧
      t.demand = p.demand)
  given : ∀ c ∈ Cell.grid t.supply.length t.demand.length,
    t.isDummy c = false ↔ c ∈ Cell.grid p.supply.length p.demand.length
  kept : ∀ c ∈ Cell.grid t.supply.length t.demand.length,
    c ∈ Cell.grid p.supply.length p.demand.length → t.costs.entry c = costs.entry c
  free : ∀ c ∈ Cell.grid t.supply.length t.demand.length,
    c ∉ Cell.grid p.supply.length p.demand.length → t.costs.entry c = 0

namespace Extends

variable (h : t.Extends p costs)

include h

theorem rows_le : p.supply.length ≤ t.supply.length := by
  obtain ⟨-, e, -⟩ | ⟨-, e, -⟩ | ⟨-, e, -⟩ := h.lines <;> simp [e]

theorem cols_le : p.demand.length ≤ t.demand.length := by
  obtain ⟨-, -, e⟩ | ⟨-, -, e⟩ | ⟨-, -, e⟩ := h.lines <;> simp [e]

theorem mem_grid {c : Cell} (hc : c ∈ Cell.grid p.supply.length p.demand.length) :
    c ∈ Cell.grid t.supply.length t.demand.length := by
  obtain ⟨hr, hcol⟩ := Cell.mem_grid.mp hc
  exact Cell.mem_grid.mpr ⟨hr.trans_le h.rows_le, hcol.trans_le h.cols_le⟩

/-- The lines of the problem keep their amounts. -/
theorem left?_eq {l : Line} {x : Rat} (hx : (Remaining.mk p.supply p.demand).left? l = some x) :
    (Remaining.mk t.supply t.demand).left? l = some x := by
  have append : ∀ {xs : List Rat} {k : Nat} (rest : Rat), xs[k]? = some x →
      (xs ++ [rest])[k]? = some x := fun rest hx =>
    (List.getElem?_append_left (List.getElem?_eq_some_iff.mp hx).1).trans hx
  obtain ⟨-, es, ed⟩ | ⟨-, es, ed⟩ | ⟨-, es, ed⟩ := h.lines <;> rw [es, ed]
  · exact hx
  · cases l with
    | row i => exact hx
    | column j => exact append _ hx
  · cases l with
    | row i => exact append _ hx
    | column j => exact hx

/-- Sums over the tableau are sums over the problem if the other cells have nothing. -/
theorem sum_eq (hf : ∀ c ∈ Cell.grid t.supply.length t.demand.length,
      c ∉ Cell.grid p.supply.length p.demand.length → f c = 0) :
    ∑ c ∈ Cell.rectangle t.supply.length t.demand.length, f c =
      ∑ c ∈ Cell.rectangle p.supply.length p.demand.length, f c := by
  have sub : Cell.rectangle p.supply.length p.demand.length ⊆
      Cell.rectangle t.supply.length t.demand.length := fun c hc =>
    Cell.mem_rectangle.mpr (h.mem_grid (Cell.mem_rectangle.mp hc))
  refine (sum_subset sub fun c hc hout => ?_).symm
  exact hf c (Cell.mem_rectangle.mp hc) fun hin => hout (Cell.mem_rectangle.mpr hin)

/-- What a line ships within the problem is part of what it ships in the tableau. -/
theorem total_le (hf : ∀ c ∈ Cell.grid t.supply.length t.demand.length, 0 ≤ f c) {l : Line}
    (hl : l.Within p.supply.length p.demand.length) :
    Line.total p.supply.length p.demand.length f l ≤
      Line.total t.supply.length t.demand.length f l := by
  cases l with
  | row i =>
    have hi : i < t.supply.length := lt_of_lt_of_le hl h.rows_le
    exact sum_le_sum_of_subset_of_nonneg (range_subset_range.mpr h.cols_le) fun j hj _ =>
      hf _ (Cell.mem_grid.mpr ⟨hi, mem_range.mp hj⟩)
  | column j =>
    have hj : j < t.demand.length := lt_of_lt_of_le hl h.cols_le
    exact sum_le_sum_of_subset_of_nonneg (range_subset_range.mpr h.rows_le) fun i hi _ =>
      hf _ (Cell.mem_grid.mpr ⟨mem_range.mp hi, hj⟩)

/-- Quantities that serve the tableau ship the smaller total within the problem: the side with the
smaller total has no added line to ship to. -/
theorem sum_given (total : ∀ l x, (Remaining.mk t.supply t.demand).left? l = some x →
      Line.total t.supply.length t.demand.length f l = x) :
    ∑ c ∈ Cell.rectangle p.supply.length p.demand.length, f c =
      min p.supply.sum p.demand.sum := by
  have rows (e : t.demand = p.demand) :
      ∑ c ∈ Cell.rectangle p.supply.length p.demand.length, f c = p.supply.sum :=
    Table.sum_of_rows fun i s hs =>
      (congrArg (fun d => Line.total t.supply.length d.length f (.row i)) e.symm).trans
        (total (.row i) s (h.left?_eq hs))
  have columns (e : t.supply = p.supply) :
      ∑ c ∈ Cell.rectangle p.supply.length p.demand.length, f c = p.demand.sum :=
    Table.sum_of_columns fun j d hd =>
      (congrArg (fun s => Line.total s.length t.demand.length f (.column j)) e.symm).trans
        (total (.column j) d (h.left?_eq hd))
  obtain ⟨same, -, ed⟩ | ⟨le, es, -⟩ | ⟨le, -, ed⟩ := h.lines
  · rw [rows ed, min_eq_left same.le]
  · rw [columns es, min_eq_right le]
  · rw [rows ed, min_eq_left le]

end Extends

/-- A balanced tableau whose lines have equal totals extends its problem. -/
theorem extends_of_lines (h : p.check = .ok ()) (e : ofProblem p tol = .ok t)
    (ec : p.costTable = .ok costs)
    (lines : (p.supply.sum = p.demand.sum ∧ t.supply = p.supply ∧ t.demand = p.demand) ∨
      (p.demand.sum ≤ p.supply.sum ∧ t.supply = p.supply ∧
        t.demand = p.demand ++ [p.supply.sum - p.demand.sum]) ∨
      (p.supply.sum ≤ p.demand.sum ∧ t.supply = p.supply ++ [p.demand.sum - p.supply.sum] ∧
        t.demand = p.demand)) : t.Extends p costs := by
  have cell := fun c => costs_of_ofProblem (c := c) h e ec
  refine ⟨lines, fun c hc => ?_, fun c hc hin => ?_, fun c hc hout => ?_⟩
  · rcases cell c hc with ⟨dummy, hout, -⟩ | ⟨given, hin, -⟩
    · exact ⟨fun e => (Bool.false_ne_true (e.symm.trans dummy)).elim, fun hin => (hout hin).elim⟩
    · exact ⟨fun _ => hin, fun _ => given⟩
  · rcases cell c hc with ⟨-, hout, -⟩ | ⟨-, -, e⟩
    · exact (hout hin).elim
    · exact e
  · rcases cell c hc with ⟨-, -, e⟩ | ⟨-, hin, -⟩
    · exact e
    · exact (hout hin).elim

/-- The balanced tableau of integer supplies and demands extends the problem, under a tolerance below
one. -/
theorem extends_of_ofProblem (h : p.check = .ok ()) (small : tol < 1)
    (hs : ∀ x ∈ p.supply, IsInteger x) (hd : ∀ x ∈ p.demand, IsInteger x)
    (e : ofProblem p tol = .ok t) (ec : p.costTable = .ok costs) : t.Extends p costs :=
  extends_of_lines h e ec (lines_of_ofProblem h small hs hd e)

end Tableau

/-! ## What a plan leaves over -/

section Rest

variable {supply demand : List Rat}

/-- Amounts with one more column, for what the rows have left over. -/
def withColumn (supply : List Rat) (n : Nat) (f : Cell → Rat) (c : Cell) : Rat :=
  if c.col < n then f c
  else supply[c.row]?.getD 0 - Line.total supply.length n f (.row c.row)

theorem withColumn_of_lt {n : Nat} {c : Cell} (hc : c.col < n) :
    withColumn supply n f c = f c := if_pos hc

theorem withColumn_of_le {n : Nat} {c : Cell} {s : Rat} (hc : n ≤ c.col)
    (hs : supply[c.row]? = some s) :
    withColumn supply n f c = s - Line.total supply.length n f (.row c.row) := by
  rw [withColumn, if_neg (Nat.not_lt.mpr hc), hs]
  rfl

/-- One more column for what the rows have left over makes them ship all they have. If the other
columns receive what they need, it receives the difference of the totals. -/
theorem exists_column
    (nonneg : ∀ c ∈ Cell.grid supply.length demand.length, 0 ≤ f c)
    (rows : ∀ i s, supply[i]? = some s →
      Line.total supply.length demand.length f (.row i) ≤ s)
    (columns : ∀ j d, demand[j]? = some d →
      Line.total supply.length demand.length f (.column j) = d) :
    ∃ g : Cell → Rat, (∀ c ∈ Cell.grid supply.length (demand.length + 1), 0 ≤ g c) ∧
      (∀ i s, supply[i]? = some s →
        Line.total supply.length (demand.length + 1) g (.row i) = s) ∧
      (∀ j d, (demand ++ [supply.sum - demand.sum])[j]? = some d →
        Line.total supply.length (demand.length + 1) g (.column j) = d) ∧
      ∀ c ∈ Cell.grid supply.length demand.length, g c = f c := by
  have last : ∀ i s, supply[i]? = some s → withColumn supply demand.length f ⟨i, demand.length⟩ =
      s - Line.total supply.length demand.length f (.row i) :=
    fun i s hs => withColumn_of_le (Nat.le_refl demand.length) hs
  refine ⟨withColumn supply demand.length f, fun c hc => ?_, fun i s hs => ?_, fun j d hd => ?_,
    fun c hc => withColumn_of_lt (Cell.mem_grid.mp hc).2⟩
  · obtain ⟨hr, -⟩ := Cell.mem_grid.mp hc
    rcases Nat.lt_or_ge c.col demand.length with hcol | hcol
    · rw [withColumn_of_lt hcol]
      exact nonneg c (Cell.mem_grid.mpr ⟨hr, hcol⟩)
    · have hs := List.getElem?_eq_getElem hr
      rw [withColumn_of_le hcol hs]
      exact sub_nonneg.mpr (rows c.row _ hs)
  · have row : ∑ k ∈ range demand.length, withColumn supply demand.length f ⟨i, k⟩ =
        Line.total supply.length demand.length f (.row i) :=
      sum_congr rfl fun k hk => withColumn_of_lt (mem_range.mp hk)
    rw [Line.total, sum_range_succ, row, last i s hs]
    exact add_sub_cancel _ _
  · rcases Nat.lt_or_ge j demand.length with hj | hj
    · rw [List.getElem?_append_left hj] at hd
      rw [← columns j d hd]
      exact sum_congr rfl fun i _ => withColumn_of_lt hj
    · obtain rfl : j = demand.length := by
        have := (List.getElem?_eq_some_iff.mp hd).1
        rw [List.length_append, List.length_singleton] at this
        omega
      rw [List.getElem?_concat_length] at hd
      cases hd
      have all : ∑ i ∈ range supply.length, (withColumn supply demand.length f ⟨i, demand.length⟩ +
          Line.total supply.length demand.length f (.row i)) = supply.sum :=
        Table.sum_range_eq fun i s hs => by
          rw [last i s hs]
          exact sub_add_cancel _ _
      rw [sum_add_distrib] at all
      have shipped := Table.sum_of_columns columns
      rw [sum_grid] at shipped
      rw [← all, ← shipped]
      exact (add_sub_cancel_right _ _).symm

/-- One more row for what the columns need beyond what they receive gives them all they need. If the
other rows ship what they have, it ships the difference of the totals. -/
theorem exists_row
    (nonneg : ∀ c ∈ Cell.grid supply.length demand.length, 0 ≤ f c)
    (rows : ∀ i s, supply[i]? = some s →
      Line.total supply.length demand.length f (.row i) = s)
    (columns : ∀ j d, demand[j]? = some d →
      Line.total supply.length demand.length f (.column j) ≤ d) :
    ∃ g : Cell → Rat, (∀ c ∈ Cell.grid (supply.length + 1) demand.length, 0 ≤ g c) ∧
      (∀ i s, (supply ++ [demand.sum - supply.sum])[i]? = some s →
        Line.total (supply.length + 1) demand.length g (.row i) = s) ∧
      (∀ j d, demand[j]? = some d →
        Line.total (supply.length + 1) demand.length g (.column j) = d) ∧
      ∀ c ∈ Cell.grid supply.length demand.length, g c = f c := by
  -- With rows and columns exchanged, a row is a column.
  have swap : ∀ {m n : Nat} {c : Cell}, c ∈ Cell.grid m n → (⟨c.col, c.row⟩ : Cell) ∈ Cell.grid n m :=
    fun hc => Cell.mem_grid.mpr (Cell.mem_grid.mp hc).symm
  obtain ⟨g, nonneg', rows', columns', same⟩ := exists_column (f := fun c => f ⟨c.col, c.row⟩)
    (fun c hc => nonneg _ (swap hc)) columns rows
  exact ⟨fun c => g ⟨c.col, c.row⟩, fun c hc => nonneg' _ (swap hc), columns', rows',
    fun c hc => same _ (swap hc)⟩

/-- Amounts with the right totals are the entries of a shipment. -/
theorem Table.exists_serves {m n : Nat} (hm : 0 < m) (hs : supply.length = m)
    (hd : demand.length = n) (nonneg : ∀ c ∈ Cell.grid m n, 0 ≤ f c)
    (rows : ∀ i s, supply[i]? = some s → Line.total m n f (.row i) = s)
    (columns : ∀ j d, demand[j]? = some d → Line.total m n f (.column j) = d) :
    ∃ z : Table Rat, z.Serves supply demand ∧ ∀ c ∈ Cell.grid m n, z.entry c = f c := by
  subst hs hd
  obtain ⟨z, fits, entry⟩ := exists_entries (n := demand.length) hm f
  refine ⟨z, serves_iff.mpr ⟨⟨fits.wellFormed, fits.rows_eq, fits.cols_eq, fun c hc => ?_⟩,
    fun l q hq => ?_⟩, entry⟩
  · rw [fits.cells_eq] at hc
    exact entry c hc ▸ nonneg c hc
  · refine (total_congr entry (Remaining.exists_left?_iff.mp ⟨q, hq⟩)).trans ?_
    cases l with
    | row i => exact rows i q hq
    | column j => exact columns j q hq

/-- A plan that moves the smaller total of a problem is part of a shipment for its tableau. -/
theorem Tableau.Extends.exists_rival (h : t.Extends p costs) (hm : 0 < p.supply.length)
    {y : Table Rat} (hy : y.Moves p.supply p.demand (min p.supply.sum p.demand.sum)) :
    ∃ z : Table Rat, z.Serves t.supply t.demand ∧
      ∀ c ∈ Cell.grid p.supply.length p.demand.length, z.entry c = y.entry c := by
  have nonneg : ∀ c ∈ Cell.grid p.supply.length p.demand.length, 0 ≤ y.entry c := fun c hc =>
    hy.nonneg c (hy.toIsShipping.fits.cells_eq ▸ hc)
  have inside : ∀ {c : Cell} {m n : Nat}, c ∈ Cell.grid p.supply.length p.demand.length →
      p.supply.length ≤ m → p.demand.length ≤ n → c ∈ Cell.grid m n := fun hc hm hn =>
    Cell.mem_grid.mpr ⟨(Cell.mem_grid.mp hc).1.trans_le hm, (Cell.mem_grid.mp hc).2.trans_le hn⟩
  obtain ⟨same, es, ed⟩ | ⟨le, es, ed⟩ | ⟨le, es, ed⟩ := h.lines <;> rw [es, ed]
  · exact Table.exists_serves hm rfl rfl nonneg (hy.total_row (min_eq_left same.le))
      (hy.total_column (min_eq_right same.ge))
  · obtain ⟨g, nonneg', rows, columns, eq⟩ := exists_column nonneg
      (fun i s hs => hy.total_le (.row i) s hs) (hy.total_column (min_eq_right le))
    obtain ⟨z, serves, entry⟩ := Table.exists_serves hm rfl List.length_append nonneg' rows columns
    exact ⟨z, serves, fun c hc => (entry c (inside hc le_rfl (Nat.le_succ _))).trans (eq c hc)⟩
  · obtain ⟨g, nonneg', rows, columns, eq⟩ := exists_row nonneg
      (hy.total_row (min_eq_left le)) fun j d hd => hy.total_le (.column j) d hd
    obtain ⟨z, serves, entry⟩ :=
      Table.exists_serves (Nat.succ_pos _) List.length_append rfl nonneg' rows columns
    exact ⟨z, serves, fun c hc => (entry c (inside hc (Nat.le_succ _) le_rfl)).trans (eq c hc)⟩

/-- It costs what the plan costs. -/
theorem Tableau.Extends.cost?_eq (h : t.Extends p costs) {y z : Table Rat}
    (hz : z.Fits t.supply.length t.demand.length) (ht : t.costs.Fits t.supply.length t.demand.length)
    (hy : y.Fits p.supply.length p.demand.length) (hc : costs.Fits p.supply.length p.demand.length)
    (same : ∀ c ∈ Cell.grid p.supply.length p.demand.length, z.entry c = y.entry c) :
    z.cost? t.costs = y.cost? costs := by
  rw [hz.cost?_rat ht, hy.cost?_rat hc, h.sum_eq fun c hg hout => by rw [h.free c hg hout, mul_zero]]
  refine congrArg some (sum_congr rfl fun c hm => ?_)
  have hg := Cell.mem_rectangle.mp hm
  rw [same c hg, h.kept c (h.mem_grid hg) hg]

end Rest

/-! ## Routes -/

/-- What the routes between given lines ship on a line. -/
def Plan.shippedOn (plan : Plan Rat) (l : Line) : Rat :=
  ((plan.activeRoutes.filter fun r =>
    l == .row r.sourceIndex || l == .column r.destinationIndex).map Route.quantity).sum

/-- The cells in use between given lines. -/
def Tableau.activeCells (t : Tableau Rat) (tol : Rat) (allocation : Table Rat) : List Cell :=
  (allocation.loaded tol).filter fun c => !t.isDummy c

section Routes

variable {allocation : Table Rat} (h : t.Extends p costs)
  (ha : allocation.Fits t.supply.length t.demand.length)

include h ha

theorem Tableau.Extends.mem_activeCells {c : Cell} : c ∈ t.activeCells tol allocation ↔
    c ∈ Cell.grid p.supply.length p.demand.length ∧ tol < allocation.entry c := by
  rw [activeCells, List.mem_filter, ha.mem_loaded]
  constructor
  · rintro ⟨⟨hc, used⟩, dummy⟩
    exact ⟨(h.given c hc).mp (by simpa using dummy), used⟩
  · rintro ⟨hin, used⟩
    have hc := h.mem_grid hin
    exact ⟨⟨hc, used⟩, by simpa using (h.given c hc).mpr hin⟩

/-- Sums over active cells are sums over the cells of the problem, if idle cells have nothing to
add. -/
theorem Tableau.Extends.sum_active (q : Cell → Bool)
    (idle : ∀ c ∈ Cell.grid p.supply.length p.demand.length,
      allocation.entry c ≤ tol → f c = 0) :
    (((t.activeCells tol allocation).filter q).map f).sum =
      ∑ c ∈ Cell.rectangle p.supply.length p.demand.length, if q c = true then f c else 0 := by
  have nodup : ((t.activeCells tol allocation).filter q).Nodup :=
    ((allocation.nodup_cellsWhere _).filter _).filter q
  rw [← List.sum_toFinset f nodup]
  have sub : ((t.activeCells tol allocation).filter q).toFinset ⊆
      Cell.rectangle p.supply.length p.demand.length := by
    intro c hc
    obtain ⟨hc, -⟩ := List.mem_filter.mp (List.mem_toFinset.mp hc)
    exact Cell.mem_rectangle.mpr ((h.mem_activeCells ha).mp hc).1
  rw [← sum_filter]
  refine sum_subset ?_ ?_
  · intro c hc
    have hm := List.mem_filter.mp (List.mem_toFinset.mp hc)
    exact mem_filter.mpr ⟨sub hc, hm.2⟩
  · intro c hc hout
    obtain ⟨hc, hq⟩ := mem_filter.mp hc
    have hin := Cell.mem_rectangle.mp hc
    refine idle c hin (not_lt.mp fun used => hout ?_)
    exact List.mem_toFinset.mpr (List.mem_filter.mpr ⟨(h.mem_activeCells ha).mpr ⟨hin, used⟩, hq⟩)

theorem Tableau.Extends.sum_activeCells
    (idle : ∀ c ∈ Cell.grid p.supply.length p.demand.length,
      allocation.entry c ≤ tol → f c = 0) :
    ((t.activeCells tol allocation).map f).sum =
      ∑ c ∈ Cell.rectangle p.supply.length p.demand.length, f c := by
  have all := h.sum_active ha (fun _ => true) idle
  rw [List.filter_true] at all
  exact all.trans (sum_congr rfl fun c _ => if_pos rfl)

end Routes

namespace Plan.Describes

variable {plan : Plan Rat} {last : Position Rat} (h : plan.Describes plan.tableau tol last)
  (fits : plan.tableau.Fits plan.supply.length plan.demand.length)
  (hq : last.Sound plan.supply.length plan.demand.length)

include h fits hq

theorem routes_eq_map : plan.routes =
    (last.allocation.loaded tol).map (plan.tableau.route last.allocation) := by
  have e := h.routes_eq
  rw [fits.routes?_eq hq.allocation tol] at e
  exact (Option.some.inj e).symm

theorem activeRoutes_eq : plan.activeRoutes =
    (plan.tableau.activeCells tol last.allocation).map (plan.tableau.route last.allocation) := by
  rw [activeRoutes, h.routes_eq_map fits hq, List.filter_map]
  rfl

variable (extends' : plan.tableau.Extends p costs)
  (idle : ∀ c ∈ Cell.grid plan.supply.length plan.demand.length,
    last.allocation.entry c ≤ tol → last.allocation.entry c = 0)

include extends' idle

theorem sum_quantity : (plan.activeRoutes.map Route.quantity).sum =
    ∑ c ∈ Cell.rectangle p.supply.length p.demand.length, last.allocation.entry c := by
  rw [h.activeRoutes_eq fits hq, List.map_map]
  exact extends'.sum_activeCells hq.allocation fun c hc => idle c (extends'.mem_grid hc)

/-- The routes between given lines carry the whole cost. -/
theorem sum_routeCost : (plan.activeRoutes.map Route.routeCost).sum = plan.totalCost := by
  have total := h.totalCost_eq
  rw [hq.allocation.cost?_rat fits.costs] at total
  have free : ∀ c ∈ Cell.grid plan.supply.length plan.demand.length,
      c ∉ Cell.grid p.supply.length p.demand.length →
        last.allocation.entry c * plan.costs.entry c = 0 := fun c hg hout =>
    (congrArg (_ * ·) (extends'.free c hg hout)).trans (mul_zero _)
  rw [h.activeRoutes_eq fits hq, List.map_map, ← Option.some.inj total]
  refine (extends'.sum_activeCells hq.allocation fun c hc hle => ?_).trans
    (extends'.sum_eq free).symm
  exact (congrArg (· * _) (idle c (extends'.mem_grid hc) hle)).trans (zero_mul _)

theorem shippedOn_eq {l : Line} (hl : l.Within p.supply.length p.demand.length) :
    plan.shippedOn l =
      Line.total p.supply.length p.demand.length last.allocation.entry l := by
  rw [shippedOn, h.activeRoutes_eq fits hq, List.filter_map, List.map_map, total_eq_sum _ hl]
  refine (extends'.sum_active hq.allocation _ fun c hc => idle c (extends'.mem_grid hc)).trans ?_
  refine sum_congr rfl fun c _ => ?_
  have through : (l == .row c.row || l == .column c.col) = true ↔ l.Through c := by
    rw [Bool.or_eq_true, beq_iff_eq, beq_iff_eq]
    exact ⟨fun e => e.elim (fun e => e ▸ Line.through_row c) fun e => e ▸ Line.through_column c,
      Line.Through.eq_or⟩
  by_cases hc : l.Through c
  · rw [Line.weight_of_through hc, mul_one]
    exact if_pos (through.mpr hc)
  · rw [Line.weight_of_not_through hc, mul_zero]
    exact if_neg fun e => hc (through.mp e)

end Plan.Describes

/-- Planning with improvement for a problem with integer amounts and costs, balanced or not, under a
tolerance below one. The routes between given lines ship the smaller total, stay within supplies and
demands, and carry the whole cost; and no other plan of the problem that moves as much is
cheaper. -/
theorem Problem.solve_moves (p : Problem Rat) (config : Config Rat) (plan : Plan Rat)
    (hs : ∀ x ∈ p.supply, IsInteger x) (hd : ∀ x ∈ p.demand, IsInteger x)
    (hc : ∀ row ∈ p.costs, ∀ x ∈ row, IsInteger x) (improve : config.optimize = true)
    (small : config.tolerance < 1) (h : p.solve config = .ok plan) :
    (∀ r ∈ plan.activeRoutes,
        r.sourceIndex < p.supply.length ∧ r.destinationIndex < p.demand.length) ∧
      (plan.activeRoutes.map Route.quantity).sum = min p.totalSupply p.totalDemand ∧
      (∀ i s, p.supply[i]? = some s → plan.shippedOn (.row i) ≤ s) ∧
      (∀ j d, p.demand[j]? = some d → plan.shippedOn (.column j) ≤ d) ∧
      (∀ r ∈ plan.routes, r.isDummy = true → r.routeCost = 0) ∧
      plan.totalCost = (plan.activeRoutes.map Route.routeCost).sum ∧
      ∃ costs, p.costTable = .ok costs ∧ ∀ y : Table Rat,
        y.Moves p.supply p.demand (min p.totalSupply p.totalDemand) →
          ∃ cost, y.cost? costs = some cost ∧ plan.totalCost ≤ cost := by
  obtain ⟨-, parts⟩ := checks_of_solve h
  obtain ⟨-, et, fits, last, describes, sound, ships, -⟩ := exists_last hs hd improve small h
  obtain ⟨costs, ec, costsFit, -⟩ := exists_costTable parts
  have extends' := Tableau.extends_of_ofProblem parts small hs hd et ec
  have idle : ∀ c ∈ Cell.grid plan.supply.length plan.demand.length,
      last.allocation.entry c ≤ config.tolerance → last.allocation.entry c = 0 := fun c hg hle =>
    (ships.integer c hg).eq_zero (ships.nonneg c hg) (lt_of_le_of_lt hle small)
  have within' : ∀ l x, (Remaining.mk p.supply p.demand).left? l = some x →
      plan.shippedOn l ≤ x := by
    intro l x hx
    have hl := Remaining.exists_left?_iff.mp ⟨x, hx⟩
    rw [describes.shippedOn_eq fits sound extends' idle hl,
      ← ships.total l x (extends'.left?_eq hx)]
    exact extends'.total_le ships.nonneg hl
  have totalSupply : p.totalSupply = p.supply.sum := sum_rat p.supply
  have totalDemand : p.totalDemand = p.demand.sum := sum_rat p.demand
  rw [totalSupply, totalDemand]
  refine ⟨fun r hr => ?_, ?_, fun i s => within' (.row i) s, fun j d => within' (.column j) d,
    fun r hr dummy => ?_, ?_, costs, ec, fun y hy => ?_⟩
  · rw [describes.activeRoutes_eq fits sound] at hr
    obtain ⟨c, hm, rfl⟩ := List.mem_map.mp hr
    exact Cell.mem_grid.mp ((extends'.mem_activeCells sound.allocation).mp hm).1
  · rw [describes.sum_quantity fits sound extends' idle]
    exact extends'.sum_given ships.total
  · rw [describes.routes_eq_map fits sound] at hr
    obtain ⟨c, hm, rfl⟩ := List.mem_map.mp hr
    have hg := ((Table.mem_cellsWhere sound.allocation.wellFormed).mp hm).1
    rw [sound.allocation.cells_eq] at hg
    have hout : c ∉ Cell.grid p.supply.length p.demand.length := fun hin =>
      Bool.false_ne_true (((extends'.given c hg).mpr hin).symm.trans dummy)
    exact (congrArg (_ * ·) (extends'.free c hg hout)).trans (mul_zero _)
  · exact (describes.sum_routeCost fits sound extends' idle).symm
  · obtain ⟨z, serves, same⟩ := extends'.exists_rival (plannable_of_check parts).rows_pos hy
    obtain ⟨cost, ecost, le⟩ := totalCost_le_of_integer hs hd hc improve small h serves
    refine ⟨cost, ?_, le⟩
    rw [← ecost]
    exact (extends'.cost?_eq serves.toIsShipping.fits fits.costs hy.toIsShipping.fits costsFit
      same).symm

/-- The surplus of five units stays where it is: 70 units are moved at a cost of 590, and moving them
cannot be cheaper. -/
theorem Problem.solve_moves_threeSources :
    (∀ x ∈ threeSources.supply, IsInteger x) ∧ (∀ x ∈ threeSources.demand, IsInteger x) ∧
      (∀ row ∈ threeSources.costs, ∀ x ∈ row, IsInteger x) ∧
      fromCorner.optimize = true ∧ fromCorner.tolerance < 1 ∧
      ∃ plan, threeSources.solve fromCorner = .ok plan ∧
        (plan.activeRoutes.map Route.quantity).sum = 70 ∧
        (plan.activeRoutes.map Route.routeCost).sum = 590 ∧
        ∃ costs, threeSources.costTable = .ok costs ∧ ∀ y : Table Rat,
          y.Moves threeSources.supply threeSources.demand 70 →
            ∃ cost, y.cost? costs = some cost ∧ 590 ≤ cost := by
  have supply : ∀ x ∈ threeSources.supply, IsInteger x := by decide +kernel
  have demand : ∀ x ∈ threeSources.demand, IsInteger x := by decide +kernel
  have integer : ∀ row ∈ threeSources.costs, ∀ x ∈ row, IsInteger x := by decide +kernel
  have small : fromCorner.tolerance < 1 := by decide +kernel
  have smaller : min threeSources.totalSupply threeSources.totalDemand = 70 := by decide +kernel
  obtain ⟨plan, solved, cost, -⟩ := threeSources_planned
  obtain ⟨-, moved, -, -, -, total, costs, ec, least⟩ :=
    solve_moves threeSources fromCorner plan supply demand integer rfl small solved
  rw [smaller] at moved least
  rw [cost] at total least
  exact ⟨supply, demand, integer, rfl, small, plan, solved, moved, total.symm, costs, ec, least⟩

end Freight
