import Freight.Model.Pairing
import Freight.Proofs.Acceptance
import Freight.Proofs.Unbalanced

/-!
# Pairings as quantities

A pairing is a way to ship where every line has one unit: it ships one unit on each of its cells
(`Cell.mark`), no line ships more than one, and as many are moved as the shorter side has lines
(`IsPairing.exists_moves`). Different cells that carry so much are a pairing in turn
(`isPairing_of_total_le`).

A plan of unit supplies and demands ships integers of at most one, so the routes that carry more
than one half are a pairing, in the order of its rows (`Plan.ShipsUnits.isPairing`,
`Plan.ShipsUnits.pairwise_row`). It costs what these routes cost, so the pairing of a certified plan
is as cheap as any other (`Plan.ShipsUnits.sum_costs_le`). A tolerance of one or more is another
matter: no line has more than that, and nothing is shipped at all (`Problem.pairsOf_eq_nil`).
-/

namespace Freight

open Finset Scalar

variable {m n : Nat} {pairs rival : List Cell} {c d : Cell} {l : Line}

/-! ## One unit on each cell -/

/-- One unit on each of the given cells. -/
def Cell.mark (pairs : List Cell) (c : Cell) : Rat := if c ∈ pairs then 1 else 0

theorem Cell.mark_of_mem (h : c ∈ pairs) : Cell.mark pairs c = 1 := if_pos h

theorem Cell.mark_of_not_mem (h : c ∉ pairs) : Cell.mark pairs c = 0 := if_neg h

theorem Cell.mark_nonneg (pairs : List Cell) (c : Cell) : 0 ≤ Cell.mark pairs c := by
  unfold mark
  split <;> decide

/-- A sum over marked cells is a sum over the list. -/
theorem sum_mark (inside : ∀ c ∈ pairs, c ∈ Cell.grid m n) (nodup : pairs.Nodup) (f : Cell → Rat) :
    ∑ c ∈ Cell.rectangle m n, Cell.mark pairs c * f c = (pairs.map f).sum := by
  have sub : pairs.toFinset ⊆ Cell.rectangle m n := by
    intro c hc
    exact Cell.mem_rectangle.mpr (inside c (List.mem_toFinset.mp hc))
  have unmarked : ∀ c ∈ Cell.rectangle m n, c ∉ pairs.toFinset → Cell.mark pairs c * f c = 0 := by
    intro c _ hout
    rw [List.mem_toFinset] at hout
    rw [Cell.mark_of_not_mem hout, zero_mul]
  rw [← List.sum_toFinset f nodup, ← sum_subset sub unmarked]
  apply sum_congr rfl
  intro c hc
  rw [Cell.mark_of_mem (List.mem_toFinset.mp hc), one_mul]

theorem sum_mark_eq_length (inside : ∀ c ∈ pairs, c ∈ Cell.grid m n) (nodup : pairs.Nodup) :
    ∑ c ∈ Cell.rectangle m n, Cell.mark pairs c = pairs.length := by
  have count := sum_mark inside nodup fun _ => 1
  simpa using count

/-- If a line carries at most one unit, no two of the cells are on it. -/
theorem eq_of_total_le (inside : ∀ c ∈ pairs, c ∈ Cell.grid m n) (hc : c ∈ pairs) (hd : d ∈ pairs)
    (through : l.Through c) (through' : l.Through d) (hl : l.Within m n)
    (le : Line.total m n (Cell.mark pairs) l ≤ 1) : c = d := by
  -- Two different cells on the line would carry two units.
  by_contra ne
  have sub : {c, d} ⊆ Cell.rectangle m n := by
    intro e he
    rcases mem_insert.mp he with rfl | he
    · exact Cell.mem_rectangle.mpr (inside _ hc)
    · exact Cell.mem_rectangle.mpr (mem_singleton.mp he ▸ inside _ hd)
  have two : (2 : Rat) ≤ Line.total m n (Cell.mark pairs) l := calc
    (2 : Rat) = ∑ e ∈ {c, d}, Cell.mark pairs e * l.weight e := by
      rw [sum_pair ne, Cell.mark_of_mem hc, Cell.mark_of_mem hd, Line.weight_of_through through,
        Line.weight_of_through through']
      norm_num
    _ ≤ ∑ e ∈ Cell.rectangle m n, Cell.mark pairs e * l.weight e :=
      sum_le_sum_of_subset_of_nonneg sub fun e _ _ =>
        mul_nonneg (Cell.mark_nonneg pairs e) (l.weight_nonneg e)
    _ = Line.total m n (Cell.mark pairs) l := (total_eq_sum _ hl).symm
  linarith

/-- Different cells are a pairing if they are as many as the shorter side has lines and no line
carries more than one unit. -/
theorem isPairing_of_total_le (inside : ∀ c ∈ pairs, c ∈ Cell.grid m n) (nodup : pairs.Nodup)
    (le : ∀ l : Line, l.Within m n → Line.total m n (Cell.mark pairs) l ≤ 1)
    (length : pairs.length = min m n) : IsPairing m n pairs := by
  refine ⟨inside, ?_, ?_, length⟩
  · apply nodup.map_on
    intro c hc d hd e
    have hl : (Line.row c.row).Within m n := Line.row_within (inside c hc)
    exact eq_of_total_le inside hc hd (Line.through_row c) (e ▸ Line.through_row d) hl (le _ hl)
  · apply nodup.map_on
    intro c hc d hd e
    have hl : (Line.column c.col).Within m n := Line.column_within (inside c hc)
    exact eq_of_total_le inside hc hd (Line.through_column c) (e ▸ Line.through_column d) hl
      (le _ hl)

namespace IsPairing

variable (h : IsPairing m n pairs)

include h

theorem nodup : pairs.Nodup := h.rows_nodup.of_map _

/-- No two pairs are on one line. -/
theorem eq_of_through (hc : c ∈ pairs) (hd : d ∈ pairs) (through : l.Through c)
    (through' : l.Through d) : c = d := by
  obtain rfl | rfl := through.eq_or
  · exact List.inj_on_of_nodup_map h.rows_nodup hc hd through'.symm
  · exact List.inj_on_of_nodup_map h.cols_nodup hc hd through'.symm

/-- No line carries more than one unit of a pairing. -/
theorem total_le (hl : l.Within m n) : Line.total m n (Cell.mark pairs) l ≤ 1 := by
  -- Only marked cells on the line count.
  have count : ∀ c, (c ∈ pairs → ¬ l.Through c) → Cell.mark pairs c * l.weight c = 0 := by
    intro c off
    by_cases hc : c ∈ pairs
    · rw [Line.weight_of_not_through (off hc), mul_zero]
    · rw [Cell.mark_of_not_mem hc, zero_mul]
  rw [total_eq_sum _ hl]
  by_cases used : ∃ c ∈ pairs, l.Through c
  · obtain ⟨c, hc, through⟩ := used
    have others : ∀ d ∈ Cell.rectangle m n, d ≠ c → Cell.mark pairs d * l.weight d = 0 := by
      intro d _ ne
      apply count d
      intro hd through'
      exact ne (h.eq_of_through hd hc through' through)
    rw [sum_eq_single_of_mem c (Cell.mem_rectangle.mpr (h.inside c hc)) others,
      Cell.mark_of_mem hc, Line.weight_of_through through, one_mul]
  · have none' : ∀ c ∈ Cell.rectangle m n, Cell.mark pairs c * l.weight c = 0 := by
      intro c _
      apply count c
      intro hc through
      exact used ⟨c, hc, through⟩
    rw [sum_eq_zero none']
    exact zero_le_one

end IsPairing

/-- Where every line has one unit, a pairing is a plan that moves as much as there can be moved. -/
theorem IsPairing.exists_moves {supply demand : List Rat}
    (h : IsPairing supply.length demand.length pairs) (hm : 0 < supply.length)
    (hs : ∀ x ∈ supply, x = 1) (hd : ∀ x ∈ demand, x = 1) :
    ∃ y : Table Rat, y.Moves supply demand (min supply.length demand.length : Nat) ∧
      ∀ c ∈ Cell.grid supply.length demand.length, y.entry c = Cell.mark pairs c := by
  obtain ⟨y, fits, entry⟩ := Table.exists_entries (n := demand.length) hm (Cell.mark pairs)
  have total : ∀ l : Line, l.Within supply.length demand.length →
      Line.total supply.length demand.length y.entry l ≤ 1 := by
    intro l hl
    rw [total_congr entry hl]
    exact h.total_le hl
  refine ⟨y, ⟨⟨fits.wellFormed, fits.rows_eq, fits.cols_eq, ?_⟩, ?_, ?_, ?_⟩, entry⟩
  · intro c hc
    rw [fits.cells_eq] at hc
    rw [entry c hc]
    exact Cell.mark_nonneg pairs c
  · intro i s q hi hq
    have inside : i < supply.length := (List.getElem?_eq_some_iff.mp hi).1
    rw [fits.rowSum?_rat inside] at hq
    rw [hs s (List.mem_of_getElem? hi), ← Option.some.inj hq]
    exact total (.row i) inside
  · intro j d q hj hq
    have inside : j < demand.length := (List.getElem?_eq_some_iff.mp hj).1
    rw [fits.columnSum?_rat inside] at hq
    rw [hd d (List.mem_of_getElem? hj), ← Option.some.inj hq]
    exact total (.column j) inside
  · rw [sum_rat, fits.toList_eq, sum_map_grid, ← h.length_eq,
      ← sum_mark_eq_length h.inside h.nodup]
    apply sum_congr rfl
    intro c hc
    exact entry c (Cell.mem_rectangle.mp hc)

/-! ## Plans where every line has one unit -/

/-- What the supplies of a balanced tableau come to. -/
theorem Tableau.Extends.sum_supply {t : Tableau Rat} {p : Problem Rat} {costs : Table Rat}
    (h : t.Extends p costs) : t.supply.sum = max p.supply.sum p.demand.sum := by
  obtain ⟨same, e, -⟩ | ⟨le, e, -⟩ | ⟨le, e, -⟩ := h.lines <;> rw [e]
  · rw [same, max_self]
  · rw [max_eq_left le]
  · rw [max_eq_right le, List.sum_append, List.sum_singleton, add_sub_cancel]

/-- The pairs of a plan are the cells in use that carry more than one half. -/
theorem Plan.Describes.pairsOf_eq {plan : Plan Rat} {last : Position Rat} {tol : Rat}
    (h : plan.Describes plan.tableau tol last)
    (fits : plan.tableau.Fits plan.supply.length plan.demand.length)
    (sound : last.Sound plan.supply.length plan.demand.length) :
    Assignment.pairsOf plan = (plan.tableau.activeCells tol last.allocation).filter
      fun c => decide (half < last.allocation.entry c) := by
  rw [Assignment.pairsOf, h.activeRoutes_eq fits sound, List.filter_map, List.map_map]
  exact List.map_id _

theorem Scalar.half_pos_rat : (0 : Rat) < half := by decide

theorem Scalar.half_lt_one_rat : (half : Rat) < 1 := by decide

theorem forall_isInteger_of_eq_one {xs : List Rat} (h : ∀ x ∈ xs, x = 1) :
    ∀ x ∈ xs, IsInteger x := by
  intro x hx
  exact ⟨1, by rw [h x hx, Int.cast_one]⟩

/-- The plan of a problem with one unit on every line reports integers that serve the lines of its
tableau exactly, under a tolerance below one. -/
structure Plan.ShipsUnits (plan : Plan Rat) (p : Problem Rat) (costs : Table Rat) (tol : Rat)
    (last : Position Rat) : Prop where
  supply_eq : ∀ x ∈ p.supply, x = 1
  demand_eq : ∀ x ∈ p.demand, x = 1
  small : tol < 1
  fits : plan.tableau.Fits plan.supply.length plan.demand.length
  describes : plan.Describes plan.tableau tol last
  sound : last.Sound plan.supply.length plan.demand.length
  ships : last.Ships plan.supply plan.demand plan.supply.length plan.demand.length
  lines : plan.tableau.Extends p costs

namespace Plan.ShipsUnits

variable {plan : Plan Rat} {p : Problem Rat} {costs : Table Rat} {tol : Rat} {last : Position Rat}
  (h : plan.ShipsUnits p costs tol last)

include h

theorem sum_supply : p.supply.sum = p.supply.length := by
  rw [List.eq_replicate_of_mem h.supply_eq, List.sum_replicate, List.length_replicate,
    nsmul_eq_mul, mul_one]

theorem sum_demand : p.demand.sum = p.demand.length := by
  rw [List.eq_replicate_of_mem h.demand_eq, List.sum_replicate, List.length_replicate,
    nsmul_eq_mul, mul_one]

/-- The lines of the problem carry at most one unit within the problem. -/
theorem total_le (hl : l.Within p.supply.length p.demand.length) :
    Line.total p.supply.length p.demand.length last.allocation.entry l ≤ 1 := by
  obtain ⟨x, hx⟩ : ∃ x, (Remaining.mk p.supply p.demand).left? l = some x :=
    Remaining.exists_left?_iff.mpr hl
  have unit : x = 1 := Remaining.forall_left? h.supply_eq h.demand_eq l x hx
  rw [← unit, ← h.ships.total l x (h.lines.left?_eq hx)]
  exact h.lines.total_le h.ships.nonneg hl

/-- A route between given lines carries nothing or one unit. -/
theorem entry_cases (hc : c ∈ Cell.grid p.supply.length p.demand.length) :
    last.allocation.entry c = 0 ∨ last.allocation.entry c = 1 := by
  obtain ⟨hr, hcol⟩ := Cell.mem_grid.mp hc
  obtain ⟨k, hk⟩ := (h.ships.integer c (h.lines.mem_grid hc)).exists_nat
    (h.ships.nonneg c (h.lines.mem_grid hc))
  have part : last.allocation.entry c ≤
      Line.total p.supply.length p.demand.length last.allocation.entry (.row c.row) :=
    single_le_sum (f := fun j => last.allocation.entry ⟨c.row, j⟩)
      (fun j hj => h.ships.nonneg _ (h.lines.mem_grid (Cell.mem_grid.mpr ⟨hr, mem_range.mp hj⟩)))
      (mem_range.mpr hcol)
  have le := part.trans (h.total_le (l := .row c.row) hr)
  rw [hk] at le ⊢
  have small : k ≤ 1 := by exact_mod_cast le
  obtain rfl | rfl : k = 0 ∨ k = 1 := by omega
  · left
    exact Nat.cast_zero
  · right
    exact Nat.cast_one

/-- The pairs are the routes between given lines that carry one unit. -/
theorem mem_pairsOf : c ∈ Assignment.pairsOf plan ↔
    c ∈ Cell.grid p.supply.length p.demand.length ∧ last.allocation.entry c = 1 := by
  rw [h.describes.pairsOf_eq h.fits h.sound, List.mem_filter,
    h.lines.mem_activeCells h.sound.allocation, decide_eq_true_iff]
  constructor
  · rintro ⟨⟨hc, -⟩, more⟩
    refine ⟨hc, (h.entry_cases hc).resolve_left ?_⟩
    intro zero
    rw [zero] at more
    exact lt_asymm more half_pos_rat
  · rintro ⟨hc, one⟩
    rw [one]
    exact ⟨⟨hc, h.small⟩, half_lt_one_rat⟩

theorem inside : ∀ c ∈ Assignment.pairsOf plan,
    c ∈ Cell.grid p.supply.length p.demand.length := by
  intro c hc
  exact (h.mem_pairsOf.mp hc).1

theorem nodup : (Assignment.pairsOf plan).Nodup := by
  rw [h.describes.pairsOf_eq h.fits h.sound]
  exact ((last.allocation.nodup_cellsWhere _).filter _).filter _

/-- The plan ships one unit on each of its pairs, and nothing else between given lines. -/
theorem entry_eq (hc : c ∈ Cell.grid p.supply.length p.demand.length) :
    last.allocation.entry c = Cell.mark (Assignment.pairsOf plan) c := by
  rcases h.entry_cases hc with zero | one
  · have unused : c ∉ Assignment.pairsOf plan := by
      intro used
      exact zero_ne_one (zero.symm.trans (h.mem_pairsOf.mp used).2)
    rw [zero, Cell.mark_of_not_mem unused]
  · rw [one, Cell.mark_of_mem (h.mem_pairsOf.mpr ⟨hc, one⟩)]

theorem length_eq :
    (Assignment.pairsOf plan).length = min p.supply.length p.demand.length := by
  have moved := h.lines.sum_given h.ships.total
  rw [sum_congr rfl fun c hc => h.entry_eq (Cell.mem_rectangle.mp hc),
    sum_mark_eq_length h.inside h.nodup, h.sum_supply, h.sum_demand] at moved
  exact_mod_cast moved

theorem isPairing :
    IsPairing p.supply.length p.demand.length (Assignment.pairsOf plan) := by
  refine isPairing_of_total_le h.inside h.nodup ?_ h.length_eq
  intro l hl
  rw [← total_congr (fun c hc => h.entry_eq hc) hl]
  exact h.total_le hl

/-- The pairs stand in the order of their rows. -/
theorem pairwise_row : (Assignment.pairsOf plan).Pairwise fun c d => c.row < d.row := by
  -- The buffer goes row after row, and no row has two pairs.
  have ordered : (Assignment.pairsOf plan).Pairwise
      fun c d => last.allocation.position c < last.allocation.position d := by
    rw [h.describes.pairsOf_eq h.fits h.sound]
    exact ((last.allocation.pairwise_cellsWhere _).filter _).filter _
  apply ordered.imp_of_mem
  intro c d hc hd before
  have hcol : d.col < last.allocation.cols := by
    rw [h.sound.allocation.cols_eq]
    exact (Cell.mem_grid.mp (h.lines.mem_grid (h.inside d hd))).2
  rcases Cell.before_iff.mp (Table.before_of_position_lt hcol before) with lt | ⟨same, -⟩
  · exact lt
  exfalso
  rw [List.inj_on_of_nodup_map h.isPairing.rows_nodup hc hd same] at before
  exact lt_irrefl _ before

/-! ## Costs -/

/-- The plan costs what its pairs cost. -/
theorem totalCost_eq : plan.totalCost = ((Assignment.pairsOf plan).map costs.entry).sum := by
  have total := h.describes.totalCost_eq
  rw [h.sound.allocation.cost?_rat h.fits.costs] at total
  have free : ∀ c ∈ Cell.grid plan.supply.length plan.demand.length,
      c ∉ Cell.grid p.supply.length p.demand.length →
        last.allocation.entry c * plan.tableau.costs.entry c = 0 := by
    intro c hc hout
    rw [h.lines.free c hc hout, mul_zero]
  rw [← Option.some.inj total, ← sum_mark h.inside h.nodup]
  apply (h.lines.sum_eq free).trans
  apply sum_congr rfl
  intro c hc
  have hg := Cell.mem_rectangle.mp hc
  rw [h.entry_eq hg, h.lines.kept c (h.lines.mem_grid hg) hg]

/-- The pairs of a certified position cost no more than any other pairing, up to the tolerance of
the certificate on each unit. -/
theorem sum_costs_le {w : Line → Rat} {rest : Rat} (hm : 0 < p.supply.length)
    (hc : costs.Fits p.supply.length p.demand.length)
    (hw : Certifies w last.basis plan.costs plan.supply.length plan.demand.length rest)
    (hr : IsPairing p.supply.length p.demand.length rival) :
    ((Assignment.pairsOf plan).map costs.entry).sum ≤
      (rival.map costs.entry).sum + rest * (max p.supply.length p.demand.length : Nat) := by
  -- The rival ships units within the problem. The added line takes what is left over, for nothing,
  -- so that it becomes a shipment of the tableau at the same cost.
  obtain ⟨y, moves, entry⟩ := hr.exists_moves hm h.supply_eq h.demand_eq
  have most : ((min p.supply.length p.demand.length : Nat) : Rat) =
      min p.supply.sum p.demand.sum := by
    rw [h.sum_supply, h.sum_demand, Nat.cast_min]
  obtain ⟨z, serves, same⟩ := h.lines.exists_rival hm (most ▸ moves)
  obtain ⟨cost, ecost, le⟩ := h.describes.totalCost_le h.fits h.sound h.ships hw serves
  have yFits := moves.toIsShipping.fits
  have rivalCost : z.cost? plan.tableau.costs = some (rival.map costs.entry).sum := by
    rw [h.lines.cost?_eq serves.toIsShipping.fits h.fits.costs yFits hc same, yFits.cost?_rat hc,
      ← sum_mark hr.inside hr.nodup]
    apply congrArg some
    apply sum_congr rfl
    intro c hg
    rw [entry c (Cell.mem_rectangle.mp hg)]
  have units : plan.supply.sum = (max p.supply.length p.demand.length : Nat) := by
    rw [Nat.cast_max, ← h.sum_supply, ← h.sum_demand]
    exact h.lines.sum_supply
  have ecost := rivalCost.symm.trans ecost
  rwa [← Option.some.inj ecost, h.totalCost_eq, units] at le

end Plan.ShipsUnits

namespace Problem

variable {p : Problem Rat} {config : Config Rat} {plan : Plan Rat} {costs : Table Rat}

section Units

variable (hs : ∀ x ∈ p.supply, x = 1) (hd : ∀ x ∈ p.demand, x = 1) (small : config.tolerance < 1)
  (ec : p.costTable = .ok costs)

include hs hd small ec

/-- The plan for one unit on every line ships units, and so does the best plan of a spent budget. -/
theorem exists_shipsUnits (h : reported? (p.solve config) = some plan) :
    ∃ last, plan.ShipsUnits p costs config.tolerance last := by
  have supply := forall_isInteger_of_eq_one hs
  have demand := forall_isInteger_of_eq_one hd
  obtain ⟨-, parts⟩ := checks_of_reported? h
  obtain ⟨et, -⟩ := of_reported? (I := fun _ _ => True) h (fun _ _ _ _ _ _ _ _ => trivial)
    fun _ _ _ _ _ _ _ _ _ _ => trivial
  obtain ⟨outcome, reports, ships⟩ := ships_of_reported? h small supply demand
  exact ⟨outcome.position, hs, hd, small, reports.rests.fits, reports.describes,
    reports.rests.sound, ships, Tableau.extends_of_ofProblem parts small supply demand et ec⟩

/-- After improvement no other pairing costs less by more than the tolerance on each unit, and on
integer costs none costs less at all. -/
theorem sum_costs_le_of_solve (improve : config.optimize = true) (h : p.solve config = .ok plan)
    (rival : List Cell) (hr : IsPairing p.supply.length p.demand.length rival) :
    ((Assignment.pairsOf plan).map costs.entry).sum ≤ (rival.map costs.entry).sum +
        config.tolerance * (max p.supply.length p.demand.length : Nat) ∧
      ((∀ row ∈ p.costs, ∀ x ∈ row, IsInteger x) →
        ((Assignment.pairsOf plan).map costs.entry).sum ≤ (rival.map costs.entry).sum) := by
  have supply := forall_isInteger_of_eq_one hs
  have demand := forall_isInteger_of_eq_one hd
  obtain ⟨settings, parts⟩ := checks_of_solve h
  obtain ⟨-, hpos, -⟩ := Config.of_check settings
  obtain ⟨-, et, fits, last, describes, sound, ships, none'⟩ :=
    exists_last supply demand improve small h
  have units : plan.ShipsUnits p costs config.tolerance last :=
    ⟨hs, hd, small, fits, describes, sound, ships,
      Tableau.extends_of_ofProblem parts small supply demand et ec⟩
  obtain ⟨costs', ec', costsFit, -⟩ := exists_costTable parts
  rw [ec] at ec'
  cases ec'
  obtain ⟨w, certifies, start⟩ :=
    sound.basis.exists_certifies fits.rows_pos sound.isTree fits.costs hpos none'
  have rows := (plannable_of_check parts).rows_pos
  refine ⟨units.sum_costs_le rows costsFit certifies hr, ?_⟩
  intro integer
  have exactly := certifies.of_integer sound.basis fits.rows_pos sound.isTree start small
    (Tableau.forall_costs_of_ofProblem parts integer IsInteger.zero et)
  simpa using units.sum_costs_le rows costsFit exactly hr

end Units

end Problem

/-! ## Lines within the tolerance -/

/-- A pivot on empty cells leaves them empty. -/
theorem Position.Pivots.empty {q next : Position Rat} {tol low : Rat} {leaving : Cell}
    {path : List Cell} (h : q.Pivots next tol c path low leaving) (hq : q.Sound m n)
    (empty : ∀ d ∈ Cell.grid m n, q.allocation.entry d = 0) :
    ∀ d ∈ Cell.grid m n, next.allocation.entry d = 0 := by
  have nonneg : ∀ d ∈ Cell.grid m n, 0 ≤ q.allocation.entry d := by
    intro d hd
    rw [empty d hd]
  obtain ⟨e, he, sent⟩ := h.exists_positivePart_eq hq nonneg
  rw [empty e (h.mem_grid_of_losing hq he)] at sent
  intro d hd
  rw [h.entry_eq hq hd, empty d hd, sent, residue]
  split <;> ring

/-- A tableau has no open cell if no line of its problem has more than the tolerance: an added line
has no open line to ship to. -/
theorem Tableau.openCells_eq_nil_of_ofProblem {p : Problem Rat} {t : Tableau Rat} {tol : Rat}
    (parts : p.check = .ok ()) (hs : ∀ x ∈ p.supply, x ≤ tol) (hd : ∀ x ∈ p.demand, x ≤ tol)
    (e : ofProblem p tol = .ok t) : (Remaining.mk t.supply t.demand).openCells tol = [] := by
  rw [List.eq_nil_iff_forall_not_mem]
  intro c hc
  obtain ⟨hrow, hcolumn⟩ := Remaining.mem_openCells.mp hc
  obtain ⟨x, hx, openRow⟩ := Remaining.mem_openLines.mp hrow
  obtain ⟨y, hy, openColumn⟩ := Remaining.mem_openLines.mp hcolumn
  obtain ⟨costs, -, ⟨-, et⟩ | ⟨-, -, et⟩ | ⟨-, -, et⟩⟩ := ofProblem_cases parts tol <;>
    rw [et] at e <;> cases e
  · exact absurd openRow (not_lt.mpr (hs x (List.mem_of_getElem? hx)))
  · exact absurd openRow (not_lt.mpr (hs x (List.mem_of_getElem? hx)))
  · exact absurd openColumn (not_lt.mpr (hd y (List.mem_of_getElem? hy)))

/-- Without an open cell there is no shipment to make. -/
theorem Remaining.Run.eq_nil_of_openCells {r last : Remaining Rat} {ss : List (Shipment Rat)}
    {tol : Rat} (h : Remaining.Run tol r ss last) (closed : r.openCells tol = []) : ss = [] := by
  cases h with
  | done _ => rfl
  | ship hc _ =>
    rw [closed] at hc
    cases hc

/-- If no line has more than the tolerance, planning ships nothing. -/
theorem Problem.pairsOf_eq_nil {p : Problem Rat} {config : Config Rat} {plan : Plan Rat}
    (hs : ∀ x ∈ p.supply, x ≤ config.tolerance) (hd : ∀ x ∈ p.demand, x ≤ config.tolerance)
    (h : reported? (p.solve config) = some plan) : Assignment.pairsOf plan = [] := by
  obtain ⟨settings, parts⟩ := checks_of_reported? h
  obtain ⟨-, hpos, -⟩ := Config.of_check settings
  obtain ⟨-, outcome, reports, empty⟩ := of_reported? (I := fun _ q =>
      ∀ c ∈ Cell.grid plan.supply.length plan.demand.length, q.allocation.entry c = 0) h
    (by
      intro ss _ _ et run _ holds _ c hc
      obtain rfl : ss = [] :=
        run.eq_nil_of_openCells (Tableau.openCells_eq_nil_of_ofProblem parts hs hd et)
      exact holds.entry_eq_zero hc List.not_mem_nil)
    fun _ _ _ _ _ _ _ hp empty pivots => pivots.empty hp empty
  have sound := reports.rests.sound
  rw [reports.describes.pairsOf_eq reports.rests.fits sound]
  rw [List.eq_nil_iff_forall_not_mem]
  intro c hc
  have used := (List.mem_filter.mp (List.mem_filter.mp hc).1).1
  obtain ⟨hg, more⟩ := sound.allocation.mem_loaded.mp used
  rw [empty c hg] at more
  exact absurd more (not_lt.mpr hpos)

end Freight
