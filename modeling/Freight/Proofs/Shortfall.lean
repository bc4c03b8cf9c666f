import Freight.Proofs.Course
import Freight.Proofs.Optimum
import Mathlib.Data.List.Permutation

/-!
# What supplies and demands lose on the way

With a tolerance, quantities need not serve supplies and demands exactly. A greedy run stops when one
side is within the tolerance on each line; the other side then has no more left than all of that, and
what the totals differ by (`Run.left?_le`). A pivot drops what is left on losing cells, and a line has
one of them at most, so no line loses more than the tolerance (`Pivots.total_residue`).

A position *falls short* by an amount if its lines carry no more than their supplies and demands and
no less than that by more than the amount (`Position.FallsShort`). The first position does by the
tolerance times one more than the number of lines on the longer side (`Run.fallsShort`), and each
pivot adds the tolerance (`Pivots.fallsShort`). Main statement: that bound, amounts on basic cells and
a spanning tree, for every position that planning visits (`Problem.solve_visits`).
-/

namespace Freight

open Finset Scalar

variable {m n : Nat} {c leaving : Cell} {path : List Cell} {l : Line} {x tol low rest : Rat}
  {supply demand : List Rat}

/-- The quantities are amounts on basic cells. No line carries more than its supply or demand, and
none falls short of it by more than the given amount. -/
structure Position.FallsShort (p : Position Rat) (supply demand : List Rat) (m n : Nat) (rest : Rat) :
    Prop extends p.Feasible m n where
  total_le : ∀ l x, (Remaining.mk supply demand).left? l = some x →
    Line.total m n p.allocation.entry l ≤ x
  le_total : ∀ l x, (Remaining.mk supply demand).left? l = some x →
    x ≤ Line.total m n p.allocation.entry l + rest

/-! ## The first position -/

namespace Remaining

variable {r last : Remaining Rat} {ss : List (Shipment Rat)} (h : Run tol r ss last)
  (hr : r.Sound m n) (hpos : 0 ≤ tol) (hn : r.Nonneg)
  (near : |r.supply.sum - r.demand.sum| ≤ tol)

include h hr hpos hn near

/-- What a greedy run leaves on a line, if the totals agree within the tolerance. -/
theorem Run.left?_le (hx : last.left? l = some x) : x ≤ ((max m n : Nat) + 1) * tol := by
  have sound := h.sound rfl hpos hr
  have nonneg := h.nonneg hpos hr hn
  rw [← h.surplus_eq hr hpos, abs_le] at near
  have widen : ∀ k : Nat, k ≤ max m n → (k : Rat) * tol + tol ≤ ((max m n : Nat) + 1) * tol := by
    intro k hk
    rw [← add_one_mul]
    exact mul_le_mul_of_nonneg_right (by exact_mod_cast Nat.succ_le_succ hk) hpos
  have closed : ∀ y, y ≤ tol → y ≤ ((max m n : Nat) + 1) * tol := fun y hy =>
    (hy.trans (by simp)).trans (widen 0 (Nat.zero_le _))
  rcases closed_of_openCells_eq_nil h.openCells_last with rows | columns
  · have near : last.demand.sum ≤ last.supply.sum + tol := by linarith
    have few := le_of_forall_le rows nonneg.demand near
    rw [sound.supply_length] at few
    exact forall_left? (fun y hy => closed y (rows y hy))
      (fun y hy => (few y hy).trans (widen m (Nat.le_max_left m n))) l x hx
  · have near : last.supply.sum ≤ last.demand.sum + tol := by linarith
    have few := le_of_forall_le columns nonneg.supply near
    rw [sound.demand_length] at few
    exact forall_left? (fun y hy => (few y hy).trans (widen n (Nat.le_max_right m n)))
      (fun y hy => closed y (columns y hy)) l x hx

/-- The first position of nearly equal totals falls short by what a greedy run leaves. -/
theorem Run.fallsShort {p : Position Rat} (holds : p.allocation.Holds ss m n)
    (cells : ∀ s ∈ ss, s.cell ∈ p.basis.cells) :
    p.FallsShort r.supply r.demand m n (((max m n : Nat) + 1) * tol) := by
  have left := fun l x hx => h.left?_eq hr hpos holds (l := l) (x := x) hx
  refine ⟨h.feasible hr hpos holds cells, fun l x hx => ?_, fun l x hx => ?_⟩
  · have := h.nonneg hpos hr hn l _ (left l x hx)
    linarith
  · have := h.left?_le hr hpos hn near (left l x hx)
    linarith

end Remaining

/-- The lines of a balanced tableau have amounts, and the totals agree within the tolerance. -/
theorem Tableau.near_of_ofProblem {p : Problem Rat} {t : Tableau Rat} (h : p.check = .ok ())
    (hpos : 0 ≤ tol) (e : ofProblem p tol = .ok t) :
    (Remaining.mk t.supply t.demand).Nonneg ∧ |t.supply.sum - t.demand.sum| ≤ tol := by
  have plannable := Problem.plannable_of_check h
  have supply : ∀ x ∈ p.supply, 0 ≤ x := fun x hx => zero_le_of_isAmount (plannable.supply x hx)
  have demand : ∀ x ∈ p.demand, 0 ≤ x := fun x hx => zero_le_of_isAmount (plannable.demand x hx)
  have append : ∀ {xs : List Rat} {rest : Rat}, (∀ x ∈ xs, 0 ≤ x) → 0 ≤ rest →
      ∀ x ∈ xs ++ [rest], 0 ≤ x := fun hxs hrest =>
    List.forall_mem_append.mpr ⟨hxs, List.forall_mem_singleton.mpr hrest⟩
  have totalSupply : p.totalSupply = p.supply.sum := sum_rat p.supply
  have totalDemand : p.totalDemand = p.demand.sum := sum_rat p.demand
  obtain ⟨costs, -, cases⟩ := ofProblem_cases h tol
  rw [totalSupply, totalDemand, distance_rat] at cases
  obtain ⟨near, et⟩ | ⟨-, pos, et⟩ | ⟨-, neg, et⟩ := cases <;> rw [et] at e <;> cases e
  · exact ⟨Remaining.forall_left? supply demand, near⟩
  · refine ⟨Remaining.forall_left? supply (append demand pos.le), ?_⟩
    rw [List.sum_append, List.sum_singleton, add_sub_cancel, sub_self, abs_zero]
    exact hpos
  · refine ⟨Remaining.forall_left? (append supply (by linarith)) demand, ?_⟩
    rw [List.sum_append, List.sum_singleton, neg_sub, add_sub_cancel, sub_self, abs_zero]
    exact hpos

/-! ## Pivots -/

namespace Position.Pivots

variable {p next : Position Rat} (h : p.Pivots next tol c path low leaving) (hp : p.Sound m n)
  (hpos : 0 ≤ tol)

include h hp hpos

/-- What a pivot drops on a line: nothing, or what is left on the one losing cell of the line. -/
theorem total_residue (hn : ∀ c ∈ Cell.grid m n, 0 ≤ p.allocation.entry c) (hl : l.Within m n) :
    0 ≤ Line.total m n
        (fun d => residue (positivePart low) tol (c :: path) d (p.allocation.entry d)) l ∧
      Line.total m n
        (fun d => residue (positivePart low) tol (c :: path) d (p.allocation.entry d)) l ≤ tol := by
  rw [total_eq_sum _ hl]
  by_cases hlosing : ∃ d ∈ losing (c :: path), l.Through d
  · obtain ⟨d, hd, hld⟩ := hlosing
    have grid := Cell.mem_rectangle.mpr (h.mem_grid_of_losing hp hd)
    rw [sum_eq_single_of_mem d grid fun e _ hne => ?_, Line.weight_of_through hld, mul_one]
    · exact ⟨h.residue_nonneg hp hn d, residue_le hpos⟩
    by_cases he : e ∈ losing (c :: path)
    · have other : ¬ l.Through e := fun hle =>
        hne (h.closes.eq_of_losing hp.isTree.acyclic he hd hle hld)
      rw [Line.weight_of_not_through other, mul_zero]
    · rw [residue_of_not_mem he, zero_mul]
  · rw [sum_eq_zero fun d _ => ?_]
    · exact ⟨le_refl 0, hpos⟩
    by_cases hd : d ∈ losing (c :: path)
    · rw [Line.weight_of_not_through fun hld => hlosing ⟨d, hd, hld⟩, mul_zero]
    · rw [residue_of_not_mem hd, zero_mul]

/-- A pivot makes a position fall short by the tolerance more. -/
theorem fallsShort (hm : supply.length = m) (hn : demand.length = n)
    (hf : p.FallsShort supply demand m n rest) :
    next.FallsShort supply demand m n (rest + tol) := by
  have within : ∀ l x, (Remaining.mk supply demand).left? l = some x → l.Within m n := by
    intro l x hx
    have := Remaining.exists_left?_iff.mp ⟨x, hx⟩
    rwa [hm, hn] at this
  refine ⟨h.feasible hp hf.toFeasible, fun l x hx => ?_, fun l x hx => ?_⟩ <;>
    rw [h.total_eq hp (within l x hx)] <;>
    obtain ⟨nonneg, small⟩ := h.total_residue hp hpos hf.nonneg (within l x hx)
  · linarith [hf.total_le l x hx]
  · linarith [hf.le_total l x hx]

end Position.Pivots

/-! ## Planning -/

/-- Planning for a problem that passes its check, under settings that pass theirs. There is a first
position, the run from it succeeds, and every position that it visits rests on a spanning tree of the
balanced tableau, which needs no filling up. The quantities are amounts, none outside the basis, and
after `k` pivots no line carries more than its supply or demand, and none falls short of it by more
than `max M N + 1 + k` times the tolerance. -/
theorem Problem.solve_visits (p : Problem Rat) (config : Config Rat)
    (settings : config.check = .ok ()) (parts : p.check = .ok ()) :
    ∃ t first positions outcome, Tableau.ofProblem p config.tolerance = .ok t ∧
      t.firstPosition config.rule config.tolerance = .ok first ∧
      (config.optimize = true → p.solve config = t.optimize config first) ∧
      positions = first.visited t.costs config.tolerance (config.budget t.rows t.cols) ∧
      first.run t.costs config.tolerance (config.budget t.rows t.cols) = .ok outcome ∧
      List.Forall₂ (fun q cost => q.allocation.cost? t.costs = some cost) positions
        outcome.costHistory ∧
      positions.getLast? = some outcome.position ∧
      ∀ k q, positions[k]? = some q →
        (q.basis.rows = t.rows ∧ q.basis.cols = t.cols ∧ q.basis.IsTree ∧
          q.basis.cells.length + 1 = t.rows + t.cols ∧ q.basis.repair = .ok (q.basis, 0)) ∧
        (∀ c ∈ Cell.grid t.rows t.cols, ∃ x, q.allocation.get? c = some x ∧ 0 ≤ x ∧
          (c ∉ q.basis.cells → x = 0)) ∧
        (∀ i s, t.supply[i]? = some s → ∃ x, q.allocation.rowSum? i = some x ∧ x ≤ s ∧
          s - x ≤ (max t.rows t.cols + 1 + k : Nat) * config.tolerance) ∧
        ∀ j d, t.demand[j]? = some d → ∃ x, q.allocation.columnSum? j = some x ∧ x ≤ d ∧
          d - x ≤ (max t.rows t.cols + 1 + k : Nat) * config.tolerance := by
  obtain ⟨-, hpos, -⟩ := Config.of_check settings
  obtain ⟨t, ss, last, first, et, fits, finite, run, sound, holds, cells, efirst, e⟩ :=
    exists_start settings parts
  obtain ⟨nonneg, near⟩ := Tableau.near_of_ofProblem parts hpos et
  obtain ⟨outcome, erun, costs, -, hlast⟩ := sound.exists_run fits.rows_pos rfl hpos fits.costs
    (config.budget t.rows t.cols)
  refine ⟨t, first, _, outcome, et, efirst, fun improve => by rw [e, improve, if_pos rfl], rfl, erun,
    costs, hlast, fun k q hq => ?_⟩
  have start := run.fallsShort finite hpos nonneg near holds cells
  have keep : ∀ ⦃k : Nat⦄ ⦃p next : Position Rat⦄ ⦃c path low leaving⦄,
      p.Sound t.supply.length t.demand.length →
      p.FallsShort t.supply t.demand t.supply.length t.demand.length
        ((max t.rows t.cols + 1 + k : Nat) * config.tolerance) →
      p.Pivots next config.tolerance c path low leaving →
      next.FallsShort t.supply t.demand t.supply.length t.demand.length
        ((max t.rows t.cols + 1 + (k + 1) : Nat) * config.tolerance) := by
    intro k p next c path low leaving hp hf pivots
    have more := pivots.fallsShort hp hpos rfl rfl hf
    rwa [← add_one_mul, ← Nat.cast_succ] at more
  obtain ⟨soundq, short⟩ := Position.Sound.visited fits.rows_pos rfl hpos fits.costs keep sound
    (j := 0) (by rwa [← Nat.cast_succ] at start) hq
  rw [Nat.zero_add] at short
  have size := soundq.basis.size_of_isTree (Nat.add_pos_left fits.rows_pos _) soundq.isTree
  refine ⟨⟨soundq.basis.rows_eq, soundq.basis.cols_eq, soundq.isTree,
      soundq.basis.length_cells ▸ size, soundq.basis.repair_of_isTree fits.rows_pos soundq.isTree⟩,
    fun c hc => ⟨_, soundq.allocation.get?_eq hc, short.nonneg c hc, short.idle c hc⟩,
    fun i s hs => ⟨_, soundq.allocation.rowSum?_rat (List.getElem?_eq_some_iff.mp hs).1,
      short.total_le (.row i) s hs, ?_⟩,
    fun j d hd => ⟨_, soundq.allocation.columnSum?_rat (List.getElem?_eq_some_iff.mp hd).1,
      short.total_le (.column j) d hd, ?_⟩⟩
  · exact sub_le_iff_le_add'.mpr (short.le_total (.row i) s hs)
  · exact sub_le_iff_le_add'.mpr (short.le_total (.column j) d hd)

/-- Three sources and three destinations of nearly the same size. -/
def nearlyEven : Problem Rat :=
  .unnamed [10, 11, 12] [11, 10, 12] [[8, 6, 1], [2, 12, 5], [1, 1, 9]]

/-- A start that ignores the costs, with a tolerance of two. -/
def coarse : Config Rat := { Config.withTolerance 2 with rule := .northWestCorner }

/-- The start leaves one unit of the second source, and the first pivot drops two of the third; after
four pivots each line is still within eight tolerances of its supply or demand. -/
theorem Problem.solve_visits_nearlyEven :
    coarse.check = .ok () ∧ nearlyEven.check = .ok () ∧
      ∃ t first q, Tableau.ofProblem nearlyEven 2 = .ok t ∧
        t.firstPosition .northWestCorner 2 = .ok first ∧
        (first.visited t.costs 2 (coarse.budget t.rows t.cols))[4]? = some q ∧
        q.basis.IsTree ∧ q.allocation.rowSum? 1 = some 10 ∧ q.allocation.rowSum? 2 = some 10 ∧
        ∀ i (s : Rat), t.supply[i]? = some s → ∃ x, q.allocation.rowSum? i = some x ∧ x ≤ s ∧
          s - x ≤ (max t.rows t.cols + 1 + 4 : Nat) * 2 := by
  have settings : coarse.check = .ok () := by cbv
  have parts : nearlyEven.check = .ok () := by cbv
  have sums : ((Tableau.ofProblem nearlyEven 2).toOption.bind fun t =>
      (t.firstPosition .northWestCorner 2).toOption.bind fun first =>
        (first.visited t.costs 2 (coarse.budget t.rows t.cols))[4]?.map fun q =>
          (q.allocation.rowSum? 1, q.allocation.rowSum? 2)) = some (some 10, some 10) := by
    decide +kernel
  obtain ⟨t, first, positions, outcome, et, efirst, -, rfl, -, -, -, all⟩ :=
    solve_visits nearlyEven coarse settings parts
  have et : Tableau.ofProblem nearlyEven 2 = .ok t := et
  have efirst : t.firstPosition .northWestCorner 2 = .ok first := efirst
  simp only [et, efirst, Except.toOption, Option.bind_some] at sums
  obtain ⟨q, hq, sums⟩ := Option.map_eq_some_iff.mp sums
  obtain ⟨second, third⟩ := Prod.mk.inj sums
  obtain ⟨⟨-, -, tree, -⟩, -, rows, -⟩ := all 4 q hq
  exact ⟨settings, parts, t, first, q, et, efirst, hq, tree, second, third, rows⟩

end Freight
