import Freight.Proofs.BasisGraph
import Freight.Proofs.Corner

/-!
# How much a greedy start ships

Each shipment closes a line, and the last one has two open lines left, so there are fewer shipments
than supplies and demands above the tolerance (`Run.length_le`), whatever the limit
(`shipUpTo?_of_length_le`). An infinite tolerance leaves no line open.

The start makes no shipment twice, the cells it ships on close no cycle, and its table holds more than
the tolerance on these cells and nothing elsewhere (`StartRule.exists_filled`). The loaded cells
therefore make a basis that can be filled up to a spanning tree.

Main statement: all of that, for supplies and demands that need not balance and under any tolerance
that is not negative (`StartRule.start_ships`).
-/

namespace Freight

variable {α : Type} [Scalar α] {tol : α} {m n : Nat} {costs t : Table α} {c : Cell}
  {r last : Remaining α} {ss : List (Shipment α)} {choose : Remaining α → Option (Option Cell)}

/-- How many of the values exceed a tolerance. -/
def countAbove (tol : α) (xs : List α) : Nat := xs.countP fun x => decide (tol < x)

namespace Remaining

/-! ## The number of shipments -/

theorem length_openPositions (tol : α) (xs : List α) :
    (openPositions tol xs).length = countAbove tol xs := by
  unfold openPositions countAbove
  rw [List.length_map, ← List.countP_eq_length_filter]
  have := List.countP_map (p := fun x => decide (tol < x)) (f := Prod.fst) (l := xs.zipIdx)
  rw [List.zipIdx_map_fst] at this
  rw [this]
  rfl

theorem length_openLines (r : Remaining α) (tol : α) :
    (r.openLines tol).length = countAbove tol r.supply + countAbove tol r.demand := by
  unfold openLines openRows openColumns
  rw [List.length_append, List.length_map, List.length_map, length_openPositions,
    length_openPositions]

/-- There are two lines where a cell is open. -/
theorem two_le_length_openLines (hc : c ∈ r.openCells tol) : 2 ≤ (r.openLines tol).length := by
  obtain ⟨row, column⟩ := mem_openCells.mp hc
  have nodup : [Line.row c.row, Line.column c.col].Nodup := by simp
  have sub : ∀ l ∈ [Line.row c.row, Line.column c.col], l ∈ r.openLines tol := by
    simp [row, column]
  exact (nodup.subperm sub).length_le

/-- A run makes fewer shipments than there are open lines. -/
theorem Run.length_le [Scalar.Lawful α] (ht : Scalar.isFinite tol = true) (hpos : 0 ≤ tol)
    (h : Run tol r ss last) (hr : r.Sound m n) : ss.length ≤ (r.openLines tol).length - 1 := by
  induction h with
  | done _ => exact Nat.zero_le _
  | ship hc _ ih =>
    have later := ih (hr.ship ht hpos hc)
    have fewer := hr.length_openLines_ship ht hpos hc
    have two := two_le_length_openLines hc
    rw [List.length_cons]
    omega

/-- Shipments that do not use up the limit are the same under any limit that is large enough. -/
theorem shipUpTo?_of_length_le : ∀ {limit k : Nat} {r : Remaining α} {ss : List (Shipment α)},
    shipUpTo? choose limit r = some ss → ss.length < limit → ss.length ≤ k →
      shipUpTo? choose k r = some ss
  | 0, _, _, _, _, unused, _ => absurd unused (Nat.not_lt_zero _)
  | limit + 1, k, r, ss, h, unused, enough => by
    obtain ⟨eo, rfl⟩ | ⟨c, rest, inside, eo, erest, rfl⟩ := shipUpTo?_cases h
    · exact shipUpTo?_of_none eo k
    · rw [List.length_cons] at unused enough
      cases k with
      | zero => omega
      | succ k =>
        rw [shipUpTo?_of_some eo inside,
          shipUpTo?_of_length_le erest (by omega) (k := k) (by omega)]
        rfl

end Remaining

/-! ## The table of a start -/

/-- A start's shipments, and the table that they fill. -/
structure StartRule.Filled (rule : StartRule) (supply demand : List α) (costs : Table α) (tol : α)
    (ss : List (Shipment α)) (t : Table α) : Prop where
  shipped : ∀ k, countAbove tol supply + countAbove tol demand - 1 ≤ k →
    Remaining.shipUpTo? (rule.choose? costs tol) k ⟨supply, demand⟩ = some ss
  length_le : ss.length ≤ countAbove tol supply + countAbove tol demand - 1
  plan : rule.plan? supply demand costs tol = some t
  nodup : (ss.map Shipment.cell).Nodup
  inside : ∀ s ∈ ss, s.cell ∈ Cell.grid supply.length demand.length
  lt_quantity : ∀ s ∈ ss, tol < s.quantity
  holds : t.Holds ss supply.length demand.length
  acyclic : Acyclic (ss.map Shipment.cell)
  mem_loaded : ∀ c, c ∈ t.loaded tol ↔ c ∈ ss.map Shipment.cell

theorem StartRule.Filled.shipments?_eq {rule : StartRule} {supply demand : List α}
    (h : rule.Filled supply demand costs tol ss t) :
    rule.shipments? supply demand costs tol = some ss := by
  have lines : ((Remaining.mk supply demand).openLines tol).length =
      countAbove tol supply + countAbove tol demand := Remaining.length_openLines _ tol
  exact h.shipped _ (by omega)

/-- The loaded cells make a forest, which is filled up to a spanning tree. -/
theorem StartRule.Filled.exists_tree {rule : StartRule} {supply demand : List α}
    (h : rule.Filled supply demand costs tol ss t) (hm : 0 < supply.length) (hn : 0 < demand.length) :
    ∃ b tree added, Basis.ofLoaded? t tol = some b ∧
      (∀ c, c ∈ b.cells ↔ c ∈ ss.map Shipment.cell) ∧ b.repair = .ok (tree, added) ∧
      tree.isSpanningTree = true ∧ tree.graph.IsTree := by
  have lines : 0 < supply.length + demand.length := Nat.add_pos_left hm _
  have fits := h.holds.fits
  obtain ⟨b, e, hb, mem⟩ := Basis.exists_ofLoaded? fits.wellFormed tol
  rw [fits.rows_eq, fits.cols_eq] at hb
  have cells : ∀ c, c ∈ b.cells ↔ c ∈ ss.map Shipment.cell :=
    fun c => (mem c).trans (h.mem_loaded c)
  have forest : Acyclic b.cells := h.acyclic.mono fun c => (cells c).mp
  obtain ⟨tree, added, er, ht, isTree, -⟩ := hb.exists_repair hm hn forest
  exact ⟨b, tree, added, e, cells, er, (ht.isSpanningTree_iff lines).mpr isTree,
    (ht.graph_isTree_iff lines).mpr isTree⟩

section Separated

variable [Scalar.Separated α] {supply demand : List α}

/-- Under an infinite tolerance nothing is shipped. -/
theorem Remaining.Sound.shipUpTo?_of_infinite (hr : r.Sound m n) (hpos : 0 ≤ tol)
    (infinite : ¬ Scalar.isFinite tol = true) (serves : Serves choose tol m n) (k : Nat) :
    shipUpTo? choose k r = some [] := by
  obtain ⟨o, eo, -, picked⟩ := serves r hr
  cases o with
  | none => exact shipUpTo?_of_none eo k
  | some c =>
    have row := (mem_openCells.mp (picked c rfl)).1
    exact absurd (hr.isFinite_of_open hpos row) infinite

/-- A start fills a table. -/
theorem StartRule.exists_filled (rule : StartRule)
    (hr : (Remaining.mk supply demand).Sound supply.length demand.length)
    (hc : costs.Fits supply.length demand.length) (hpos : 0 ≤ tol) :
    ∃ ss t, rule.Filled supply demand costs tol ss t := by
  have serves := rule.serves hc tol
  have lines : ((Remaining.mk supply demand).openLines tol).length =
      countAbove tol supply + countAbove tol demand := Remaining.length_openLines _ tol
  by_cases ht : Scalar.isFinite tol = true
  · obtain ⟨ss, last, e, run⟩ := hr.exists_run ht hpos serves _ (Nat.le_succ _)
    obtain ⟨t, et, holds⟩ := run.exists_receive? ht hpos hr
    obtain ⟨nodup, acyclic⟩ := run.acyclic ht hpos hr
    have length := run.length_le ht hpos hr
    have shipped : ∀ k, ss.length ≤ k →
        Remaining.shipUpTo? (rule.choose? costs tol) k ⟨supply, demand⟩ = some ss :=
      fun k => Remaining.shipUpTo?_of_length_le e (by omega)
    refine ⟨ss, t, fun k hk => shipped k (by omega), lines ▸ length, ?_, nodup,
      fun s hs => hr.mem_grid (run.mem_openCells s hs), fun s hs => (run.lt_quantity ht hpos hr s hs).2,
      holds, acyclic, fun c => holds.mem_loaded ht hpos run hr⟩
    have made : rule.shipments? supply demand costs tol = some ss := shipped _ (by omega)
    rw [plan?_eq made, hc.rows_eq, hc.cols_eq]
    exact et
  · have shipped := hr.shipUpTo?_of_infinite hpos ht serves
    have fits := Table.fits_fill supply.length demand.length (0 : α)
    have zero : ∀ c ∈ Cell.grid supply.length demand.length,
        (Table.fill supply.length demand.length (0 : α)).get? c = some 0 := fun c hcell =>
      Table.get?_fill (Cell.mem_grid.mp hcell).1 (Cell.mem_grid.mp hcell).2
    refine ⟨[], _, fun k _ => shipped k, Nat.zero_le _, ?_, List.nodup_nil, by simp, by simp,
      ⟨fits, by simp, fun c hcell _ => zero c hcell⟩, acyclic_nil, fun c => ?_⟩
    · have made : rule.shipments? supply demand costs tol = some [] := shipped _
      rw [plan?_eq made, hc.rows_eq, hc.cols_eq]
      rfl
    · simp only [List.map_nil, List.not_mem_nil, iff_false]
      intro hl
      obtain ⟨hcell, x, hx, lt⟩ := (Table.mem_cellsWhere fits.wellFormed).mp hl
      rw [fits.cells_eq] at hcell
      rw [zero c hcell] at hx
      cases hx
      exact ht (Scalar.Separated.isFinite_of_lt hpos (of_decide_eq_true lt) Scalar.Lawful.isFinite_zero)

/-- The walk of the north-west corner ships the same. -/
theorem StartRule.Filled.cornerWalk?_eq (h : northWestCorner.Filled supply demand costs tol ss t)
    (hr : (Remaining.mk supply demand).Sound supply.length demand.length) (hpos : 0 ≤ tol) {k : Nat}
    (hk : supply.length + demand.length + countAbove tol supply + countAbove tol demand < k) :
    Remaining.cornerWalk? tol k ⟨0, 0⟩ ⟨supply, demand⟩ = some ss := by
  have lines : ((Remaining.mk supply demand).openLines tol).length =
      countAbove tol supply + countAbove tol demand := Remaining.length_openLines _ tol
  have passed : (Remaining.mk supply demand).Passed tol ⟨0, 0⟩ :=
    ⟨fun i hi => absurd hi (Nat.not_lt_zero i), fun j hj => absurd hj (Nat.not_lt_zero j)⟩
  rw [hr.cornerWalk?_eq hpos k _ passed (by simp only; omega) (Nat.le_refl _), lines]
  exact h.shipped _ (by omega)

/-- What a greedy start ships, by any of the three rules, of any finite supplies and demands and under
any tolerance that is not negative. Without a limit it makes fewer shipments than there are supplies
and demands above the tolerance, and so does the walk of the north-west corner. It ships on no cell
twice, and on cells that close no cycle. Its table holds more than the tolerance on these cells and
zero on the others. The basis of the loaded cells is filled up to a spanning tree, if there are lines
on both sides. -/
theorem StartRule.start_ships {α : Type} [Scalar α] [Scalar.Separated α] (rule : StartRule)
    (supply demand : List α) (costs : Table α) (tol : α)
    (hs : ∀ x ∈ supply, Scalar.isFinite x = true) (hd : ∀ x ∈ demand, Scalar.isFinite x = true)
    (hc : costs.Fits supply.length demand.length) (hpos : 0 ≤ tol) :
    ∃ ss t, ss.length ≤ countAbove tol supply + countAbove tol demand - 1 ∧
      (∀ k, countAbove tol supply + countAbove tol demand - 1 ≤ k →
        Remaining.shipUpTo? (rule.choose? costs tol) k ⟨supply, demand⟩ = some ss) ∧
      (rule = .northWestCorner → ∀ k,
        supply.length + demand.length + countAbove tol supply + countAbove tol demand < k →
          Remaining.cornerWalk? tol k ⟨0, 0⟩ ⟨supply, demand⟩ = some ss) ∧
      rule.plan? supply demand costs tol = some t ∧ t.Fits supply.length demand.length ∧
      (ss.map Shipment.cell).Nodup ∧
      (∀ s ∈ ss, s.cell ∈ Cell.grid supply.length demand.length ∧ t.get? s.cell = some s.quantity ∧
        tol < s.quantity) ∧
      (∀ c ∈ Cell.grid supply.length demand.length, c ∉ ss.map Shipment.cell → t.get? c = some 0) ∧
      (Basis.cellGraph (ss.map Shipment.cell) supply.length demand.length).IsAcyclic ∧
      (0 < supply.length → 0 < demand.length →
        ∃ b tree added, Basis.ofLoaded? t tol = some b ∧
          (∀ c, c ∈ b.cells ↔ c ∈ ss.map Shipment.cell) ∧ b.repair = .ok (tree, added) ∧
          tree.isSpanningTree = true ∧ tree.graph.IsTree) := by
  have hr : (Remaining.mk supply demand).Sound supply.length demand.length :=
    ⟨rfl, rfl, Remaining.forall_left? hs hd⟩
  obtain ⟨ss, t, h⟩ := rule.exists_filled hr hc hpos
  have inside : ∀ c ∈ ss.map Shipment.cell, c ∈ Cell.grid supply.length demand.length := by
    intro c hm
    obtain ⟨s, hs, rfl⟩ := List.mem_map.mp hm
    exact h.inside s hs
  refine ⟨ss, t, h.length_le, h.shipped, ?_, h.plan, h.holds.fits, h.nodup,
    fun s hs => ⟨h.inside s hs, h.holds.shipped s hs, h.lt_quantity s hs⟩, h.holds.empty,
    (Basis.isAcyclic_cellGraph_iff inside).mpr h.acyclic, h.exists_tree⟩
  rintro rfl k hk
  exact h.cornerWalk?_eq hr hpos hk

/-- Seven units for six, where one source has nothing and the first shipment serves both of its lines:
three shipments, where four are allowed. Under an infinite tolerance there is none. -/
theorem StartRule.start_ships_tie :
    let supply : List Rat := [3, 0, 4]
    let demand : List Rat := [3, 2, 1]
    let costs : Table Rat := ⟨3, 3, #[1, 6, 5, 2, 2, 2, 7, 3, 8]⟩
    let shipped : Table Rat := ⟨3, 3, #[3, 0, 0, 0, 0, 0, 0, 2, 1]⟩
    let three : List Extended := [.finite 3]
    let one : Table Extended := ⟨1, 1, #[.finite 5]⟩
    (∀ x ∈ supply, Scalar.isFinite x = true) ∧ (∀ x ∈ demand, Scalar.isFinite x = true) ∧
      costs.Fits 3 3 ∧ (0 : Rat) ≤ 0 ∧ countAbove 0 supply + countAbove 0 demand - 1 = 4 ∧
      vogel.plan? supply demand costs 0 = some shipped ∧
      (Basis.cellGraph [⟨0, 0⟩, ⟨2, 2⟩, ⟨2, 1⟩] 3 3).IsAcyclic ∧
      (∃ b tree added, Basis.ofLoaded? shipped 0 = some b ∧ b.repair = .ok (tree, added) ∧
        tree.graph.IsTree) ∧
      (∀ x ∈ three, Scalar.isFinite x = true) ∧ one.Fits 1 1 ∧ (0 : Extended) ≤ .infinite false ∧
      ∃ t, leastCost.plan? three three one (.infinite false) = some t ∧
        t.get? ⟨0, 0⟩ = some 0 := by
  intro supply demand costs shipped three one
  have hc : costs.Fits 3 3 := ⟨rfl, rfl, rfl⟩
  have hone : one.Fits 1 1 := ⟨rfl, rfl, rfl⟩
  have finite : ∀ x ∈ three, Scalar.isFinite x = true := by decide
  have infinite : (0 : Extended) ≤ .infinite false := by decide +kernel
  obtain ⟨ss, t, -, all, -, plan, -, -, -, -, acyclic, filled⟩ :=
    start_ships vogel supply demand costs 0 (fun _ _ => rfl) (fun _ _ => rfl) hc le_rfl
  obtain ⟨none', t', few, -, -, plan', -, -, -, empty, -⟩ :=
    start_ships leastCost three three one (.infinite false) finite finite hone infinite
  have eplan : vogel.plan? supply demand costs 0 = some shipped := by decide +kernel
  rw [eplan] at plan
  cases plan
  have cells : (Remaining.shipUpTo? (vogel.choose? costs 0) 4 ⟨supply, demand⟩).map
      (·.map Shipment.cell) = some [⟨0, 0⟩, ⟨2, 2⟩, ⟨2, 1⟩] := by decide +kernel
  rw [all 4 (by decide +kernel)] at cells
  have cells : ss.map Shipment.cell = [⟨0, 0⟩, ⟨2, 2⟩, ⟨2, 1⟩] := Option.some.inj cells
  rw [cells] at acyclic
  obtain ⟨b, tree, added, e, -, er, -, isTree⟩ := filled (by decide) (by decide)
  cases List.length_eq_zero_iff.mp (Nat.le_zero.mp few)
  exact ⟨fun _ _ => rfl, fun _ _ => rfl, hc, le_rfl, by decide +kernel, eplan, acyclic,
    ⟨b, tree, added, e, er, isTree⟩, finite, hone, infinite, t', plan',
    empty ⟨0, 0⟩ (by decide) (by simp)⟩

end Separated

end Freight
