import Freight.Proofs.BasisGraph
import Freight.Proofs.Cycle
import Freight.Proofs.Check
import Freight.Proofs.Potentials
import Mathlib.Data.Set.Card

/-!
# Which bases have potentials

Three tests for a spanning tree agree: the union-find that counts, the search that settles potentials,
and the graph. A basis that fails is refused for its size; or else for a marked cell on a closed loop
of the component of row zero, if that has one; or else for the lines outside of this component, which
the search has counted (`Fits.ncard_component`).

Over the rationals the potentials of a basis make up the cost of every marked cell (`Potentials.Solves`),
and there are no others: their values spread from row zero along the marked cells
(`Potentials.Solves.value?_eq`).

Main statement: for which bases there are potentials, why the others are refused, and that the
potentials are the only ones (`Potentials.ofBasis_decides`).
-/

namespace Freight

variable {m n : Nat} {b : Basis} {start : Line}

/-! ## The component of a line -/

/-- The search reaches as many lines as the component of its start has. -/
theorem Basis.Fits.ncard_component (h : b.Fits m n) (hs : start.Within m n) :
    {l | Line.Connected b.cells start l}.ncard = (b.reached start).length := by
  have reached : {l | Line.Connected b.cells start l} = ((b.reached start).toFinset : Set Line) := by
    ext l
    rw [Set.mem_ofPred_eq, List.coe_toFinset, Set.mem_ofPred_eq, h.mem_reached_iff hs]
  rw [reached, Set.ncard_coe_finset, List.toFinset_card_of_nodup (h.nodup_reached hs)]

/-- Without a closed loop in the component of a line, and with every line in it, a basis is a spanning
tree. -/
theorem Basis.Fits.isTree_of_search (h : b.Fits m n) (hs : start.Within m n)
    (fresh : ∀ s ∈ b.search start, s.fresh = true) (full : m + n ≤ (b.reached start).length) :
    b.IsTree := by
  have all := (h.length_reached_iff hs).mp full
  refine ⟨?_, fun k l hk hl => ?_⟩
  · rw [h.acyclic_iff]
    rintro ⟨loop, hloop, marked⟩
    have reaches : b.ReachesLoop start loop :=
      ⟨hloop, marked, fun d hd => all _ (h.within (marked d hd)).1⟩
    obtain ⟨s, hm, stale⟩ := (h.exists_stale_iff hs).mpr ⟨loop, reaches⟩
    rw [fresh s hm] at stale
    cases stale
  · rw [h.rows_eq, h.cols_eq] at hk hl
    exact (all k hk).symm.trans (all l hl)

namespace Potentials

/-! ## Solutions -/

/-- Values for the lines of a basis that are zero on row zero and make up the cost of every marked
cell. -/
structure Solves (p : Potentials Rat) (b : Basis) (costs : Table Rat) : Prop where
  sized : p.Sized b.rows b.cols
  first : p.value? (.row 0) = some 0
  prices : ∀ c ∈ b.cells, ∃ u v, p.value? (.row c.row) = some u ∧
    p.value? (.column c.col) = some v ∧ costs.get? c = some (u + v)

variable {p q : Potentials Rat} {costs : Table Rat}

/-- Values of all lines determine potentials. -/
theorem Sized.ext {α : Type} {p q : Potentials α} (hp : p.Sized m n) (hq : q.Sized m n)
    (h : ∀ l : Line, l.Within m n → q.value? l = p.value? l) : q = p := by
  have rows : q.rows = p.rows := by
    apply Array.ext_getElem?
    intro i
    by_cases hi : i < m
    · exact h (.row i) hi
    · rw [Array.getElem?_eq_none (by rw [hq.rows_size]; omega),
        Array.getElem?_eq_none (by rw [hp.rows_size]; omega)]
  have columns : q.columns = p.columns := by
    apply Array.ext_getElem?
    intro j
    by_cases hj : j < n
    · exact h (.column j) hj
    · rw [Array.getElem?_eq_none (by rw [hq.columns_size]; omega),
        Array.getElem?_eq_none (by rw [hp.columns_size]; omega)]
  cases p
  cases q
  cases rows
  cases columns
  rfl

/-- Two solutions agree on every line that marked cells connect with row zero: a cell's cost settles
the value of one of its lines from the other. -/
theorem Solves.value?_eq (hp : p.Solves b costs) (hq : q.Solves b costs) {l : Line}
    (h : Line.Connected b.cells (.row 0) l) : q.value? l = p.value? l := by
  induction h with
  | refl => rw [hp.first, hq.first]
  | @change l c _ hc through ih =>
    obtain ⟨u, v, hu, hv, cost⟩ := hp.prices c hc
    obtain ⟨u', v', hu', hv', cost'⟩ := hq.prices c hc
    have same : u + v = u' + v' := Option.some.inj (cost.symm.trans cost')
    rcases through.eq_or with rfl | rfl
    · rw [hu, hu'] at ih
      have : u' = u := Option.some.inj ih
      rw [Line.crossing, hv, hv']
      exact congrArg some (by linarith)
    · rw [hv, hv'] at ih
      have : v' = v := Option.some.inj ih
      rw [Line.crossing, hu, hu']
      exact congrArg some (by linarith)

/-- The potentials of a basis are a solution. -/
theorem solves_of_ofBasis (h : b.Fits m n) (e : ofBasis b costs = .ok p) : p.Solves b costs := by
  obtain ⟨sized, first, prices⟩ := h.prices_of_ofBasis e
  refine ⟨by rwa [h.rows_eq, h.cols_eq], first, fun c hc => ?_⟩
  obtain ⟨x, u, v, hx, hu, hv, settled⟩ := prices c hc
  refine ⟨u, v, hu, hv, hx.trans (congrArg some ?_)⟩
  rcases settled with rfl | rfl <;> ring

/-- And there is no other solution: the search for it has reached every line. -/
theorem solves_iff_of_ofBasis (h : b.Fits m n) (e : ofBasis b costs = .ok p) :
    q.Solves b costs ↔ q = p := by
  have hp := solves_of_ofBasis h e
  constructor
  · intro hq
    obtain ⟨hm, -, full⟩ := h.settle_of_ofBasis e
    have first : (Line.row 0).Within m n := hm
    apply hp.sized.ext hq.sized
    intro l hl
    rw [h.rows_eq, h.cols_eq] at hl
    exact hp.value?_eq hq ((h.length_reached_iff first).mp full l hl)
  · rintro rfl
    exact hp

end Potentials

/-! ## The verdict on a basis -/

namespace Basis

variable {α : Type} [Scalar α] {costs : Table α}

/-- A spanning tree reaches no closed loop. -/
theorem Fits.not_reachesLoop (h : b.Fits m n) (ht : b.IsTree) : ¬ ∃ loop, b.ReachesLoop start loop := by
  rintro ⟨loop, reaches⟩
  exact h.acyclic_iff.mp ht.acyclic ⟨loop, reaches.isLoop, reaches.marked⟩

/-- The four verdicts on a basis, each with its reason. The reasons exclude each other. -/
theorem Fits.ofBasis_verdict (h : b.Fits m n) (hm : 0 < m) (hc : costs.Fits m n) :
    (b.size ≠ m + n - 1 ∧
      Potentials.ofBasis b costs = .error (.basisSize (m + n - 1) b.size)) ∨
    (b.size = m + n - 1 ∧ b.IsTree ∧ ∃ p, Potentials.ofBasis b costs = .ok p) ∨
    (b.size = m + n - 1 ∧ ∃ loop c, b.ReachesLoop (.row 0) loop ∧ c ∈ loop ∧
      Potentials.ofBasis b costs = .error (.cyclic c)) ∨
    (b.size = m + n - 1 ∧ ¬ b.IsTree ∧ (¬ ∃ loop, b.ReachesLoop (.row 0) loop) ∧
      Potentials.ofBasis b costs =
        .error (.disconnected {l | Line.Connected b.cells (.row 0) l}.ncard (m + n))) := by
  have first : (Line.row 0).Within m n := hm
  by_cases size : b.size = m + n - 1
  · rcases h.ofBasis_cases hm hc size with ⟨fresh, ⟨full, p, e⟩ | ⟨less, e⟩⟩ | ⟨s, hs, stale, e⟩
    · exact .inr (.inl ⟨size, h.isTree_of_search first fresh full, p, e⟩)
    · refine .inr (.inr (.inr ⟨size, fun ht => ?_, ?_, by rw [h.ncard_component first, e]⟩))
      · have full := (h.length_reached_iff first).mpr fun l => h.connected ht first
        omega
      · rw [← h.exists_stale_iff first]
        rintro ⟨s, hs, stale⟩
        rw [fresh s hs] at stale
        cases stale
    · obtain ⟨loop, reaches, on⟩ := h.reachesLoop_of_stale first hs stale
      exact .inr (.inr (.inl ⟨size, loop, s.cell, reaches, on, e⟩))
  · exact .inl ⟨size, h.ofBasis_of_size_ne size⟩

end Basis

open Potentials

/-- Which bases of a tableau have potentials, in any arithmetic and whatever the costs. They are those
that the check for a spanning tree accepts, and those whose graph is a tree. A basis of another size
than a tree has is refused for that. If the component of row zero has a closed loop, a basis of the
right size is refused for a marked cell on such a loop; without one, if it is not a spanning tree, it
is refused for the number of lines in that component. Over the rationals the potentials have the value
zero on row zero and make up the cost of each marked cell, and no others do. -/
theorem Potentials.ofBasis_decides {m n : Nat} (b : Basis) (hb : b.Fits m n) (hm : 0 < m) :
    (b.isSpanningTree = true ↔ b.graph.IsTree) ∧
      (∀ {α : Type} [Scalar α] (costs : Table α), costs.Fits m n →
        ((∃ p, ofBasis b costs = .ok p) ↔ b.isSpanningTree = true) ∧
        (∀ expected actual, ofBasis b costs = .error (.basisSize expected actual) ↔
          b.size ≠ m + n - 1 ∧ expected = m + n - 1 ∧ actual = b.size) ∧
        ((∃ c, ofBasis b costs = .error (.cyclic c)) ↔
          b.size = m + n - 1 ∧ ∃ loop, b.ReachesLoop (.row 0) loop) ∧
        (∀ c, ofBasis b costs = .error (.cyclic c) →
          ∃ loop, b.ReachesLoop (.row 0) loop ∧ c ∈ loop) ∧
        (∀ reached expected, ofBasis b costs = .error (.disconnected reached expected) ↔
          b.isSpanningTree = false ∧ b.size = m + n - 1 ∧
            (¬ ∃ loop, b.ReachesLoop (.row 0) loop) ∧
            reached = {l | Line.Connected b.cells (.row 0) l}.ncard ∧ expected = m + n)) ∧
      ∀ (costs : Table Rat) (p : Potentials Rat), ofBasis b costs = .ok p →
        ∀ q : Potentials Rat, q.Solves b costs ↔ q = p := by
  have lines : 0 < m + n := Nat.add_pos_left hm n
  have tree := hb.isSpanningTree_iff lines
  have not_tree : b.isSpanningTree = false ↔ ¬ b.IsTree := by rw [← tree, Bool.not_eq_true]
  have size_of_tree : b.IsTree → b.size = m + n - 1 := fun ht => by
    have := hb.size_of_isTree lines ht
    omega
  refine ⟨tree.trans (hb.graph_isTree_iff lines).symm, fun costs hc => ?_, fun costs p e q => ?_⟩
  · rw [tree, not_tree]
    rcases hb.ofBasis_verdict hm hc with
      ⟨size, e⟩ | ⟨size, ht, p, e⟩ | ⟨size, loop, c, reaches, on, e⟩ | ⟨size, ht, none', e⟩
    · have ht : ¬ b.IsTree := fun ht => size (size_of_tree ht)
      simp [e, size, ht, eq_comm]
    · have none' : ¬ ∃ loop, b.ReachesLoop (.row 0) loop := hb.not_reachesLoop ht
      simp [e, size, ht, none']
    · have ht : ¬ b.IsTree := fun ht => hb.not_reachesLoop ht ⟨loop, reaches⟩
      have some' : ∃ loop, b.ReachesLoop (.row 0) loop := ⟨loop, reaches⟩
      refine ⟨by simp [e, ht], by simp [e, size], by simp [e, size, some'], ?_, by simp [e, some']⟩
      intro x named
      rw [e] at named
      cases named
      exact ⟨loop, reaches, on⟩
    · simp [e, size, ht, none', eq_comm]
  · exact solves_iff_of_ofBasis hb e

/-- Four cells that close a loop with each other, and one apart from it. -/
def Basis.nearLoop : Basis := ⟨⟨3, 3, #[true, true, false, true, true, false, false, false, true]⟩, 5⟩

/-- One cell in the first row, and four that close a loop with each other in the other rows. -/
def Basis.farLoop : Basis := ⟨⟨3, 3, #[false, false, true, true, true, false, true, true, false]⟩, 5⟩

/-- The costs of a staircase determine its potentials. Of two other bases with as many cells, the one
with its loop in the component of row zero is refused for the loop, and the other one for a component
of two lines. -/
theorem Potentials.ofBasis_decides_threeBases :
    let costs : Table Rat := ⟨3, 3, #[4, 1, 7, 3, 5, 2, 9, 6, 8]⟩
    costs.Fits 3 3 ∧ 0 < 3 ∧ Basis.staircase.Fits 3 3 ∧ Basis.nearLoop.Fits 3 3 ∧ Basis.farLoop.Fits 3 3 ∧
      Basis.staircase.graph.IsTree ∧
      (∀ q : Potentials Rat, q.Solves Basis.staircase costs ↔ q = ⟨#[0, 4, 10], #[4, 1, -2]⟩) ∧
      (∃ loop, Basis.nearLoop.ReachesLoop (.row 0) loop ∧ Cell.mk 1 1 ∈ loop) ∧
      (¬ ∃ loop, Basis.farLoop.ReachesLoop (.row 0) loop) ∧
      {l | Line.Connected Basis.farLoop.cells (.row 0) l}.ncard = 2 := by
  intro costs
  have hc : costs.Fits 3 3 := ⟨rfl, rfl, rfl⟩
  have hnear : Basis.nearLoop.Fits 3 3 := ⟨⟨rfl, rfl⟩, rfl, rfl⟩
  have hfar : Basis.farLoop.Fits 3 3 := ⟨⟨rfl, rfl⟩, rfl, rfl⟩
  obtain ⟨tree, -, unique⟩ := ofBasis_decides Basis.staircase Basis.fits_staircase (by decide)
  obtain ⟨-, near, -⟩ := ofBasis_decides Basis.nearLoop hnear (by decide)
  obtain ⟨-, far, -⟩ := ofBasis_decides Basis.farLoop hfar (by decide)
  have values : (ofBasis Basis.staircase costs).toOption.map (fun p => (p.rows, p.columns)) =
      some (#[0, 4, 10], #[4, 1, -2]) := by decide +kernel
  obtain ⟨p, e, data⟩ := exists_of_map_toOption values
  obtain ⟨rows, columns⟩ := p
  cases data
  have looped : ∃ loop, Basis.nearLoop.ReachesLoop (.row 0) loop ∧ Cell.mk 1 1 ∈ loop :=
    (near costs hc).2.2.2.1 ⟨1, 1⟩ rfl
  obtain ⟨-, -, unlooped, two, -⟩ := ((far costs hc).2.2.2.2 2 6).mp rfl
  exact ⟨hc, by decide, Basis.fits_staircase, hnear, hfar, tree.mp rfl, unique costs _ e, looped,
    unlooped, two.symm⟩

end Freight
