import Freight.Proofs.Repair
import Mathlib.Combinatorics.SimpleGraph.Acyclic

/-!
# The graph of a basis

A basis as a simple graph: its nodes are the rows and the columns of the tableau, and a marked cell is
an edge between its row and its column (`Basis.graph`). Cells connect two lines exactly if the nodes are
reachable from one another (`reachable_cellGraph_iff`), cells close no cycle exactly if their graph is
acyclic (`isAcyclic_cellGraph_iff`), and a basis is a spanning tree exactly if its graph is a tree
(`Fits.graph_isTree_iff`).
-/

namespace Freight

namespace Line

variable {m n : Nat}

/-- The line of a node. -/
def ofNode : Fin m ⊕ Fin n → Line
  | .inl i => row i
  | .inr j => column j

theorem ofNode_within (v : Fin m ⊕ Fin n) : (ofNode v).Within m n := by
  cases v with
  | inl i => exact i.isLt
  | inr j => exact j.isLt

theorem ofNode_inj {v w : Fin m ⊕ Fin n} : ofNode v = ofNode w ↔ v = w := by
  cases v <;> cases w <;> simp [ofNode, Fin.ext_iff]

/-- Every line of the tableau has a node. -/
theorem Within.exists_node {l : Line} (h : l.Within m n) :
    ∃ v : Fin m ⊕ Fin n, ofNode v = l := by
  cases l with
  | row i => exact ⟨.inl ⟨i, h⟩, rfl⟩
  | column j => exact ⟨.inr ⟨j, h⟩, rfl⟩

end Line

namespace Basis

open Line (ofNode)

variable {b : Basis} {m n : Nat} {cs : List Cell} {c : Cell}

/-- The graph of given cells: two lines are adjacent if they cross in one of them. -/
def cellGraph (cs : List Cell) (m n : Nat) : SimpleGraph (Fin m ⊕ Fin n) where
  Adj v w := ∃ c ∈ cs, (ofNode v).Through c ∧ (ofNode v).crossing c = ofNode w
  symm := ⟨by
    rintro v w ⟨c, hc, through, e⟩
    refine ⟨c, hc, e ▸ Line.through_crossing _ c, ?_⟩
    rw [← e, through.crossing_crossing]⟩
  loopless := ⟨by
    rintro v ⟨c, -, -, e⟩
    exact Line.crossing_ne _ c e⟩

/-- The graph of a basis: the lines of the tableau, adjacent where they cross in a marked cell. -/
def graph (b : Basis) : SimpleGraph (Fin b.rows ⊕ Fin b.cols) := cellGraph b.cells b.rows b.cols

/-- Nodes are reachable from one another exactly if the cells connect their lines. -/
theorem reachable_cellGraph_iff (hs : ∀ c ∈ cs, c ∈ Cell.grid m n) {v w : Fin m ⊕ Fin n} :
    (cellGraph cs m n).Reachable v w ↔ Line.Connected cs (ofNode v) (ofNode w) := by
  constructor
  · rintro ⟨walk⟩
    induction walk with
    | nil => exact .refl
    | cons adj _ ih =>
      obtain ⟨c, hc, through, e⟩ := adj
      exact (e ▸ Line.Connected.single hc through).trans ih
  · intro h
    generalize target : ofNode w = l at h
    induction h generalizing w with
    | refl =>
      rw [Line.ofNode_inj.mp target]
    | @change l c _ hc through ih =>
      -- The line before the last change has a node, which is adjacent to the last one.
      have back : (ofNode w).crossing c = l := by rw [target, through.crossing_crossing]
      obtain ⟨hr, hcol⟩ := Cell.mem_grid.mp (hs c hc)
      obtain ⟨u, hu⟩ := (back ▸ Line.Within.crossing hr hcol (ofNode w)).exists_node
      have adj : (cellGraph cs m n).Adj u w := ⟨c, hc, hu ▸ through, by rw [hu, target]⟩
      exact (ih hu).trans adj.reachable

/-- Taking away the edge of a cell takes away the cell. -/
theorem deleteEdges_cellGraph {v w : Fin m ⊕ Fin n} (through : (ofNode v).Through c)
    (e : (ofNode v).crossing c = ofNode w) :
    (cellGraph cs m n).deleteEdges {s(v, w)} = cellGraph (cs.filter (· ≠ c)) m n := by
  have through' : (ofNode w).Through c := e ▸ Line.through_crossing _ c
  ext x y
  rw [SimpleGraph.deleteEdges_adj, Set.mem_singleton_iff]
  constructor
  · rintro ⟨⟨d, hd, hx, ey⟩, other⟩
    refine ⟨d, List.mem_filter.mpr ⟨hd, ?_⟩, hx, ey⟩
    simp only [ne_eq, decide_eq_true_eq]
    rintro rfl
    apply other
    rcases through.eq_or_crossing hx with ex | ex
    · have hv := Line.ofNode_inj.mp ex
      have hw := Line.ofNode_inj.mp ((ex ▸ ey).symm.trans e)
      rw [hv, hw]
    · have hw := Line.ofNode_inj.mp (ex.trans e)
      have hv : y = v := by
        apply Line.ofNode_inj.mp
        rw [← ey, ex, through.crossing_crossing]
      rw [hv, hw, Sym2.eq_swap]
  · rintro ⟨d, hd, hx, ey⟩
    obtain ⟨hd, ne⟩ := List.mem_filter.mp hd
    simp only [ne_eq, decide_eq_true_eq] at ne
    refine ⟨⟨d, hd, hx, ey⟩, fun same => ne ?_⟩
    -- Two lines cross in one cell only.
    rcases Sym2.eq_iff.mp same with ⟨rfl, rfl⟩ | ⟨rfl, rfl⟩
    · exact hx.eq_of_crossing_eq through (ey.trans e.symm)
    · exact hx.eq_of_crossing_eq through' (ey.trans (by rw [← e, through.crossing_crossing]))

/-- Cells close no cycle exactly if their graph is acyclic: there every edge is a bridge. -/
theorem isAcyclic_cellGraph_iff (hs : ∀ c ∈ cs, c ∈ Cell.grid m n) :
    (cellGraph cs m n).IsAcyclic ↔ Acyclic cs := by
  have sub : ∀ c, ∀ d ∈ cs.filter (· ≠ c), d ∈ Cell.grid m n :=
    fun c d hd => hs d (List.mem_filter.mp hd).1
  rw [SimpleGraph.isAcyclic_iff_forall_adj_isBridge]
  constructor
  · intro h c hc hcon
    obtain ⟨v, hv⟩ := (Line.row_within (hs c hc)).exists_node
    obtain ⟨w, hw⟩ := (Line.column_within (hs c hc)).exists_node
    have through : (ofNode v).Through c := hv ▸ Line.through_row c
    have e : (ofNode v).crossing c = ofNode w := by rw [hv, hw]; rfl
    have bridge := h ⟨c, hc, through, e⟩
    rw [SimpleGraph.isBridge_iff, deleteEdges_cellGraph through e,
      reachable_cellGraph_iff (sub c), hv, hw] at bridge
    exact bridge hcon
  · rintro h v w ⟨c, hc, through, e⟩
    rw [SimpleGraph.isBridge_iff, deleteEdges_cellGraph through e,
      reachable_cellGraph_iff (sub c), ← e]
    intro hcon
    rcases through.eq_or with ev | ev
    · rw [ev] at hcon
      exact h c hc hcon
    · rw [ev] at hcon
      exact h c hc hcon.symm

namespace Fits

theorem mem_own_grid (h : b.Fits m n) : ∀ c ∈ b.cells, c ∈ Cell.grid b.rows b.cols := by
  intro c hc
  rw [h.rows_eq, h.cols_eq]
  exact h.mem_grid hc

theorem graph_isAcyclic_iff (h : b.Fits m n) : b.graph.IsAcyclic ↔ Acyclic b.cells :=
  isAcyclic_cellGraph_iff h.mem_own_grid

/-- A basis is a spanning tree exactly if its graph is a tree. -/
theorem graph_isTree_iff (h : b.Fits m n) (hpos : 0 < m + n) : b.graph.IsTree ↔ b.IsTree := by
  have hs := h.mem_own_grid
  rw [SimpleGraph.isTree_iff, h.graph_isAcyclic_iff, graph, SimpleGraph.connected_iff]
  constructor
  · rintro ⟨⟨connected, -⟩, acyclic⟩
    refine ⟨acyclic, fun k l hk hl => ?_⟩
    obtain ⟨v, rfl⟩ := hk.exists_node
    obtain ⟨w, rfl⟩ := hl.exists_node
    exact (reachable_cellGraph_iff hs).mp (connected v w)
  · rintro ⟨acyclic, connected⟩
    refine ⟨⟨fun v w => ?_, ?_⟩, acyclic⟩
    · rw [reachable_cellGraph_iff hs]
      exact connected _ _ (Line.ofNode_within v) (Line.ofNode_within w)
    · obtain ⟨l, hl, -⟩ := Line.exists_index (m := b.rows) (n := b.cols) (x := 0) (by
        rw [h.rows_eq, h.cols_eq]
        exact hpos)
      obtain ⟨v, -⟩ := hl.exists_node
      exact ⟨v⟩

end Fits

end Basis

end Freight
