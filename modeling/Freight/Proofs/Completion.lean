import Freight.Proofs.BasisGraph
import Freight.Proofs.Check

/-!
# Completing a forest

Filling up takes each cell that its list and the marks before it do not connect
(`Fits.mem_fill_iff`), so along the whole tableau it marks the cells that join lines not connected by
the old cells and the cells before them in row-major order, whether or not these were marked
(`Fits.mem_of_repair`).

Done in place (`Basis.writeRepair`), filling up comes to the same basis and the same number of cells,
and a refusal comes before anything is marked (`run_writeRepair`).

Main statement: all of that (`Basis.repair_completes`).
-/

namespace Freight

namespace Basis

variable {b b' : Basis} {p : Partition} {m n : Nat} {c d : Cell} {cs ds : List Cell}

/-! ## Marked cells after filling up -/

/-- A cell whose lines are connected anyway connects nothing. -/
theorem connected_append_cons {k l : Line} (hc : Line.Connected cs (.row c.row) (.column c.col)) :
    Line.Connected (c :: ds ++ cs) k l ↔ Line.Connected (ds ++ cs) k l := by
  have sub : ∀ d ∈ cs, d ∈ ds ++ cs := fun d hd => List.mem_append_right _ hd
  have mid := hc.mono sub
  rw [List.cons_append, Line.connected_cons]
  constructor
  · rintro (h | ⟨h, h'⟩ | ⟨h, h'⟩)
    · exact h
    · exact h.trans (mid.trans h')
    · exact h.trans (mid.symm.trans h')
  · exact .inl

namespace Fits

/-- Filling up along a list marks those of its cells whose lines are not connected by the marked
cells and the cells before them in the list. -/
theorem mem_fill_iff (hpos : 0 < m + n) : ∀ (cs : List Cell) {b : Basis} {p : Partition},
    b.Fits m n → Tracks p m n b.cells → (∀ c ∈ cs, c ∈ Cell.grid m n) →
    (d ∈ (b.fill p cs).1.cells ↔ d ∈ b.cells ∨ ∃ before after, cs = before ++ d :: after ∧
      ¬ Line.Connected (before ++ b.cells) (.row d.row) (.column d.col))
  | [], b, p, _, _, _ => by simp [Basis.fill]
  | c :: cs, b, p, h, ht, hs => by
    have hc := hs c List.mem_cons_self
    have hs' : ∀ d ∈ cs, d ∈ Cell.grid m n := fun d hd => hs d (List.mem_cons_of_mem c hd)
    rcases h.fill_cons ht hc cs with ⟨full, e⟩ | ⟨hcon, q, tracks, e⟩ |
      ⟨hcon, b₁, q, h₁, mem, -, tracks, e⟩
    · rw [e]
      refine ⟨.inl, ?_⟩
      rintro (hd | ⟨before, after, split, apart⟩)
      · exact hd
      · rw [h.treeSize_eq, ← h.length_cells] at full
        have length := ht.length_lt hpos
        have hd := hs d (split ▸ by simp)
        have all := (ht.length_eq_iff hpos).mp (by omega) _ _ (Line.row_within hd)
          (Line.column_within hd)
        exact absurd (all.mono fun x hx => List.mem_append_right _ hx) apart
    · rw [e, mem_fill_iff hpos cs h tracks hs']
      apply or_congr_right
      constructor
      · rintro ⟨before, after, rfl, apart⟩
        exact ⟨c :: before, after, rfl, (connected_append_cons hcon).not.mpr apart⟩
      · rintro ⟨before, after, split, apart⟩
        cases before with
        | nil =>
          cases split
          exact absurd hcon apart
        | cons x before =>
          cases split
          exact ⟨before, after, rfl, (connected_append_cons hcon).not.mp apart⟩
    · have same : ∀ before x, x ∈ before ++ b₁.cells ↔ x ∈ c :: before ++ b.cells := by
        intro before x
        simp only [List.mem_append, List.mem_cons, mem]
        tauto
      rw [e, mem_fill_iff hpos cs h₁ tracks hs', mem]
      constructor
      · rintro ((rfl | hd) | ⟨before, after, rfl, apart⟩)
        · exact .inr ⟨[], cs, rfl, hcon⟩
        · exact .inl hd
        · exact .inr ⟨c :: before, after, rfl,
            fun h => apart (h.mono fun x => (same before x).mpr)⟩
      · rintro (hd | ⟨before, after, split, apart⟩)
        · exact .inl (.inr hd)
        · cases before with
          | nil =>
            cases split
            exact .inl (.inl rfl)
          | cons x before =>
            cases split
            exact .inr ⟨before, after, rfl, fun h => apart (h.mono fun x => (same before x).mp)⟩

/-- Filling up along a list raises the size by the number of cells added. -/
theorem size_fill : ∀ (cs : List Cell) {b : Basis} {p : Partition}, b.Fits m n →
    Tracks p m n b.cells → (∀ c ∈ cs, c ∈ Cell.grid m n) →
    (b.fill p cs).1.size = b.size + (b.fill p cs).2
  | [], b, p, _, _, _ => rfl
  | c :: cs, b, p, h, ht, hs => by
    have hs' : ∀ d ∈ cs, d ∈ Cell.grid m n := fun d hd => hs d (List.mem_cons_of_mem c hd)
    rcases h.fill_cons ht (hs c List.mem_cons_self) cs with ⟨-, e⟩ | ⟨-, q, tracks, e⟩ |
      ⟨-, b₁, q, h₁, -, size, tracks, e⟩
    · rw [e, Nat.add_zero]
    · rw [e, size_fill cs h tracks hs']
    · rw [e, size_fill cs h₁ tracks hs', size]
      omega

/-- The cells of a basis that was filled up. -/
theorem mem_of_repair (h : b.Fits m n) (hpos : 0 < m + n) {added : Nat}
    (e : b.repair = .ok (b', added)) : d ∈ b'.cells ↔ d ∈ b.cells ∨ d ∈ Cell.grid m n ∧
      ¬ Line.Connected (b.cells ++ (Cell.grid m n).filter (·.before d)) (.row d.row)
        (.column d.col) := by
  obtain ⟨p, ep, e⟩ := map_eq_ok.mp e
  have mem := h.mem_fill_iff (d := d) hpos b.marks.cells (h.of_components ep).1
    fun c hc => h.marks_cells ▸ hc
  rw [e, h.marks_cells] at mem
  rw [mem]
  apply or_congr_right
  -- The cells before this one in the tableau are those before it in row-major order.
  have split : ∀ before after, Cell.grid m n = before ++ d :: after →
      (Line.Connected (before ++ b.cells) (.row d.row) (.column d.col) ↔
        Line.Connected (b.cells ++ (Cell.grid m n).filter (·.before d)) (.row d.row)
          (.column d.col)) := by
    intro before after split
    have sorted := Cell.pairwise_grid m n
    rw [split] at sorted
    rw [split, Cell.filter_before sorted]
    constructor <;> intro h <;> apply h.mono <;> simp [or_comm]
  constructor
  · rintro ⟨before, after, e, apart⟩
    exact ⟨e ▸ by simp, (split before after e).not.mp apart⟩
  · rintro ⟨hd, apart⟩
    obtain ⟨before, after, e⟩ := List.append_of_mem hd
    exact ⟨before, after, e, (split before after e).not.mpr apart⟩

/-- Filling up adds the cells that a tree has beyond the marked ones. -/
theorem size_of_repair (h : b.Fits m n) {added : Nat} (e : b.repair = .ok (b', added)) :
    b'.size = b.size + added := by
  obtain ⟨p, ep, e⟩ := map_eq_ok.mp e
  have size := h.size_fill b.marks.cells (h.of_components ep).1 fun c hc => h.marks_cells ▸ hc
  rwa [e] at size

end Fits

/-! ## Filling up in place -/

theorem run_writeFill : ∀ (cs : List Cell) (p : Partition) (b : Basis),
    (writeFill p cs).run b = .ok (b.fill p cs).2 (b.fill p cs).1
  | [], p, b => rfl
  | c :: cs, p, b => by
    unfold writeFill Basis.fill
    simp only [EStateM.run_bind, EStateM.run_get]
    split
    · rfl
    · split
      · exact run_writeFill cs p b
      · cases b.join p c with
        | mk joined q =>
          cases joined with
          | false => exact run_writeFill cs q b
          | true =>
            cases b.insert? c with
            | none => exact run_writeFill cs q b
            | some r =>
              simp only [EStateM.run_bind, EStateM.run_set, run_writeFill cs, EStateM.run_pure]

/-- Done in place, filling up comes to the same basis; a refusal comes before anything is marked. -/
theorem run_writeRepair (b : Basis) : writeRepair.run b =
    match b.repair with
    | .ok (b', added) => .ok added b'
    | .error c => .error c b := by
  unfold writeRepair repair
  simp only [EStateM.run_bind, EStateM.run_get]
  cases b.components with
  | error c => rfl
  | ok p => exact run_writeFill _ p b

/-! ## The whole tableau -/

/-- What filling up does to a basis of a tableau with lines on both sides. It is refused exactly if
the graph of the basis has a cycle: the cell that is named is the first one in row-major order that
closes a cycle with the marked cells before it, and the basis is left as it was. A forest is filled up
to a spanning tree over its cells with as many cells as it lacks, and these are the vacant cells whose
lines are not connected by the old cells and the cells before them. Filling up once more does
nothing. -/
theorem repair_completes {m n : Nat} (b : Basis) (hb : b.Fits m n) (hm : 0 < m) (hn : 0 < n) :
    ((∃ c, b.repair = .error c) ↔ ¬ b.graph.IsAcyclic) ∧
      (∀ c, b.repair = .error c →
        b.ClosesCycle c ∧ (∀ d, b.ClosesCycle d → d = c ∨ c.before d = true) ∧
          writeRepair.run b = .error c b) ∧
      (b.graph.IsAcyclic → ∃ b' added, b.repair = .ok (b', added) ∧
        b.size ≤ m + n - 1 ∧ added = m + n - 1 - b.size ∧
        b'.Fits m n ∧ b'.isSpanningTree = true ∧ b'.graph.IsTree ∧
        (∀ c ∈ b.cells, c ∈ b'.cells) ∧
        (∀ c, (c ∈ b'.cells ∧ c ∉ b.cells) ↔ c ∈ Cell.grid m n ∧ c ∉ b.cells ∧
          ¬ Line.Connected (b.cells ++ (Cell.grid m n).filter (·.before c))
            (.row c.row) (.column c.col)) ∧
        writeRepair.run b = .ok added b' ∧
        b'.repair = .ok (b', 0) ∧ writeRepair.run b' = .ok 0 b') := by
  have hpos : 0 < m + n := Nat.add_pos_left hm n
  refine ⟨?_, fun c e => ?_, fun acyclic => ?_⟩
  · rw [hb.graph_isAcyclic_iff, ← hb.repair_isOk_iff]
    cases b.repair with
    | ok r => simp
    | error c => simp
  · obtain ⟨closes, first⟩ := hb.closesCycle_of_components (map_eq_error.mp e)
    exact ⟨closes, first, by rw [run_writeRepair, e]⟩
  · obtain ⟨b', added, e, hb', tree, old⟩ :=
      hb.exists_repair hm hn (hb.graph_isAcyclic_iff.mp acyclic)
    have size := hb.size_of_repair e
    have treeSize := hb'.size_of_isTree hpos tree
    have again := hb'.repair_of_isTree hm tree
    refine ⟨b', added, e, by omega, by omega, hb', (hb'.isSpanningTree_iff hpos).mpr tree,
      (hb'.graph_isTree_iff hpos).mpr tree, old, fun c => ?_, by rw [run_writeRepair, e], again,
      by rw [run_writeRepair, again]⟩
    rw [hb.mem_of_repair hpos e]
    tauto

/-- Two cells in one row and one apart from them are filled up in the first row and in the first
column. Four cells that close a loop are refused for the last of them. -/
theorem repair_completes_gaps :
    let gaps : Basis := ⟨⟨3, 3, #[true, false, true, false, true, false, false, false, false]⟩, 3⟩
    let tree : Basis := ⟨⟨3, 3, #[true, true, true, false, true, false, true, false, false]⟩, 5⟩
    let square : Basis := ⟨⟨2, 2, #[true, true, true, true]⟩, 4⟩
    gaps.Fits 3 3 ∧ square.Fits 2 2 ∧ 0 < 3 ∧ 0 < 2 ∧
      gaps.repair = .ok (tree, 2) ∧ tree.graph.IsTree ∧ writeRepair.run tree = .ok 0 tree ∧
      ¬ Line.Connected (gaps.cells ++ [⟨0, 0⟩]) (.row 0) (.column 1) ∧
      square.ClosesCycle ⟨1, 1⟩ ∧ writeRepair.run square = .error ⟨1, 1⟩ square := by
  intro gaps tree square
  have hgaps : gaps.Fits 3 3 := ⟨⟨rfl, rfl⟩, rfl, rfl⟩
  have hsquare : square.Fits 2 2 := ⟨⟨rfl, rfl⟩, rfl, rfl⟩
  have e : gaps.repair = .ok (tree, 2) := by decide +kernel
  have acyclic : gaps.graph.IsAcyclic :=
    hgaps.graph_isAcyclic_iff.mpr (hgaps.repair_isOk_iff.mp ⟨_, e⟩)
  obtain ⟨b', added, e', -, -, -, -, isTree, -, mem, -, -, again⟩ :=
    (repair_completes gaps hgaps (by decide) (by decide)).2.2 acyclic
  have refused : square.repair = .error ⟨1, 1⟩ := by decide +kernel
  obtain ⟨closes, -, untouched⟩ :=
    (repair_completes square hsquare (by decide) (by decide)).2.1 ⟨1, 1⟩ refused
  rw [e] at e'
  cases e'
  exact ⟨hgaps, hsquare, by decide, by decide, e, isTree, again,
    ((mem ⟨0, 1⟩).mp (by decide)).2.2, closes, untouched⟩

end Basis

end Freight
