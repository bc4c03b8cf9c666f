import Freight.Proofs.Completion
import Mathlib.Data.Set.Card

/-!
# A basis as a set of cells

A basis keeps a mark for each cell of its tableau and the number of marked cells beside them. The
marks say which set it is (`Basis.members`), and the number, the list of cells and every change go by
this set (`Basis.IsCellSet`). That holds of each basis that fits its tableau (`Fits.isCellSet`), and
each change keeps that fit (`Fits.change?`), filling up included (`Fits.fits_of_repair`), so it
holds after any sequence of them (`Fits.changes?`).

Main statement: bases made from cells, or empty ones, stay such sets under all changes
(`changes_keep_isCellSet`).
-/

namespace Freight.Basis

variable {b b' : Basis} {m n : Nat} {c : Cell}

/-- The cells of the tableau with a mark that is set. -/
def members (b : Basis) : Set Cell := {c | c ∈ Cell.grid b.rows b.cols ∧ b.contains? c = some true}

/-- What can be asked of a basis, and what can be done to a cell of it, agree with its set. -/
structure IsCellSet (b : Basis) : Prop where
  /-- Every cell of the tableau has a mark. -/
  exists_contains? : ∀ c ∈ Cell.grid b.rows b.cols, ∃ marked, b.contains? c = some marked
  size_eq : b.size = b.members.ncard
  mem_cells_iff : ∀ c, c ∈ b.cells ↔ c ∈ b.members
  /-- The cells come in row-major order, so each comes once. -/
  pairwise_before : b.cells.Pairwise fun c d => c.before d = true
  /-- Marking adds the cell and no other, and tells whether that changed the set. -/
  insert? : ∀ c ∈ Cell.grid b.rows b.cols, ∃ changed b', b.insert? c = some (changed, b') ∧
    (changed = true ↔ b'.members ≠ b.members) ∧ b'.members = insert c b.members ∧
      b'.rows = b.rows ∧ b'.cols = b.cols
  /-- Unmarking removes the cell and no other, and tells whether that changed the set. -/
  erase? : ∀ c ∈ Cell.grid b.rows b.cols, ∃ changed b', b.erase? c = some (changed, b') ∧
    (changed = true ↔ b'.members ≠ b.members) ∧ b'.members = b.members \ {c} ∧
      b'.rows = b.rows ∧ b'.cols = b.cols
  /-- The listed cells make the same basis again. -/
  ofCells?_cells : ofCells? b.rows b.cols b.cells = some b

namespace Fits

/-! ## The set of a basis -/

theorem mem_members (h : b.Fits m n) : c ∈ b.members ↔ c ∈ b.cells := by
  rw [h.mem_cells, members, h.rows_eq, h.cols_eq]
  rfl

theorem members_eq (h : b.Fits m n) : b.members = b.cells.toFinset := by
  ext c
  rw [h.mem_members, List.coe_toFinset, Set.mem_ofPred]

theorem ncard_members (h : b.Fits m n) : b.members.ncard = b.size := by
  rw [h.members_eq, Set.ncard_coe_finset, List.toFinset_card_of_nodup b.nodup_cells,
    h.length_cells]

theorem contains_iff_mem_members (h : b.Fits m n) (hc : c ∈ Cell.grid m n) :
    b.contains c = true ↔ c ∈ b.members := by
  rw [h.contains_iff hc, h.mem_members]

/-- The cells of a basis make this basis. -/
theorem ofCells?_cells (h : b.Fits m n) : ofCells? m n b.cells = some b := by
  obtain ⟨b', e, h', mem⟩ := exists_ofCells? fun c hc => h.mem_grid hc
  rw [e, h.ext h' mem]

/-- Marking a cell adds it to the set. -/
theorem members_of_insert? (h : b.Fits m n) (hc : c ∈ Cell.grid m n) :
    ∃ changed b', b.insert? c = some (changed, b') ∧
      (changed = true ↔ b'.members ≠ b.members) ∧ b'.members = insert c b.members ∧
        b'.Fits m n := by
  obtain ⟨b', e, h', mem⟩ := h.insert? hc
  have added : b'.members = insert c b.members := by
    ext d
    rw [Set.mem_insert_iff, h'.mem_members, h.mem_members, mem]
  refine ⟨_, b', e, ?_, added, h'⟩
  rw [added, Ne, Set.insert_eq_self, ← h.contains_iff_mem_members hc]
  simp

/-- Unmarking a cell removes it from the set. -/
theorem members_of_erase? (h : b.Fits m n) (hc : c ∈ Cell.grid m n) :
    ∃ changed b', b.erase? c = some (changed, b') ∧
      (changed = true ↔ b'.members ≠ b.members) ∧ b'.members = b.members \ {c} ∧
        b'.Fits m n := by
  obtain ⟨b', e, h', mem⟩ := h.erase? hc
  have removed : b'.members = b.members \ {c} := by
    ext d
    rw [Set.mem_sdiff, Set.mem_singleton_iff, h'.mem_members, h.mem_members, mem]
  refine ⟨_, b', e, ?_, removed, h'⟩
  rw [removed, Ne, sdiff_eq_left, Set.disjoint_singleton_right,
    ← h.contains_iff_mem_members hc, not_not]

theorem isCellSet (h : b.Fits m n) : b.IsCellSet := by
  obtain ⟨wf, rfl, rfl⟩ := h
  have h : b.Fits b.rows b.cols := ⟨wf, rfl, rfl⟩
  refine ⟨fun c hc => ⟨_, h.contains?_eq hc⟩, h.ncard_members.symm, fun c => h.mem_members.symm,
    h.pairwise_cells, fun c hc => ?_, fun c hc => ?_, h.ofCells?_cells⟩
  · obtain ⟨changed, b', e, tells, added, h'⟩ := h.members_of_insert? hc
    exact ⟨changed, b', e, tells, added, h'.rows_eq, h'.cols_eq⟩
  · obtain ⟨changed, b', e, tells, removed, h'⟩ := h.members_of_erase? hc
    exact ⟨changed, b', e, tells, removed, h'.rows_eq, h'.cols_eq⟩

/-! ## Changes -/

/-- Filling up keeps the fit, also without lines on one side. -/
theorem fits_of_repair (h : b.Fits m n) {added : Nat} (e : b.repair = .ok (b', added)) :
    b'.Fits m n := by
  by_cases lines : 0 < m ∧ 0 < n
  · exact (h.of_repair lines.1 lines.2 e).1
  · -- There is no cell to add.
    rw [h.repair_of_grid_eq_nil (Cell.grid_eq_nil lines)] at e
    cases e
    exact h

/-- A change within the tableau can be made. -/
theorem change? (h : b.Fits m n) {change : Change} (within : change.Within m n) :
    ∃ b', b.change? change = some b' ∧ b'.Fits m n := by
  cases change with
  | insert c =>
    obtain ⟨b', e, h', -⟩ := h.insert? (Cell.mem_grid.mpr within)
    exact ⟨b', by rw [Basis.change?, e]; rfl, h'⟩
  | erase c =>
    obtain ⟨b', e, h', -⟩ := h.erase? (Cell.mem_grid.mpr within)
    exact ⟨b', by rw [Basis.change?, e]; rfl, h'⟩
  | repair =>
    rw [Basis.change?, run_writeRepair]
    cases e : b.repair with
    | ok r => exact ⟨r.1, rfl, h.fits_of_repair e⟩
    | error c => exact ⟨b, rfl, h⟩

/-- So can a sequence of changes. -/
theorem changes? {changes : List Change} (h : b.Fits m n)
    (within : ∀ change ∈ changes, change.Within m n) :
    ∃ b', b.changes? changes = some b' ∧ b'.Fits m n := by
  induction changes generalizing b with
  | nil => exact ⟨b, rfl, h⟩
  | cons change changes ih =>
    obtain ⟨b₁, e₁, h₁⟩ := h.change? (within change List.mem_cons_self)
    obtain ⟨b₂, e₂, h₂⟩ := ih h₁ fun d hd => within d (List.mem_cons_of_mem change hd)
    refine ⟨b₂, ?_, h₂⟩
    rw [Basis.changes?, List.foldlM_cons, e₁]
    exact e₂

end Fits

/-- Cells of a tableau, repeated or not, make the basis that is their set. From there and from the
empty basis any sequence of changes within the tableau can be made, and leaves a basis of the tableau
whose size, list of cells and answers to changes are those of a set of cells. -/
theorem changes_keep_isCellSet (rows cols : Nat) (cells : List Cell) (changes : List Change)
    (hcells : ∀ c ∈ cells, c.row < rows ∧ c.col < cols)
    (hchanges : ∀ change ∈ changes, change.Within rows cols) :
    ∃ made, ofCells? rows cols cells = some made ∧ (∀ c, c ∈ made.members ↔ c ∈ cells) ∧
      (empty rows cols).members = ∅ ∧
      ∀ first, first = empty rows cols ∨ first = made →
        ∃ last, first.changes? changes = some last ∧ last.rows = rows ∧ last.cols = cols ∧
          last.IsCellSet := by
  obtain ⟨made, e, fits, mem⟩ := exists_ofCells? fun c hc => Cell.mem_grid.mpr (hcells c hc)
  have blank := fits_empty rows cols
  refine ⟨made, e, fun c => by rw [fits.mem_members, mem], ?_, fun first hfirst => ?_⟩
  · exact Set.eq_empty_of_forall_notMem fun c hc => not_mem_empty (blank.mem_members.mp hc)
  · have fitsFirst : first.Fits rows cols := by
      rcases hfirst with rfl | rfl
      · exact blank
      · exact fits
    obtain ⟨last, changed, fitsLast⟩ := fitsFirst.changes? hchanges
    exact ⟨last, changed, fitsLast.rows_eq, fitsLast.cols_eq, fitsLast.isCellSet⟩

/-- One cell is given twice and one unmarked twice. The first filling up adds two cells, and the second
one is refused for the loop that marking a fifth cell has closed. -/
theorem changes_keep_isCellSet_refused :
    let cells : List Cell := [⟨0, 1⟩, ⟨1, 0⟩, ⟨0, 1⟩]
    let changes : List Change := [.insert ⟨1, 2⟩, .erase ⟨0, 1⟩, .erase ⟨0, 1⟩, .repair,
      .insert ⟨1, 1⟩, .repair, .erase ⟨0, 0⟩]
    let made : Basis := ⟨⟨2, 3, #[false, true, false, true, false, false]⟩, 2⟩
    let last : Basis := ⟨⟨2, 3, #[false, true, false, true, true, true]⟩, 4⟩
    (∀ c ∈ cells, c.row < 2 ∧ c.col < 3) ∧ (∀ change ∈ changes, change.Within 2 3) ∧
      ofCells? 2 3 cells = some made ∧ made.changes? changes = some last ∧
      last.members.ncard = 4 ∧ ⟨1, 1⟩ ∈ last.members ∧ ⟨0, 0⟩ ∉ last.members ∧
      ofCells? 2 3 last.cells = some last := by
  intro cells changes made last
  have hcells : ∀ c ∈ cells, c.row < 2 ∧ c.col < 3 := by decide
  have hchanges : ∀ change ∈ changes, change.Within 2 3 := by simp [changes, Change.Within]
  obtain ⟨made', e, -, -, keep⟩ := changes_keep_isCellSet 2 3 cells changes hcells hchanges
  obtain ⟨last', e', -, -, set⟩ := keep made' (.inr rfl)
  obtain rfl : made' = made := Option.some.inj (e.symm.trans (by decide +kernel))
  obtain rfl : last' = last := Option.some.inj (e'.symm.trans (by decide +kernel))
  refine ⟨hcells, hchanges, e, e', set.size_eq.symm, (set.mem_cells_iff _).mp (by decide +kernel),
    fun hm => ?_, set.ofCells?_cells⟩
  have listed := (set.mem_cells_iff _).mpr hm
  exact absurd listed (by decide +kernel)

end Freight.Basis
