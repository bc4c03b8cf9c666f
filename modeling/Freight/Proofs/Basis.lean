import Freight.Proofs.Forest
import Freight.Proofs.Table

/-!
# Marked cells

A basis of a tableau of a given size (`Basis.Fits`) is the set of its cells: marking and unmarking
change that set by one cell (`Fits.insert?`, `Fits.erase?`), lists of cells become bases
(`exists_ofCells?`), and the size counts the set (`Fits.length_cells`).
-/

namespace Freight.Basis

variable {b b' : Basis} {m n : Nat} {c d : Cell}

/-- A well-formed basis of a tableau with `m` rows and `n` columns. -/
structure Fits (b : Basis) (m n : Nat) : Prop where
  wellFormed : b.WellFormed
  rows_eq : b.rows = m
  cols_eq : b.cols = n

theorem Fits.marks_cells (h : b.Fits m n) : b.marks.cells = Cell.grid m n := by
  rw [← h.rows_eq, ← h.cols_eq]
  rfl

theorem Fits.lines_eq (h : b.Fits m n) : b.lines = m + n := by
  rw [lines, h.rows_eq, h.cols_eq]

theorem Fits.treeSize_eq (h : b.Fits m n) : b.treeSize = m + n - 1 := by
  rw [treeSize, h.lines_eq]

/-! ## The set of cells -/

theorem length_cells_eq_count (b : Basis) : b.cells.length = b.marks.data.toList.count true := by
  unfold cells List.count
  rw [Table.length_cellsWhere]
  exact List.countP_congr fun x _ => by simp

theorem nodup_cells (b : Basis) : b.cells.Nodup := Table.nodup_cellsWhere _ _

theorem mem_cells_of_marks (h : b.marks.WellFormed) :
    c ∈ b.cells ↔ c ∈ b.marks.cells ∧ b.contains? c = some true := by
  unfold cells contains?
  rw [Table.mem_cellsWhere h]
  simp

namespace Fits

theorem length_cells (h : b.Fits m n) : b.cells.length = b.size := by
  rw [length_cells_eq_count, h.wellFormed.2]

theorem mem_cells (h : b.Fits m n) :
    c ∈ b.cells ↔ c ∈ Cell.grid m n ∧ b.contains? c = some true := by
  rw [mem_cells_of_marks h.wellFormed.1, h.marks_cells]

theorem mem_grid (h : b.Fits m n) (hc : c ∈ b.cells) : c ∈ Cell.grid m n := (h.mem_cells.mp hc).1

theorem within (h : b.Fits m n) (hc : c ∈ b.cells) : c.row < m ∧ c.col < n :=
  Cell.mem_grid.mp (h.mem_grid hc)

theorem contains?_eq (h : b.Fits m n) (hc : c ∈ Cell.grid m n) :
    b.contains? c = some (b.contains c) := by
  obtain ⟨x, hx⟩ := Table.exists_get? h.wellFormed.1 (h.marks_cells ▸ hc)
  rw [contains, contains?, hx]
  rfl

theorem contains_iff (h : b.Fits m n) (hc : c ∈ Cell.grid m n) :
    b.contains c = true ↔ c ∈ b.cells := by
  rw [h.mem_cells, h.contains?_eq hc]
  simp [hc]

theorem contains_of_mem (h : b.Fits m n) (hc : c ∈ b.cells) : b.contains c = true :=
  (h.contains_iff (h.mem_grid hc)).mpr hc

/-- The cells come in row-major order. -/
theorem pairwise_cells (h : b.Fits m n) : b.cells.Pairwise fun a b => a.before b = true :=
  Table.Fits.pairwise_before ⟨h.wellFormed.1, h.rows_eq, h.cols_eq⟩ id

/-- A cell is vacant if it lies in the tableau and is not marked. -/
theorem mem_vacant (h : b.Fits m n) : c ∈ b.vacant ↔ c ∈ Cell.grid m n ∧ c ∉ b.cells := by
  unfold vacant
  rw [List.mem_filter, h.marks_cells]
  constructor
  · rintro ⟨hc, hm⟩
    exact ⟨hc, fun hb => by simp [h.contains_of_mem hb] at hm⟩
  · rintro ⟨hc, hm⟩
    refine ⟨hc, ?_⟩
    rw [← h.contains_iff hc] at hm
    simpa using hm

/-- The set of cells determines a basis of a tableau. -/
theorem ext (h : b.Fits m n) (h' : b'.Fits m n) (hc : ∀ c, c ∈ b'.cells ↔ c ∈ b.cells) :
    b' = b := by
  have marks : b'.marks = b.marks := by
    refine Table.ext_get? h.wellFormed.1 h'.wellFormed.1 (h'.rows_eq.trans h.rows_eq.symm)
      (h'.cols_eq.trans h.cols_eq.symm) fun c hm => ?_
    rw [h.marks_cells] at hm
    have e : b'.contains c = b.contains c := by
      rw [Bool.eq_iff_iff, h.contains_iff hm, h'.contains_iff hm, hc]
    have := h'.contains?_eq hm
    rw [e, ← h.contains?_eq hm] at this
    exact this
  have size : b'.size = b.size := by
    rw [h'.wellFormed.2, h.wellFormed.2, marks]
  cases b
  cases b'
  cases marks
  cases size
  rfl

/-- One cell more makes the size one larger. -/
theorem size_succ (h : b.Fits m n) (h' : b'.Fits m n) (hc : c ∉ b.cells)
    (hmem : ∀ d, d ∈ b'.cells ↔ d = c ∨ d ∈ b.cells) : b'.size = b.size + 1 := by
  have perm : b'.cells.Perm (c :: b.cells) :=
    (List.perm_ext_iff_of_nodup b'.nodup_cells (List.nodup_cons.mpr ⟨hc, b.nodup_cells⟩)).mpr
      fun d => by rw [hmem, List.mem_cons]
  rw [← h'.length_cells, perm.length_eq, List.length_cons, h.length_cells]

end Fits

/-! ## Marking and unmarking -/

theorem fits_empty (m n : Nat) : (empty m n).Fits m n where
  wellFormed := ⟨Table.wellFormed_fill m n false, by
    simp [empty, Table.fill, List.count_replicate]⟩
  rows_eq := rfl
  cols_eq := rfl

theorem not_mem_empty : c ∉ (empty m n).cells := by
  intro hc
  obtain ⟨hm, ht⟩ := (fits_empty m n).mem_cells.mp hc
  obtain ⟨hr, hcol⟩ := Cell.mem_grid.mp hm
  rw [contains?, empty, Table.get?_fill hr hcol] at ht
  simp at ht

namespace Fits

/-- A changed mark makes or unmakes its cell and leaves the others alone. -/
theorem set? (h : b.Fits m n) (hc : c ∈ Cell.grid m n) (x : Bool) :
    ∃ marks, b.marks.set? c x = some marks ∧ marks.WellFormed ∧ marks.rows = m ∧ marks.cols = n ∧
      ∀ size d, d ∈ (Basis.mk marks size).cells ↔ if d = c then x = true else d ∈ b.cells := by
  have hcm : c ∈ b.marks.cells := h.marks_cells ▸ hc
  obtain ⟨marks, hset⟩ := Table.exists_modify? h.wellFormed.1 hcm fun _ => x
  obtain ⟨hr, hcol, -⟩ := Table.rows_of_modify? hset
  have wf := h.wellFormed.1.modify? hset
  have grid : marks.cells = Cell.grid m n := by
    rw [Table.cells_of_modify? hset, h.marks_cells]
  refine ⟨marks, hset, wf, hr.trans h.rows_eq, hcol.trans h.cols_eq, fun size d => ?_⟩
  rw [mem_cells_of_marks wf, grid]
  by_cases hd : d ∈ Cell.grid m n
  · have read := Table.get?_modify? hset hcm (h.marks_cells ▸ hd)
    rw [contains?, read, h.mem_cells, contains?]
    obtain ⟨y, hy⟩ := Table.exists_get? h.wellFormed.1 hcm
    split <;> simp [hd, hy]
  · have ne : d ≠ c := fun e => hd (e ▸ hc)
    rw [if_neg ne, h.mem_cells]
    simp [hd]

/-- Marking a cell adds it, and tells whether it was new. -/
theorem insert? (h : b.Fits m n) (hc : c ∈ Cell.grid m n) :
    ∃ b', b.insert? c = some (!b.contains c, b') ∧ b'.Fits m n ∧
      ∀ d, d ∈ b'.cells ↔ d = c ∨ d ∈ b.cells := by
  unfold Basis.insert?
  rw [h.contains?_eq hc]
  cases hb : b.contains c with
  | true =>
    refine ⟨b, by simp, h, fun d => ⟨.inr, ?_⟩⟩
    rintro (rfl | hd)
    · exact (h.contains_iff hc).mp hb
    · exact hd
  | false =>
    have new : c ∉ b.cells := fun hm => by simp [h.contains_of_mem hm] at hb
    obtain ⟨marks, hset, wf, hr, hcol, hmem⟩ := h.set? hc true
    have hmem' : ∀ d, d ∈ (Basis.mk marks (b.size + 1)).cells ↔ d = c ∨ d ∈ b.cells := by
      intro d
      rw [hmem]
      split <;> simp_all
    have perm : (Basis.mk marks (b.size + 1)).cells.Perm (c :: b.cells) :=
      (List.perm_ext_iff_of_nodup (nodup_cells _) (List.nodup_cons.mpr ⟨new, b.nodup_cells⟩)).mpr
        fun d => by rw [hmem', List.mem_cons]
    refine ⟨⟨marks, b.size + 1⟩, by simp [hset], ⟨⟨wf, ?_⟩, hr, hcol⟩, hmem'⟩
    rw [← length_cells_eq_count, perm.length_eq, List.length_cons, h.length_cells]

/-- Unmarking a cell removes it, and tells whether it was there. -/
theorem erase? (h : b.Fits m n) (hc : c ∈ Cell.grid m n) :
    ∃ b', b.erase? c = some (b.contains c, b') ∧ b'.Fits m n ∧
      ∀ d, d ∈ b'.cells ↔ d ∈ b.cells ∧ d ≠ c := by
  unfold Basis.erase?
  rw [h.contains?_eq hc]
  cases hb : b.contains c with
  | false =>
    have new : c ∉ b.cells := fun hm => by simp [h.contains_of_mem hm] at hb
    exact ⟨b, by simp, h, fun d => ⟨fun hd => ⟨hd, fun e => new (e ▸ hd)⟩, And.left⟩⟩
  | true =>
    have old : c ∈ b.cells := (h.contains_iff hc).mp hb
    obtain ⟨marks, hset, wf, hr, hcol, hmem⟩ := h.set? hc false
    have hmem' : ∀ d, d ∈ (Basis.mk marks (b.size - 1)).cells ↔ d ∈ b.cells ∧ d ≠ c := by
      intro d
      rw [hmem]
      split <;> simp_all
    have perm : b.cells.Perm (c :: (Basis.mk marks (b.size - 1)).cells) := by
      refine (List.perm_ext_iff_of_nodup b.nodup_cells
        (List.nodup_cons.mpr ⟨fun hm => ((hmem' c).mp hm).2 rfl, nodup_cells _⟩)).mpr fun d => ?_
      rw [List.mem_cons, hmem']
      by_cases hd : d = c
      · simp [hd, old]
      · simp [hd]
    refine ⟨⟨marks, b.size - 1⟩, by simp [hset], ⟨⟨wf, ?_⟩, hr, hcol⟩, hmem'⟩
    rw [← length_cells_eq_count, ← h.length_cells, perm.length_eq, List.length_cons]
    rfl

end Fits

theorem exists_foldlM_insert? : ∀ {cs : List Cell} {b : Basis}, b.Fits m n →
    (∀ c ∈ cs, c ∈ Cell.grid m n) →
    ∃ b', cs.foldlM (fun b c => (b.insert? c).map Prod.snd) b = some b' ∧ b'.Fits m n ∧
      ∀ d, d ∈ b'.cells ↔ d ∈ b.cells ∨ d ∈ cs
  | [], b, h, _ => ⟨b, rfl, h, fun d => by simp⟩
  | c :: cs, b, h, hs => by
    obtain ⟨b₁, e₁, h₁, mem₁⟩ := h.insert? (hs c List.mem_cons_self)
    obtain ⟨b₂, e₂, h₂, mem₂⟩ :=
      exists_foldlM_insert? h₁ fun d hd => hs d (List.mem_cons_of_mem c hd)
    refine ⟨b₂, ?_, h₂, fun d => ?_⟩
    · rw [List.foldlM_cons, e₁]
      exact e₂
    · rw [mem₂, mem₁, List.mem_cons]
      tauto

/-- Cells of the tableau make a basis with just these cells. -/
theorem exists_ofCells? {cs : List Cell} (hs : ∀ c ∈ cs, c ∈ Cell.grid m n) :
    ∃ b, ofCells? m n cs = some b ∧ b.Fits m n ∧ ∀ d, d ∈ b.cells ↔ d ∈ cs := by
  obtain ⟨b, e, h, mem⟩ := exists_foldlM_insert? (fits_empty m n) hs
  exact ⟨b, e, h, fun d => by rw [mem]; simp [not_mem_empty]⟩

/-- The loaded cells of a well-formed table make a basis with just these cells. -/
theorem exists_ofLoaded? {α : Type} [Scalar α] {t : Table α} (ht : t.WellFormed) (tol : α) :
    ∃ b, ofLoaded? t tol = some b ∧ b.Fits t.rows t.cols ∧ ∀ d, d ∈ b.cells ↔ d ∈ t.loaded tol :=
  exists_ofCells? fun _ hc => ((Table.mem_cellsWhere ht).mp hc).1

end Freight.Basis
