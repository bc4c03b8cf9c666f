import Freight.Plan.Rival
import Freight.Table.Lemmas
import Mathlib.Data.List.Nodup

/-!
# Entries of well-formed tables

In a well-formed table every lookup and every change of a cell of the rectangle succeeds, and the
buffer lists the rectangle once: the cells whose entries pass a test (`mem_cellsWhere`) come in the
order of their positions (`pairwise_cellsWhere`), each once. Tables made from rows, and tables with
a line appended, have the expected entries (`exists_ofRows?`, `Fits.get?_appendRow`,
`Fits.appendColumn`).
-/

namespace Freight

/-- Two lookups after another succeed when each does. -/
theorem exists_bind {β γ : Type} {x : Option β} {f : β → Option γ} (hx : ∃ y, x = some y)
    (hf : ∀ y, x = some y → ∃ z, f y = some z) : ∃ z, (x >>= f) = some z := by
  obtain ⟨y, rfl⟩ := hx
  exact hf y rfl

/-- Looking up each element of a list succeeds when each lookup does. -/
theorem exists_mapM {β γ : Type} {f : β → Option γ} : ∀ {xs : List β},
    (∀ x ∈ xs, ∃ y, f x = some y) → ∃ ys, xs.mapM f = some ys
  | [], _ => ⟨[], rfl⟩
  | x :: xs, h => by
    obtain ⟨y, hy⟩ := h x List.mem_cons_self
    obtain ⟨ys, hys⟩ := exists_mapM fun x' hx' => h x' (List.mem_cons_of_mem x hx')
    exact ⟨y :: ys, by rw [List.mapM_cons, hy, hys]; rfl⟩

theorem mapM_congr {β γ : Type} {f g : β → Option γ} {xs : List β} (h : ∀ x ∈ xs, f x = g x) :
    xs.mapM f = xs.mapM g := by
  induction xs with
  | nil => rfl
  | cons x xs ih =>
    rw [List.mapM_cons, List.mapM_cons, h x List.mem_cons_self,
      ih fun y hy => h y (List.mem_cons_of_mem x hy)]

/-- Looking up elements that are all there is a map. -/
theorem mapM_eq_map {β γ : Type} {f : β → Option γ} {g : β → γ} {xs : List β}
    (h : ∀ x ∈ xs, f x = some (g x)) : xs.mapM f = some (xs.map g) :=
  (mapM_congr h).trans List.mapM_pure

/-- What is found stands in the order of what was looked up. -/
theorem forall₂_of_mapM {β γ : Type} {f : β → Option γ} : ∀ {xs : List β} {ys : List γ},
    xs.mapM f = some ys → List.Forall₂ (fun x y => f x = some y) xs ys
  | [], ys, h => by
    cases h
    exact .nil
  | x :: xs, ys, h => by
    rw [List.mapM_cons] at h
    obtain ⟨y, hy, h⟩ := Option.bind_eq_some_iff.mp h
    obtain ⟨zs, hzs, h⟩ := Option.bind_eq_some_iff.mp h
    cases h
    exact .cons hy (forall₂_of_mapM hzs)

theorem exists_of_mem_right {β γ : Type} {R : β → γ → Prop} : ∀ {xs : List β} {ys : List γ},
    List.Forall₂ R xs ys → ∀ y ∈ ys, ∃ x ∈ xs, R x y
  | _, _, .nil, _, hy => absurd hy List.not_mem_nil
  | x :: _, _, .cons hr hs, y, hy => by
    rcases List.mem_cons.mp hy with rfl | hy
    · exact ⟨x, List.mem_cons_self, hr⟩
    · obtain ⟨x', hx', h⟩ := exists_of_mem_right hs y hy
      exact ⟨x', List.mem_cons_of_mem x hx', h⟩

theorem exists_of_getElem?_right {β γ : Type} {R : β → γ → Prop} : ∀ {xs : List β} {ys : List γ}
    {k : Nat}, List.Forall₂ R xs ys → ∀ y, ys[k]? = some y → ∃ x, xs[k]? = some x ∧ R x y
  | [], _, _, .nil, _, hy => nomatch hy
  | x :: _, _, 0, .cons hr _, _, rfl => ⟨x, rfl, hr⟩
  | _ :: _, _, _ + 1, .cons _ hs, y, hy => exists_of_getElem?_right hs y hy

theorem exists_of_mem_left {β γ : Type} {R : β → γ → Prop} {xs : List β} {ys : List γ}
    (h : List.Forall₂ R xs ys) : ∀ x ∈ xs, ∃ y ∈ ys, R x y :=
  exists_of_mem_right h.flip

/-- What is found is a map if each lookup that succeeds gives the same as a function. -/
theorem eq_map_of_mapM {β γ : Type} {f : β → Option γ} {g : β → γ} {xs : List β} {ys : List γ}
    (found : xs.mapM f = some ys) (h : ∀ x ∈ xs, ∀ y, f x = some y → y = g x) : ys = xs.map g := by
  have all := mapM_eq_map (f := f) (g := g) fun x hx => by
    obtain ⟨y, -, hy⟩ := exists_of_mem_left (forall₂_of_mapM found) x hx
    rw [hy, h x hx y hy]
  exact Option.some.inj (found.symm.trans all)

namespace Table

variable {α : Type} {t u : Table α} {m n : Nat} {c d : Cell} {f : α → α}

/-- A well-formed table with `m` rows and `n` columns. -/
structure Fits (t : Table α) (m n : Nat) : Prop where
  wellFormed : t.WellFormed
  rows_eq : t.rows = m
  cols_eq : t.cols = n

theorem mem_cells : c ∈ t.cells ↔ c.row < t.rows ∧ c.col < t.cols := Cell.mem_grid

theorem WellFormed.size_eq (h : t.WellFormed) : t.data.size = t.rows * t.cols := h

theorem Fits.cells_eq (h : t.Fits m n) : t.cells = Cell.grid m n := by
  rw [cells, h.rows_eq, h.cols_eq]

/-! ## Lookups and changes -/

theorem exists_get? (h : t.WellFormed) (hc : c ∈ t.cells) : ∃ x, t.get? c = some x :=
  Option.isSome_iff_exists.mp (isSome_get? h (mem_cells.mp hc).1 (mem_cells.mp hc).2)

theorem exists_modify? (h : t.WellFormed) (hc : c ∈ t.cells) (f : α → α) :
    ∃ u, t.modify? c f = some u :=
  Option.isSome_iff_exists.mp
    (modify?_isSome_iff.mpr (position_lt h (mem_cells.mp hc).1 (mem_cells.mp hc).2))

theorem cells_of_modify? (h : t.modify? c f = some u) : u.cells = t.cells := by
  obtain ⟨hr, hc, -⟩ := rows_of_modify? h
  rw [cells, cells, hr, hc]

theorem fits_fill (m n : Nat) (x : α) : (fill m n x).Fits m n :=
  ⟨wellFormed_fill m n x, rfl, rfl⟩

theorem Fits.exists_get? (h : t.Fits m n) (hc : c ∈ Cell.grid m n) : ∃ x, t.get? c = some x :=
  Table.exists_get? h.wellFormed (h.cells_eq ▸ hc)

/-- One entry changes and the others stay. -/
theorem get?_modify? (h : t.modify? c f = some u) (hc : c ∈ t.cells) (hd : d ∈ t.cells) :
    u.get? d = if d = c then (t.get? c).map f else t.get? d := by
  split
  · next e =>
    subst e
    exact get?_modify?_self h
  · next e =>
    refine get?_modify?_of_ne h fun hp => e ?_
    exact position_inj (mem_cells.mp hd).2 (mem_cells.mp hc).2 hp

theorem Fits.exists_modify? (h : t.Fits m n) (hc : c ∈ Cell.grid m n) (f : α → α) :
    ∃ u, t.modify? c f = some u ∧ u.Fits m n ∧ ∀ d ∈ Cell.grid m n,
      u.get? d = if d = c then (t.get? c).map f else t.get? d := by
  have hc' : c ∈ t.cells := h.cells_eq ▸ hc
  obtain ⟨u, e⟩ := Table.exists_modify? h.wellFormed hc' f
  obtain ⟨hr, hcols, -⟩ := rows_of_modify? e
  exact ⟨u, e, ⟨h.wellFormed.modify? e, hr.trans h.rows_eq, hcols.trans h.cols_eq⟩,
    fun d hd => get?_modify? e hc' (h.cells_eq ▸ hd)⟩

/-- Two well-formed tables of one shape with the same entries are the same. -/
theorem ext_get? (ht : t.WellFormed) (hu : u.WellFormed) (hr : u.rows = t.rows)
    (hc : u.cols = t.cols) (h : ∀ c ∈ t.cells, u.get? c = t.get? c) : u = t := by
  obtain ⟨m, n, xs⟩ := t
  obtain ⟨m', n', ys⟩ := u
  cases hr
  cases hc
  have size : ys.size = xs.size := hu.trans ht.symm
  refine congrArg (Table.mk m n) (Array.ext size fun k hk hk' => ?_)
  have hn : 0 < n := by
    rcases Nat.eq_zero_or_pos n with rfl | hn
    · rw [ht.size_eq, Nat.mul_zero] at hk'
      exact absurd hk' (Nat.not_lt_zero k)
    · exact hn
  have hcell : (Table.mk m n xs).cellAt k ∈ (Table.mk m n xs).cells := by
    rw [ht.size_eq] at hk'
    exact mem_cells.mpr ⟨Nat.div_lt_of_lt_mul (by rwa [Nat.mul_comm]), Nat.mod_lt k hn⟩
  have e := h _ hcell
  have pos : (Table.mk m n xs).position ((Table.mk m n xs).cellAt k) = k := position_cellAt _ k
  have pos' : (Table.mk m n ys).position ((Table.mk m n xs).cellAt k) = k := position_cellAt _ k
  rw [get?, get?, pos, pos', Array.getElem?_eq_getElem hk, Array.getElem?_eq_getElem hk'] at e
  exact Option.some.inj e

/-! ## Cells in the order of the buffer -/

theorem mem_cellsWhere (h : t.WellFormed) {q : α → Bool} :
    c ∈ t.cellsWhere q ↔ c ∈ t.cells ∧ ∃ x, t.get? c = some x ∧ q x = true := by
  unfold cellsWhere
  rw [List.mem_map]
  constructor
  · rintro ⟨⟨x, k⟩, hm, rfl⟩
    obtain ⟨hm, hq⟩ := List.mem_filter.mp hm
    have hx : t.data[k]? = some x := by
      simpa using List.mem_zipIdx_iff_getElem?.mp hm
    have hk : k < t.rows * t.cols := by
      rw [← h.size_eq]
      exact (Array.getElem?_eq_some_iff.mp hx).1
    have hn : 0 < t.cols := Nat.pos_of_mul_pos_left (Nat.zero_lt_of_lt hk)
    refine ⟨mem_cells.mpr ⟨Nat.div_lt_of_lt_mul (by rwa [Nat.mul_comm]), Nat.mod_lt k hn⟩, x, ?_, hq⟩
    rwa [get?, position_cellAt]
  · rintro ⟨hc, x, hx, hq⟩
    refine ⟨(x, t.position c), List.mem_filter.mpr ⟨?_, hq⟩, cellAt_position (mem_cells.mp hc).2⟩
    exact List.mem_zipIdx_iff_getElem?.mpr (by simpa [get?] using hx)

theorem pairwise_cellsWhere (t : Table α) (q : α → Bool) :
    (t.cellsWhere q).Pairwise fun a b => t.position a < t.position b := by
  have ordered : t.data.toList.zipIdx.Pairwise fun a b => a.2 < b.2 := by
    have := List.pairwise_lt_range' (s := 0) (n := t.data.toList.length)
    rw [← List.zipIdx_map_snd 0 t.data.toList, List.pairwise_map] at this
    exact this
  unfold cellsWhere
  rw [List.pairwise_map]
  simp only [position_cellAt]
  exact ordered.filter _

theorem nodup_cellsWhere (t : Table α) (q : α → Bool) : (t.cellsWhere q).Nodup := by
  refine (t.pairwise_cellsWhere q).imp fun {a b} hlt => ?_
  rintro rfl
  exact Nat.lt_irrefl _ hlt

theorem length_cellsWhere (t : Table α) (q : α → Bool) :
    (t.cellsWhere q).length = t.data.toList.countP q := by
  unfold cellsWhere
  rw [List.length_map, ← List.countP_eq_length_filter]
  have := List.countP_map (p := q) (f := Prod.fst) (l := t.data.toList.zipIdx)
  rw [List.zipIdx_map_fst] at this
  rw [this]
  rfl

/-! ## Tables from rows -/

theorem length_flatten_of_forall {rows : List (List α)} (h : ∀ row ∈ rows, row.length = n) :
    rows.flatten.length = rows.length * n := by
  rw [List.length_flatten, List.map_congr_left h, List.map_const', List.sum_replicate_nat]

/-- In rows of one length, the entry of a cell stands at its position. -/
theorem getElem?_flatten_of_forall {rows : List (List α)} (h : ∀ row ∈ rows, row.length = n)
    {i j : Nat} (hj : j < n) : rows.flatten[i * n + j]? = rows[i]?.bind (·[j]?) := by
  induction rows generalizing i with
  | nil => simp
  | cons row rows ih =>
    have hlen := h row List.mem_cons_self
    rw [List.flatten_cons]
    cases i with
    | zero =>
      rw [Nat.zero_mul, Nat.zero_add, List.getElem?_append_left (by omega)]
      rfl
    | succ i =>
      rw [List.getElem?_append_right (by rw [hlen, Nat.succ_mul]; omega), hlen,
        show (i + 1) * n + j - n = i * n + j by rw [Nat.succ_mul]; omega,
        ih fun row' hrow => h row' (List.mem_cons_of_mem row hrow)]
      rfl

/-- A table whose buffer holds rows of one length has their entries. -/
theorem fits_of_flatten {rows : List (List α)} (h : ∀ row ∈ rows, row.length = n)
    (hr : t.rows = rows.length) (hc : t.cols = n) (data : t.data.toList = rows.flatten) :
    t.Fits rows.length n ∧ ∀ i j, j < n → t.get? ⟨i, j⟩ = rows[i]?.bind (·[j]?) := by
  refine ⟨⟨?_, hr, hc⟩, fun i j hj => ?_⟩
  · rw [WellFormed, ← Array.length_toList, data, length_flatten_of_forall h, hr, hc]
  · rw [get?, ← Array.getElem?_toList, data, position, hc, getElem?_flatten_of_forall h hj]

/-- Rows of one length make a table with their entries. -/
theorem exists_ofRows? {rows : List (List α)} (hpos : 0 < rows.length)
    (h : ∀ row ∈ rows, row.length = n) : ∃ t, ofRows? rows = some t ∧ t.Fits rows.length n ∧
      ∀ i j, j < n → t.get? ⟨i, j⟩ = rows[i]?.bind (·[j]?) := by
  have cols : (rows.head?.map List.length).getD 0 = n := by
    cases rows with
    | nil => cases hpos
    | cons row rows => exact h row List.mem_cons_self
  refine ⟨⟨rows.length, n, rows.flatten.toArray⟩, ?_, fits_of_flatten h rfl rfl rfl⟩
  unfold ofRows?
  simp only [cols]
  exact if_pos (List.all_eq_true.mpr fun row hrow => beq_iff_eq.mpr (h row hrow))

theorem Fits.appendRow (h : t.Fits m n) (x : α) : (t.appendRow x).Fits (m + 1) n where
  wellFormed := h.wellFormed.appendRow x
  rows_eq := congrArg (· + 1) h.rows_eq
  cols_eq := h.cols_eq

theorem Fits.get?_appendRow (h : t.Fits m n) (x : α) (hc : c.row < m + 1) (hcol : c.col < n) :
    (t.appendRow x).get? c = if c.row = m then some x else t.get? c := by
  have size : t.data.size = m * n := by rw [h.wellFormed.size_eq, h.rows_eq, h.cols_eq]
  rw [get?, get?, Table.appendRow, position, position, h.cols_eq]
  split
  · next e =>
    rw [e, Array.getElem?_append_right (by omega), size, Nat.add_sub_cancel_left,
      Array.getElem?_replicate, if_pos hcol]
  · next e =>
    have : (c.row + 1) * n ≤ m * n := Nat.mul_le_mul_right n (by omega)
    rw [Nat.succ_mul] at this
    rw [Array.getElem?_append_left (by omega)]

/-! ## Entries -/

section Scalars

variable [Scalar α] {costs : Table α}

theorem Fits.get?_eq (h : t.Fits m n) (hc : c ∈ Cell.grid m n) : t.get? c = some (t.entry c) := by
  obtain ⟨x, hx⟩ := h.exists_get? hc
  rw [entry, hx]
  rfl

/-- The cells in use are those that hold more than the tolerance. -/
theorem Fits.mem_loaded (h : t.Fits m n) {tol : α} :
    c ∈ t.loaded tol ↔ c ∈ Cell.grid m n ∧ tol < t.entry c := by
  rw [loaded, mem_cellsWhere h.wellFormed, h.cells_eq]
  refine and_congr_right fun hc => ?_
  rw [h.get?_eq hc]
  simp

/-- The cost of quantities is the sum of the products with their unit costs. -/
theorem Fits.cost?_eq (h : t.Fits m n) (hc : costs.Fits m n) : t.cost? costs =
    some ((Cell.grid m n).foldl (fun total c => total + t.entry c * costs.entry c) 0) := by
  have acc : ∀ (cs : List Cell) (total : α), (∀ c ∈ cs, c ∈ Cell.grid m n) →
      cs.foldlM (fun total c => do
        let q ← t.get? c
        let unit ← costs.get? c
        pure (total + q * unit)) total =
      some (cs.foldl (fun total c => total + t.entry c * costs.entry c) total) := by
    intro cs
    induction cs with
    | nil => exact fun _ _ => rfl
    | cons c cs ih =>
      intro total hs
      have hg := hs c List.mem_cons_self
      rw [List.foldlM_cons, h.get?_eq hg, hc.get?_eq hg, List.foldl_cons]
      exact ih _ fun d hd => hs d (List.mem_cons_of_mem c hd)
  rw [cost?, h.cells_eq]
  exact acc _ _ fun c hc => hc

theorem Fits.row?_eq (h : t.Fits m n) {i : Nat} (hi : i < m) :
    t.row? i = some ((List.range n).map fun j => t.entry ⟨i, j⟩) := by
  have bound : (i + 1) * n ≤ t.data.size := by
    rw [h.wellFormed.size_eq, h.rows_eq, h.cols_eq]
    exact Nat.mul_le_mul_right n hi
  unfold row?
  rw [h.cols_eq, if_pos bound]
  refine congrArg some (List.ext_getElem ?_ fun j hj hj' => ?_)
  · rw [Array.length_toList, Array.size_extract, Nat.min_eq_left bound, Nat.succ_mul,
      Nat.add_sub_cancel_left, List.length_map, List.length_range]
  · have hjn : j < n := by simpa using hj'
    have get := h.get?_eq (c := ⟨i, j⟩) (Cell.mem_grid.mpr ⟨hi, hjn⟩)
    rw [get?, position, h.cols_eq] at get
    rw [Array.getElem_toList, Array.getElem_extract, List.getElem_map, List.getElem_range]
    exact (Array.getElem?_eq_some_iff.mp get).2

theorem Fits.toRows_eq (h : t.Fits m n) :
    t.toRows = (List.range m).map fun i => (List.range n).map fun j => t.entry ⟨i, j⟩ := by
  rw [toRows, h.rows_eq]
  refine List.map_congr_left fun i hi => ?_
  have e := h.row?_eq (List.mem_range.mp hi)
  unfold row? at e
  split at e
  · exact Option.some.inj e
  · cases e

/-- The buffer lists the entries of the rectangle. -/
theorem Fits.toList_eq (h : t.Fits m n) : t.data.toList = (Cell.grid m n).map t.entry := by
  have lengths : ∀ row ∈ (List.range m).map fun i => (List.range n).map fun j => t.entry ⟨i, j⟩,
      row.length = n := List.forall_mem_map.mpr fun i _ => by simp
  have flat : (Cell.grid m n).map t.entry =
      ((List.range m).map fun i => (List.range n).map fun j => t.entry ⟨i, j⟩).flatten := by
    rw [Cell.grid, List.map_flatMap, List.flatMap_def]
    simp only [List.map_map, Function.comp_def]
  obtain ⟨fits, read⟩ := fits_of_flatten (t := ⟨m, n, ((Cell.grid m n).map t.entry).toArray⟩) lengths
    (by simp) rfl flat
  have same : (⟨m, n, ((Cell.grid m n).map t.entry).toArray⟩ : Table α) = t := by
    refine ext_get? h.wellFormed fits.wellFormed h.rows_eq.symm h.cols_eq.symm fun c hc => ?_
    rw [h.cells_eq] at hc
    obtain ⟨hr, hcol⟩ := Cell.mem_grid.mp hc
    rw [h.get?_eq hc, read c.row c.col hcol, List.getElem?_map, List.getElem?_range hr]
    simp [List.getElem?_range hcol]
  exact congrArg (fun u => u.data.toList) same.symm

/-- One more column. -/
theorem Fits.appendColumn (h : t.Fits m n) (x : α) : (t.appendColumn x).Fits m (n + 1) ∧
    ∀ c : Cell, c.row < m → c.col < n + 1 →
      (t.appendColumn x).get? c = if c.col = n then some x else t.get? c := by
  have rows : (t.toRows.map fun r => r ++ [x]) =
      (List.range m).map fun i => ((List.range n).map fun j => t.entry ⟨i, j⟩) ++ [x] := by
    rw [h.toRows_eq, List.map_map]
    rfl
  have lengths : ∀ row ∈ t.toRows.map fun r => r ++ [x], row.length = n + 1 := by
    rw [rows]
    exact List.forall_mem_map.mpr fun i _ => by simp
  obtain ⟨fits, read⟩ := fits_of_flatten (t := t.appendColumn x) lengths
    (by simp [Table.appendColumn, toRows]) (congrArg (· + 1) h.cols_eq)
    (by rw [Table.appendColumn, List.flatMap_def])
  rw [rows, List.length_map, List.length_range] at fits
  refine ⟨fits, fun c hr hcol => ?_⟩
  rw [read c.row c.col hcol, rows, List.getElem?_map, List.getElem?_range hr]
  simp only [Option.map_some, Option.bind_some]
  split
  · next e => simp [e]
  · next e =>
    have hc : c.col < n := by omega
    rw [List.getElem?_append_left (by simpa using hc), List.getElem?_map, List.getElem?_range hc,
      h.get?_eq (Cell.mem_grid.mpr ⟨hr, hc⟩)]
    rfl

theorem Fits.column?_eq (h : t.Fits m n) {j : Nat} (hj : j < n) :
    t.column? j = some ((List.range m).map fun i => t.entry ⟨i, j⟩) := by
  rw [column?, h.rows_eq]
  exact mapM_eq_map fun i hi => h.get?_eq (Cell.mem_grid.mpr ⟨List.mem_range.mp hi, hj⟩)

theorem Fits.rowSum?_eq (h : t.Fits m n) {i : Nat} (hi : i < m) :
    t.rowSum? i = some (Scalar.sum ((List.range n).map fun j => t.entry ⟨i, j⟩)) := by
  rw [rowSum?, h.row?_eq hi]
  rfl

theorem Fits.columnSum?_eq (h : t.Fits m n) {j : Nat} (hj : j < n) :
    t.columnSum? j = some (Scalar.sum ((List.range m).map fun i => t.entry ⟨i, j⟩)) := by
  rw [columnSum?, h.column?_eq hj]
  rfl

theorem Fits.exists_cost? (h : t.Fits m n) (hc : costs.Fits m n) :
    ∃ cost, t.cost? costs = some cost := ⟨_, h.cost?_eq hc⟩

end Scalars

end Table

namespace Cell

/-- Without lines on both sides there are no cells. -/
theorem grid_eq_nil {rows cols : Nat} (h : ¬ (0 < rows ∧ 0 < cols)) : grid rows cols = [] :=
  List.eq_nil_iff_forall_not_mem.mpr fun _ hc =>
    h ⟨Nat.zero_lt_of_lt (mem_grid.mp hc).1, Nat.zero_lt_of_lt (mem_grid.mp hc).2⟩

/-! ## Row-major order -/

theorem before_iff {a b : Cell} :
    a.before b = true ↔ a.row < b.row ∨ a.row = b.row ∧ a.col < b.col := by
  simp [before]

theorem before_trans {a b c : Cell} (h : a.before b = true) (h' : b.before c = true) :
    a.before c = true := by
  rw [before_iff] at h h' ⊢
  omega

theorem eq_or_before {a b : Cell} (h : ¬ a.before b = true) : a = b ∨ b.before a = true := by
  rw [before_iff] at h ⊢
  by_cases e : a.row = b.row ∧ a.col = b.col
  · exact .inl (congrArg₂ Cell.mk e.1 e.2)
  · exact .inr (by omega)

theorem not_before_self (a : Cell) : ¬ a.before a = true := by
  rw [before_iff]
  omega

/-- Ascending rows and columns cross in cells in row-major order. -/
theorem pairwise_cross {rows cols : List Nat} (hr : rows.Pairwise (· < ·)) (hc : cols.Pairwise (· < ·)) :
    (rows.flatMap fun i => cols.map fun j => (⟨i, j⟩ : Cell)).Pairwise
      fun a b => a.before b = true := by
  refine List.pairwise_flatMap.mpr ⟨fun i _ => ?_, ?_⟩
  · refine List.pairwise_map.mpr (hc.imp fun {j j'} lt => ?_)
    exact before_iff.mpr (.inr ⟨rfl, lt⟩)
  · refine hr.imp fun {i i'} lt c hc c' hc' => ?_
    obtain ⟨j, -, rfl⟩ := List.mem_map.mp hc
    obtain ⟨j', -, rfl⟩ := List.mem_map.mp hc'
    exact before_iff.mpr (.inl lt)

theorem pairwise_grid (rows cols : Nat) : (grid rows cols).Pairwise fun a b => a.before b = true :=
  pairwise_cross List.pairwise_lt_range List.pairwise_lt_range

theorem nodup_grid (rows cols : Nat) : (grid rows cols).Nodup := by
  refine (pairwise_grid rows cols).imp fun {a b} before => ?_
  rintro rfl
  exact not_before_self a before

/-- In a list in row-major order the cells before one of them are those that stand before it. -/
theorem filter_before {cs ds : List Cell} {c : Cell}
    (h : (cs ++ c :: ds).Pairwise fun a b => a.before b = true) :
    (cs ++ c :: ds).filter (·.before c) = cs := by
  obtain ⟨-, tail, across⟩ := List.pairwise_append.mp h
  have left : cs.filter (·.before c) = cs :=
    List.filter_eq_self.mpr fun d hd => across d hd c List.mem_cons_self
  have right : (c :: ds).filter (·.before c) = [] := by
    apply List.filter_eq_nil_iff.mpr
    intro d hd
    rcases List.mem_cons.mp hd with rfl | hd
    · exact not_before_self d
    · intro back
      exact not_before_self c (before_trans ((List.pairwise_cons.mp tail).1 d hd) back)
  rw [List.filter_append, left, right, List.append_nil]

end Cell

namespace Table

variable {α : Type} {t : Table α}

/-- Within the columns, the order of positions is row-major. -/
theorem before_of_position_lt {c d : Cell} (hd : d.col < t.cols)
    (h : t.position c < t.position d) : c.before d = true := by
  unfold position at h
  rw [Cell.before_iff]
  rcases Nat.lt_trichotomy c.row d.row with lt | eq | gt
  · exact .inl lt
  · rw [eq] at h
    exact .inr ⟨eq, by omega⟩
  · have next : (d.row + 1) * t.cols ≤ c.row * t.cols := Nat.mul_le_mul_right _ gt
    rw [Nat.succ_mul] at next
    omega

/-- The cells whose entries pass a test come in row-major order. -/
theorem Fits.pairwise_before {m n : Nat} (h : t.Fits m n) (q : α → Bool) :
    (t.cellsWhere q).Pairwise fun a b => a.before b = true := by
  refine (t.pairwise_cellsWhere q).imp_of_mem fun {c d} _ hd before => ?_
  exact before_of_position_lt (mem_cells.mp ((mem_cellsWhere h.wellFormed).mp hd).1).2 before

end Table

end Freight
