import Freight.Proofs.Basis
import Freight.Proofs.Partition

/-!
# Filling a forest up to a tree

A partition of the lines *tracks* a set of cells if two lines are in one class exactly when the
cells connect them, and if each cell has cost one root (`Basis.Tracks`). Joining along a cell keeps
track of it (`Tracks.join_of_apart`) unless its lines were connected, and then changes nothing
(`Tracks.join_of_connected`). Counting roots tells forests from trees: cells without a cycle are at
most `m + n - 1`, and they connect all lines exactly when they are that many
(`Tracks.length_eq_iff`), so the check that does the counting is right (`Fits.isSpanningTree_iff`). What
one cell does to a basis that is filled up is said once (`Fits.fill_cons`).

A cell closes a cycle with the cells before it only if there is a cycle
(`Acyclic.not_connected_before`); the cell for which joining stops is the first such cell in row-major
order (`Fits.closesFirst_of_components`, `Fits.closesCycle_of_components`).

Main statements: `Basis.repair` succeeds exactly on forests (`Fits.repair_isOk_iff`), and what it
returns is a spanning tree over the old cells (`Fits.of_repair`, `Fits.exists_repair`); on a tree it
does nothing (`Fits.repair_of_isTree`).
-/

namespace Freight

/-! ## Lines as numbers -/

namespace Line

variable {m n : Nat} {k l : Line}

theorem Within.index_lt (h : k.Within m n) : k.index m < m + n := by
  cases k with
  | row i =>
    have : i < m := h
    simp only [index]
    omega
  | column j =>
    have : j < n := h
    simp only [index]
    omega

theorem index_inj (hk : k.Within m n) (hl : l.Within m n) (e : k.index m = l.index m) : k = l := by
  cases k with
  | row i =>
    cases l with
    | row i' => exact congrArg row e
    | column j =>
      have : i < m := hk
      simp only [index] at e
      omega
  | column j =>
    cases l with
    | row i =>
      have : i < m := hl
      simp only [index] at e
      omega
    | column j' =>
      simp only [index] at e
      exact congrArg column (by omega)

/-- Each number below the number of lines is the index of a line. -/
theorem exists_index {x : Nat} (hx : x < m + n) : ∃ l : Line, l.Within m n ∧ l.index m = x := by
  by_cases h : x < m
  · exact ⟨row x, h, rfl⟩
  · exact ⟨column (x - m), show x - m < n by omega, show m + (x - m) = x by omega⟩

theorem row_within {c : Cell} (hc : c ∈ Cell.grid m n) : (row c.row).Within m n :=
  (Cell.mem_grid.mp hc).1

theorem column_within {c : Cell} (hc : c ∈ Cell.grid m n) : (column c.col).Within m n :=
  (Cell.mem_grid.mp hc).2

end Line

/-! ## Cells before others -/

/-- A cell of a list closes a cycle with the cells before it in row-major order, while these close
none. -/
structure ClosesFirst (cs : List Cell) (c : Cell) : Prop where
  mem : c ∈ cs
  acyclic : Acyclic (cs.filter (·.before c))
  connected : Line.Connected (cs.filter (·.before c)) (.row c.row) (.column c.col)

/-- In a forest no cell has its lines connected by the cells before it. -/
theorem Acyclic.not_connected_before {cs : List Cell} {c : Cell} (h : Acyclic cs)
    (hc : c ∈ cs) :
    ¬ Line.Connected (cs.filter (·.before c)) (.row c.row) (.column c.col) := by
  intro hcon
  apply h.apart hc
  apply hcon.mono
  intro d hd
  obtain ⟨hd, before⟩ := List.mem_filter.mp hd
  have ne : d ≠ c := by
    rintro rfl
    exact Cell.not_before_self d before
  exact List.mem_filter.mpr ⟨hd, by simpa using ne⟩

namespace ClosesFirst

variable {cs ds : List Cell} {c : Cell}

theorem congr (h : ClosesFirst cs c) (same : ∀ d, d ∈ cs ↔ d ∈ ds) : ClosesFirst ds c := by
  have before : ∀ d, d ∈ cs.filter (·.before c) ↔ d ∈ ds.filter (·.before c) := by
    intro d
    rw [List.mem_filter, List.mem_filter, same]
  exact ⟨(same c).mp h.mem, h.acyclic.mono fun d => (before d).mpr,
    h.connected.mono fun d => (before d).mp⟩

theorem not_acyclic (h : ClosesFirst cs c) : ¬ Acyclic cs :=
  fun acyclic => acyclic.not_connected_before h.mem h.connected

/-- The cell makes the difference. -/
theorem not_acyclic_cons (h : ClosesFirst cs c) : ¬ Acyclic (c :: cs.filter (·.before c)) := by
  have new : c ∉ cs.filter (·.before c) := fun hm =>
    Cell.not_before_self c (List.mem_filter.mp hm).2
  exact fun acyclic => ((acyclic_cons new).mp acyclic).2 h.connected

end ClosesFirst

namespace Basis

variable {b b' : Basis} {p q : Partition} {m n : Nat} {c d : Cell} {cs ds : List Cell}

/-! ## Partitions that keep track of cells -/

/-- The classes of the partition are the lines that the cells connect, and each cell has cost one
root. -/
def Tracks (p : Partition) (m n : Nat) (cs : List Cell) : Prop :=
  ∃ rep, p.Represents (m + n) rep ∧
    (∀ k l : Line, k.Within m n → l.Within m n →
      (rep (k.index m) = rep (l.index m) ↔ Line.Connected cs k l)) ∧
    (Partition.roots rep (m + n)).card + cs.length = m + n

theorem tracks_discrete (m n : Nat) : Tracks (.discrete (m + n)) m n [] := by
  refine ⟨id, Partition.represents_discrete _, fun k l hk hl => ?_, ?_⟩
  · rw [Line.connected_nil]
    exact ⟨Line.index_inj hk hl, fun e => e ▸ rfl⟩
  · rw [Partition.card_roots_id]
    rfl

namespace Tracks

/-- Only the set of cells and their number matter. -/
theorem congr (h : Tracks p m n cs) (hs : ∀ c, c ∈ cs ↔ c ∈ ds) (hl : cs.length = ds.length) :
    Tracks p m n ds := by
  obtain ⟨rep, hrep, hcon, hcard⟩ := h
  refine ⟨rep, hrep, fun k l hk hl => ?_, hl ▸ hcard⟩
  rw [hcon k l hk hl]
  exact ⟨fun h => h.mono fun c => (hs c).mp, fun h => h.mono fun c => (hs c).mpr⟩

theorem join_of_connected (h : Tracks p m n cs) (hb : b.rows = m) (hc : c ∈ Cell.grid m n)
    (hcon : Line.Connected cs (.row c.row) (.column c.col)) :
    (b.join p c).1 = false ∧ Tracks (b.join p c).2 m n cs := by
  obtain ⟨rep, hrep, hiff, hcard⟩ := h
  have e := (hiff _ _ (Line.row_within hc) (Line.column_within hc)).mpr hcon
  obtain ⟨hf, hrep'⟩ := hrep.union_of_eq (Line.row_within hc).index_lt
    (Line.column_within hc).index_lt e
  unfold join
  rw [hb]
  exact ⟨hf, rep, hrep', hiff, hcard⟩

theorem join_of_apart (h : Tracks p m n cs) (hb : b.rows = m) (hc : c ∈ Cell.grid m n)
    (hcon : ¬ Line.Connected cs (.row c.row) (.column c.col)) :
    (b.join p c).1 = true ∧ Tracks (b.join p c).2 m n (c :: cs) := by
  obtain ⟨rep, hrep, hiff, hcard⟩ := h
  have hr := Line.row_within hc
  have hcol := Line.column_within hc
  have ne : rep ((Line.row c.row).index m) ≠ rep ((Line.column c.col).index m) :=
    fun e => hcon ((hiff _ _ hr hcol).mp e)
  obtain ⟨ht, hrep'⟩ := hrep.union_of_ne hr.index_lt hcol.index_lt ne
  unfold join
  rw [hb]
  refine ⟨ht, _, hrep', fun k l hk hl => ?_, ?_⟩
  · rw [Line.connected_cons, ← hiff k l hk hl, ← hiff k _ hk hr, ← hiff _ l hcol hl,
      ← hiff k _ hk hcol, ← hiff _ l hr hl]
    unfold Partition.merge
    split <;> split <;> grind
  · rw [List.length_cons]
    have := hrep.card_roots_merge hr.index_lt hcol.index_lt ne
    omega

/-- Cells that a partition tracks are fewer than the lines. -/
theorem length_lt (h : Tracks p m n cs) (hpos : 0 < m + n) : cs.length + 1 ≤ m + n := by
  obtain ⟨rep, hrep, -, hcard⟩ := h
  have := hrep.card_roots_pos hpos
  omega

/-- Cells that a partition tracks connect all lines exactly when they are as many as a tree has. -/
theorem length_eq_iff (h : Tracks p m n cs) (hpos : 0 < m + n) : cs.length + 1 = m + n ↔
    ∀ k l : Line, k.Within m n → l.Within m n → Line.Connected cs k l := by
  obtain ⟨rep, hrep, hiff, hcard⟩ := h
  have one := hrep.card_roots_eq_one_iff hpos
  constructor
  · intro hl k l hk hl'
    exact (hiff k l hk hl').mp (one.mp (by omega) _ _ hk.index_lt hl'.index_lt)
  · intro hall
    have := one.mpr fun x y hx hy => by
      obtain ⟨k, hk, rfl⟩ := Line.exists_index hx
      obtain ⟨l, hl, rfl⟩ := Line.exists_index hy
      exact (hiff k l hk hl).mpr (hall k l hk hl)
    omega

end Tracks

/-! ## Joining along a list of cells -/

/-- Joining along cells that close no cycle with those before them succeeds and keeps track of
them all. -/
theorem joinAll_ok (hb : b.rows = m) : ∀ {rest cs : List Cell} {p q : Partition},
    Tracks p m n cs → Acyclic cs → (∀ c ∈ rest, c ∈ Cell.grid m n) → (rest ++ cs).Nodup →
    b.joinAll p rest = .ok q → Tracks q m n (rest.reverse ++ cs) ∧ Acyclic (rest.reverse ++ cs)
  | [], cs, p, q, h, ha, _, _, e => by
    cases e
    exact ⟨h, ha⟩
  | c :: rest, cs, p, q, h, ha, hs, hn, e => by
    have hc := hs c List.mem_cons_self
    have hc' : c ∉ cs := by
      simp only [List.cons_append, List.nodup_cons, List.mem_append, not_or] at hn
      exact hn.1.2
    unfold joinAll at e
    by_cases hcon : Line.Connected cs (.row c.row) (.column c.col)
    · obtain ⟨hf, -⟩ := h.join_of_connected hb hc hcon
      rw [show b.join p c = (false, (b.join p c).2) from Prod.ext hf rfl] at e
      cases e
    · obtain ⟨ht, htr⟩ := h.join_of_apart hb hc hcon
      rw [show b.join p c = (true, (b.join p c).2) from Prod.ext ht rfl] at e
      have hn' : (rest ++ c :: cs).Nodup := List.nodup_middle.mpr hn
      have := joinAll_ok hb htr ((acyclic_cons hc').mpr ⟨ha, hcon⟩)
        (fun d hd => hs d (List.mem_cons_of_mem c hd)) hn' e
      simpa [List.reverse_cons, List.append_assoc] using this

/-- Joining along a list of cells stops at one that closes a cycle with those before it, and these are
joined. -/
theorem joinAll_error (hb : b.rows = m) : ∀ {rest cs : List Cell} {p : Partition},
    Tracks p m n cs → (∀ c ∈ rest, c ∈ Cell.grid m n) → b.joinAll p rest = .error d →
    ∃ before after q, rest = before ++ d :: after ∧ b.joinAll p before = .ok q ∧
      Line.Connected (before.reverse ++ cs) (.row d.row) (.column d.col)
  | [], cs, p, _, _, e => by cases e
  | c :: rest, cs, p, h, hs, e => by
    have hc := hs c List.mem_cons_self
    unfold joinAll at e
    by_cases hcon : Line.Connected cs (.row c.row) (.column c.col)
    · obtain ⟨hf, -⟩ := h.join_of_connected hb hc hcon
      rw [show b.join p c = (false, (b.join p c).2) from Prod.ext hf rfl] at e
      cases e
      exact ⟨[], rest, p, rfl, rfl, hcon⟩
    · obtain ⟨ht, htr⟩ := h.join_of_apart hb hc hcon
      have joined : b.join p c = (true, (b.join p c).2) := Prod.ext ht rfl
      rw [joined] at e
      obtain ⟨before, after, q, rfl, eq, hd⟩ :=
        joinAll_error hb htr (fun d hd => hs d (List.mem_cons_of_mem c hd)) e
      refine ⟨c :: before, after, q, rfl, ?_, ?_⟩
      · rw [joinAll, joined]
        exact eq
      · simpa [List.reverse_cons, List.append_assoc] using hd

namespace Fits

/-- A basis whose components are found has no cycle, and they are tracked. -/
theorem of_components (h : b.Fits m n) (e : b.components = .ok p) :
    Tracks p m n b.cells ∧ Acyclic b.cells := by
  unfold components at e
  rw [h.lines_eq] at e
  have hn : (b.cells ++ []).Nodup := by simpa using b.nodup_cells
  obtain ⟨ht, ha⟩ := joinAll_ok h.rows_eq (tracks_discrete m n) acyclic_nil
    (fun c hc => h.mem_grid hc) hn e
  rw [List.append_nil] at ht ha
  refine ⟨ht.congr (fun c => List.mem_reverse) List.length_reverse, ha.mono fun c hc => ?_⟩
  exact List.mem_reverse.mpr hc

/-- If the components are not found, the cell that is named closes a cycle with those before it, and
these close none. -/
theorem closesFirst_of_components (h : b.Fits m n) (e : b.components = .error c) :
    ClosesFirst b.cells c := by
  unfold components at e
  rw [h.lines_eq] at e
  have tracks := tracks_discrete m n
  have sorted := h.pairwise_cells
  have nodup := b.nodup_cells
  obtain ⟨cs, ds, q, split, joined, connected⟩ :=
    joinAll_error h.rows_eq tracks (fun c hc => h.mem_grid hc) e
  rw [List.append_nil] at connected
  rw [split] at sorted nodup
  have before : b.cells.filter (·.before c) = cs := by rw [split, Cell.filter_before sorted]
  -- The cells before the named one were all joined, so they close no cycle.
  obtain ⟨-, acyclic⟩ := joinAll_ok h.rows_eq tracks acyclic_nil
    (fun d hd => h.mem_grid (split ▸ List.mem_append_left _ hd))
    (by rw [List.append_nil]; exact nodup.of_append_left) joined
  rw [List.append_nil] at acyclic
  refine ⟨split ▸ by simp, ?_, ?_⟩ <;> rw [before]
  · exact acyclic.mono fun d => List.mem_reverse.mpr
  · exact connected.mono fun d => List.mem_reverse.mp

/-- That cell is the first one that closes a cycle with those before it. -/
theorem closesCycle_of_components (h : b.Fits m n) (e : b.components = .error c) :
    b.ClosesCycle c ∧ ∀ d, b.ClosesCycle d → d = c ∨ c.before d = true := by
  obtain ⟨mem, acyclic, connected⟩ := h.closesFirst_of_components e
  refine ⟨⟨mem, connected⟩, fun d hd => ?_⟩
  by_contra other
  obtain ⟨ne, hdc⟩ := not_or.mp other
  have earlier : d.before c = true := (Cell.eq_or_before hdc).resolve_left (Ne.symm ne)
  refine acyclic.not_connected_before (List.mem_filter.mpr ⟨hd.marked, earlier⟩) ?_
  refine hd.connected.mono fun e he => ?_
  obtain ⟨he, hed⟩ := List.mem_filter.mp he
  exact List.mem_filter.mpr ⟨List.mem_filter.mpr ⟨he, Cell.before_trans hed earlier⟩, hed⟩

/-- The components of a basis are found exactly if it has no cycle. -/
theorem components_isOk_iff (h : b.Fits m n) :
    (∃ p, b.components = .ok p) ↔ Acyclic b.cells := by
  constructor
  · rintro ⟨p, e⟩
    exact (h.of_components e).2
  · intro ha
    cases e : b.components with
    | ok p => exact ⟨p, rfl⟩
    | error c =>
      obtain ⟨⟨marked, connected⟩, -⟩ := h.closesCycle_of_components e
      exact absurd connected (ha.not_connected_before marked)

/-! ## Filling up -/

/-- One step of filling up: it stops at the size of a tree, passes over a cell whose lines are connected
and marks any other cell. -/
theorem fill_cons (h : b.Fits m n) (ht : Tracks p m n b.cells) (hc : c ∈ Cell.grid m n)
    (cs : List Cell) :
    (b.treeSize ≤ b.size ∧ b.fill p (c :: cs) = (b, 0)) ∨
      (Line.Connected b.cells (.row c.row) (.column c.col) ∧
        ∃ q, Tracks q m n b.cells ∧ b.fill p (c :: cs) = b.fill q cs) ∨
      (¬ Line.Connected b.cells (.row c.row) (.column c.col) ∧
        ∃ (b₁ : Basis) (q : Partition), b₁.Fits m n ∧
          (∀ d, d ∈ b₁.cells ↔ d = c ∨ d ∈ b.cells) ∧ b₁.size = b.size + 1 ∧
          Tracks q m n b₁.cells ∧
          b.fill p (c :: cs) = ((b₁.fill q cs).1, (b₁.fill q cs).2 + 1)) := by
  rw [Basis.fill]
  split
  · next full => exact .inl ⟨full, rfl⟩
  · split
    · next marked => exact .inr (.inl ⟨.cell ((h.contains_iff hc).mp marked), p, ht, rfl⟩)
    · next vacant =>
      have new : c ∉ b.cells := fun hm => vacant (h.contains_of_mem hm)
      by_cases hcon : Line.Connected b.cells (.row c.row) (.column c.col)
      · obtain ⟨hf, tracks⟩ := ht.join_of_connected h.rows_eq hc hcon
        rw [show b.join p c = (false, (b.join p c).2) from Prod.ext hf rfl]
        exact .inr (.inl ⟨hcon, _, tracks, rfl⟩)
      · obtain ⟨joined, tracks⟩ := ht.join_of_apart h.rows_eq hc hcon
        obtain ⟨b₁, e, hb₁, mem⟩ := h.insert? hc
        rw [show b.join p c = (true, (b.join p c).2) from Prod.ext joined rfl, e]
        have size := h.size_succ hb₁ new mem
        have tracks₁ : Tracks (b.join p c).2 m n b₁.cells := by
          refine tracks.congr (fun d => by rw [List.mem_cons, mem]) ?_
          rw [List.length_cons, h.length_cells, hb₁.length_cells, size]
        exact .inr (.inr ⟨hcon, b₁, _, hb₁, mem, size, tracks₁, rfl⟩)

/-- What filling up along a list of cells leaves: a larger forest, which either has the size of a
tree or connects the lines of each cell of the list. -/
theorem fill (hpos : 0 < m + n) : ∀ (cs : List Cell) {b : Basis} {p : Partition}, b.Fits m n →
    Tracks p m n b.cells → Acyclic b.cells → (∀ c ∈ cs, c ∈ Cell.grid m n) →
    (b.fill p cs).1.Fits m n ∧ (∃ q, Tracks q m n (b.fill p cs).1.cells) ∧
      Acyclic (b.fill p cs).1.cells ∧ (∀ c ∈ b.cells, c ∈ (b.fill p cs).1.cells) ∧
      ((b.fill p cs).1.size + 1 = m + n ∨ ∀ c ∈ cs,
        Line.Connected (b.fill p cs).1.cells (.row c.row) (.column c.col))
  | [], b, p, h, ht, ha, _ =>
    ⟨h, ⟨p, ht⟩, ha, fun c hc => hc, .inr fun c hc => absurd hc List.not_mem_nil⟩
  | c :: cs, b, p, h, ht, ha, hs => by
    have hs' : ∀ d ∈ cs, d ∈ Cell.grid m n := fun d hd => hs d (List.mem_cons_of_mem c hd)
    rcases h.fill_cons ht (hs c List.mem_cons_self) cs with ⟨full, e⟩ | ⟨hcon, q, tracks, e⟩ |
      ⟨hcon, b₁, q, hb₁, mem, -, tracks, e⟩
    · rw [e]
      refine ⟨h, ⟨p, ht⟩, ha, fun c hc => hc, .inl ?_⟩
      rw [h.treeSize_eq, ← h.length_cells] at full
      have := ht.length_lt hpos
      rw [← h.length_cells]
      omega
    · rw [e]
      obtain ⟨h₁, h₂, h₃, h₄, h₅⟩ := fill hpos cs h tracks ha hs'
      refine ⟨h₁, h₂, h₃, h₄, h₅.imp_right fun all d hd => ?_⟩
      rcases List.mem_cons.mp hd with rfl | hd
      · exact hcon.mono h₄
      · exact all d hd
    · rw [e]
      have new : c ∉ b.cells := fun hm => hcon (.cell hm)
      have ha₁ : Acyclic b₁.cells := ((acyclic_cons new).mpr ⟨ha, hcon⟩).mono fun d hd => by
        rwa [List.mem_cons, ← mem]
      obtain ⟨h₁, h₂, h₃, h₄, h₅⟩ := fill hpos cs hb₁ tracks ha₁ hs'
      refine ⟨h₁, h₂, h₃, fun d hd => h₄ d ((mem d).mpr (.inr hd)),
        h₅.imp_right fun all d hd => ?_⟩
      rcases List.mem_cons.mp hd with rfl | hd
      · exact .cell (h₄ d ((mem d).mpr (.inl rfl)))
      · exact all d hd

/-- If the lines of every cell of a tableau are connected, all its lines are. -/
theorem connected_of_grid (hm : 0 < m) (hn : 0 < n)
    (hall : ∀ c ∈ Cell.grid m n, Line.Connected cs (.row c.row) (.column c.col)) :
    ∀ k l : Line, k.Within m n → l.Within m n → Line.Connected cs k l := by
  have corner : ∀ k : Line, k.Within m n → Line.Connected cs (.row 0) k := by
    intro k hk
    cases k with
    | row i =>
      exact (hall ⟨0, 0⟩ (Cell.mem_grid.mpr ⟨hm, hn⟩)).trans
        (hall ⟨i, 0⟩ (Cell.mem_grid.mpr ⟨hk, hn⟩)).symm
    | column j => exact hall ⟨0, j⟩ (Cell.mem_grid.mpr ⟨hm, hk⟩)
  exact fun k l hk hl => (corner k hk).symm.trans (corner l hl)

/-- A spanning tree connects the lines of its tableau. -/
theorem connected (h : b.Fits m n) (ht : b.IsTree) {k l : Line} (hk : k.Within m n)
    (hl : l.Within m n) : Line.Connected b.cells k l := by
  refine ht.connected k l ?_ ?_ <;> rwa [h.rows_eq, h.cols_eq]

/-- A spanning tree has one cell less than there are lines. -/
theorem size_of_isTree (h : b.Fits m n) (hpos : 0 < m + n) (ht : b.IsTree) :
    b.size + 1 = m + n := by
  obtain ⟨p, e⟩ := h.components_isOk_iff.mpr ht.acyclic
  have := ((h.of_components e).1.length_eq_iff hpos).mpr fun _ _ => h.connected ht
  rwa [h.length_cells] at this

/-- The check for a spanning tree, of its size and for cycles, is right. -/
theorem isSpanningTree_iff (h : b.Fits m n) (hpos : 0 < m + n) :
    b.isSpanningTree = true ↔ b.IsTree := by
  unfold isSpanningTree
  rw [Bool.and_eq_true, beq_iff_eq, h.treeSize_eq]
  constructor
  · rintro ⟨size, ok⟩
    cases e : b.components with
    | error c =>
      rw [e] at ok
      cases ok
    | ok p =>
      obtain ⟨tracks, acyclic⟩ := h.of_components e
      refine ⟨acyclic, ?_⟩
      rw [h.rows_eq, h.cols_eq]
      refine (tracks.length_eq_iff hpos).mp ?_
      rw [h.length_cells]
      omega
  · intro ht
    obtain ⟨p, e⟩ := h.components_isOk_iff.mpr ht.acyclic
    have size := h.size_of_isTree hpos ht
    exact ⟨by omega, by rw [e]; rfl⟩

/-- Filling up succeeds exactly on forests. -/
theorem repair_isOk_iff (h : b.Fits m n) :
    (∃ r, b.repair = .ok r) ↔ Acyclic b.cells := by
  rw [← h.components_isOk_iff]
  unfold repair
  cases b.components with
  | ok p => exact ⟨fun _ => ⟨p, rfl⟩, fun _ => ⟨_, rfl⟩⟩
  | error c =>
    constructor
    · rintro ⟨_, e⟩
      cases e
    · rintro ⟨_, e⟩
      cases e

/-- A filled up basis is a spanning tree over the old cells. -/
theorem of_repair (h : b.Fits m n) (hm : 0 < m) (hn : 0 < n) {k : Nat}
    (e : b.repair = .ok (b', k)) :
    b'.Fits m n ∧ b'.IsTree ∧ ∀ c ∈ b.cells, c ∈ b'.cells := by
  unfold repair at e
  cases hp : b.components with
  | error c =>
    rw [hp] at e
    cases e
  | ok p =>
    rw [hp] at e
    obtain ⟨ht, ha⟩ := h.of_components hp
    have hpos : 0 < m + n := by omega
    obtain ⟨h₁, ⟨q, h₂⟩, h₃, h₄, h₅⟩ :=
      fill hpos b.marks.cells h ht ha fun c hc => h.marks_cells ▸ hc
    rw [show b.fill p b.marks.cells = (b', k) from Except.ok.inj e] at h₁ h₂ h₃ h₄ h₅
    refine ⟨h₁, ⟨h₃, ?_⟩, h₄⟩
    rw [h₁.rows_eq, h₁.cols_eq]
    rcases h₅ with full | all
    · exact (h₂.length_eq_iff hpos).mp (by rw [h₁.length_cells, full])
    · exact connected_of_grid hm hn fun c hc => all c (h.marks_cells ▸ hc)

/-- A forest is filled up to a spanning tree over its cells. -/
theorem exists_repair (h : b.Fits m n) (hm : 0 < m) (hn : 0 < n) (acyclic : Acyclic b.cells) :
    ∃ tree added, b.repair = .ok (tree, added) ∧ tree.Fits m n ∧ tree.IsTree ∧
      ∀ c ∈ b.cells, c ∈ tree.cells := by
  obtain ⟨⟨tree, added⟩, e⟩ := h.repair_isOk_iff.mpr acyclic
  exact ⟨tree, added, e, h.of_repair hm hn e⟩

/-- Filling up a spanning tree does nothing. -/
theorem repair_of_isTree (h : b.Fits m n) (hm : 0 < m) (ht : b.IsTree) :
    b.repair = .ok (b, 0) := by
  obtain ⟨p, e⟩ := h.components_isOk_iff.mpr ht.acyclic
  have full : b.treeSize ≤ b.size := by
    have := h.size_of_isTree (by omega) ht
    rw [h.treeSize_eq]
    omega
  unfold repair
  rw [e]
  cases hc : b.marks.cells with
  | nil => rw [Except.map, Basis.fill]
  | cons c cs => rw [Except.map, Basis.fill, if_pos full]

/-- Without cells there is nothing to fill up. -/
theorem repair_of_grid_eq_nil (h : b.Fits m n) (empty : Cell.grid m n = []) :
    b.repair = .ok (b, 0) := by
  have none' : b.cells = [] := List.eq_nil_iff_forall_not_mem.mpr fun c hc =>
    absurd (h.mem_grid hc) (empty ▸ List.not_mem_nil)
  unfold repair components
  rw [none', h.marks_cells, empty]
  rfl

end Fits

end Basis

end Freight
