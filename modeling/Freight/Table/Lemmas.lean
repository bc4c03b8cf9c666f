import Freight.Table

/-!
# Lookups in tables

How many entries a buffer of the right length has (`Table.of_eq_entryCount`), and what each operation on
a table does to the entry of a cell. In a well-formed table every cell of the rectangle has an entry
(`Table.isSome_get?`), different cells have different entries (`Table.position_inj`), and changing one
entry leaves the others alone (`Table.get?_modify?_of_ne`).
-/

namespace Freight

namespace Cell

@[simp] theorem mem_grid {rows cols : Nat} {c : Cell} :
    c ∈ grid rows cols ↔ c.row < rows ∧ c.col < cols := by
  cases c with
  | mk i j => simp [grid, Cell.mk.injEq]

end Cell

namespace Table

variable {α : Type}

/-! ## Positions in the buffer -/

theorem position_lt {t : Table α} (h : t.WellFormed) {c : Cell} (hr : c.row < t.rows)
    (hc : c.col < t.cols) : t.position c < t.data.size := by
  unfold WellFormed at h
  unfold position
  calc c.row * t.cols + c.col < c.row * t.cols + t.cols := Nat.add_lt_add_left hc _
    _ = (c.row + 1) * t.cols := (Nat.succ_mul ..).symm
    _ ≤ t.rows * t.cols := Nat.mul_le_mul_right _ hr
    _ = t.data.size := h.symm

theorem cellAt_position {t : Table α} {c : Cell} (hc : c.col < t.cols) :
    t.cellAt (t.position c) = c := by
  have hpos : 0 < t.cols := Nat.zero_lt_of_lt hc
  unfold cellAt position
  cases c with
  | mk i j =>
    simp only [Cell.mk.injEq]
    constructor
    · rw [Nat.mul_comm, Nat.mul_add_div hpos, Nat.div_eq_of_lt hc, Nat.add_zero]
    · rw [Nat.mul_comm, Nat.mul_add_mod, Nat.mod_eq_of_lt hc]

theorem position_cellAt (t : Table α) (k : Nat) : t.position (t.cellAt k) = k := by
  unfold position cellAt
  rw [Nat.mul_comm]
  exact Nat.div_add_mod k t.cols

/-- Within the columns, different cells stand at different positions. -/
theorem position_inj {t : Table α} {c d : Cell} (hc : c.col < t.cols) (hd : d.col < t.cols)
    (h : t.position c = t.position d) : c = d := by
  rw [← cellAt_position hc, ← cellAt_position hd, h]

/-! ## Counted entries -/

section Count

variable {rows cols length : Nat}

@[simp] theorem entryCount_self : entryCount rows cols (rows * cols) = rows * cols := if_pos rfl

theorem entryCount_of_lt (h : rows * cols < USize.size) :
    entryCount rows cols length = rows * cols := by
  unfold entryCount
  split
  · assumption
  · exact Nat.mod_eq_of_lt h

theorem entryCount_of_dvd (h : USize.size ∣ rows * cols) (ne : length ≠ rows * cols) :
    entryCount rows cols length = 0 := by
  rw [entryCount, if_neg ne, Nat.mod_eq_zero_of_dvd h]

/-- For a buffer whose length a word can hold, the count is a product of words. -/
theorem entryCount_eq_toNat (h : length < USize.size) :
    entryCount rows cols length = (USize.ofNat rows * USize.ofNat cols).toNat := by
  have product : (USize.ofNat rows * USize.ofNat cols).toNat = rows * cols % USize.size := by
    simp [USize.toNat_mul, USize.toNat_ofNat', USize.size]
  rw [product, entryCount]
  split
  · next full => rw [← full, Nat.mod_eq_of_lt h]
  · rfl

/-- A buffer of the counted length has an entry for each cell, unless there are more cells than words
can count. -/
theorem of_eq_entryCount (h : length = entryCount rows cols length) :
    length = rows * cols ∨ length < rows * cols ∧ USize.size ≤ rows * cols := by
  rcases Nat.lt_or_ge (rows * cols) USize.size with small | large
  · exact .inl (h.trans (entryCount_of_lt small))
  · by_cases full : length = rows * cols
    · exact .inl full
    · rw [entryCount, if_neg full] at h
      exact .inr ⟨Nat.lt_of_le_of_ne (h ▸ Nat.mod_le ..) full, large⟩

end Count

/-! ## Lookups -/

theorem isSome_get? {t : Table α} (h : t.WellFormed) {c : Cell} (hr : c.row < t.rows)
    (hc : c.col < t.cols) : (t.get? c).isSome := by
  unfold get?
  rw [Array.getElem?_eq_getElem (position_lt h hr hc)]
  rfl

theorem get?_fill {rows cols : Nat} {x : α} {c : Cell} (hr : c.row < rows) (hc : c.col < cols) :
    (fill rows cols x).get? c = some x := by
  have h : (fill rows cols x).position c < rows * cols := by
    have := position_lt (t := fill rows cols x) (c := c) (by simp [WellFormed, fill]) hr hc
    simpa [fill] using this
  unfold get? fill at *
  simp only [Array.getElem?_replicate]
  exact if_pos h

/-! ## Changed entries -/

theorem modify?_isSome_iff {t : Table α} {c : Cell} {f : α → α} :
    (t.modify? c f).isSome ↔ t.position c < t.data.size := by
  unfold modify?
  split <;> simp_all

theorem rows_of_modify? {t u : Table α} {c : Cell} {f : α → α} (h : t.modify? c f = some u) :
    u.rows = t.rows ∧ u.cols = t.cols ∧ u.data.size = t.data.size := by
  unfold modify? at h
  split at h
  · cases h; simp
  · cases h

theorem get?_modify?_self {t u : Table α} {c : Cell} {f : α → α} (h : t.modify? c f = some u) :
    u.get? c = (t.get? c).map f := by
  unfold modify? at h
  split at h
  · cases h
    simp [get?, position, Array.getElem?_modify]
  · cases h

theorem get?_modify?_of_ne {t u : Table α} {c d : Cell} {f : α → α} (h : t.modify? c f = some u)
    (hd : t.position d ≠ t.position c) : u.get? d = t.get? d := by
  unfold modify? at h
  split at h
  · cases h
    have e : ¬ c.row * t.cols + c.col = d.row * t.cols + d.col := fun e => hd e.symm
    simp [get?, position, Array.getElem?_modify, e]
  · cases h

/-- Two changes of one entry are one. -/
theorem modify?_modify? {t u : Table α} {c : Cell} {f : α → α} (h : t.modify? c f = some u)
    (g : α → α) : u.modify? c g = t.modify? c (g ∘ f) := by
  unfold modify? at h ⊢
  split at h
  · next inside =>
    cases h
    have twice : (t.data.modify (t.position c) f).modify (t.position c) g =
        t.data.modify (t.position c) (g ∘ f) := by
      refine Array.ext (by simp) fun k hk hk' => ?_
      simp only [Array.getElem_modify]
      split <;> rfl
    have inside' : (t.position c) < (t.data.modify (t.position c) f).size := by simpa using inside
    rw [if_pos inside]
    exact (if_pos inside').trans (congrArg (fun data => some (Table.mk t.rows t.cols data)) twice)
  · cases h

/-! ## Well-formed tables -/

@[simp] theorem wellFormed_fill (rows cols : Nat) (x : α) : (fill rows cols x).WellFormed := by
  simp [WellFormed, fill]

theorem WellFormed.modify? {t u : Table α} (ht : t.WellFormed) {c : Cell} {f : α → α}
    (h : t.modify? c f = some u) : u.WellFormed := by
  obtain ⟨hr, hc, hs⟩ := rows_of_modify? h
  unfold WellFormed at *
  rw [hs, hr, hc, ht]

theorem wellFormed_of_ofData? {rows cols : Nat} {xs : List α} {t : Table α}
    (small : rows * cols < USize.size) (h : ofData? rows cols xs = some t) : t.WellFormed := by
  unfold ofData? at h
  split at h
  · next counted =>
    cases h
    simpa [WellFormed] using counted.trans (entryCount_of_lt small)
  · cases h

theorem WellFormed.appendRow {t : Table α} (h : t.WellFormed) (x : α) :
    (t.appendRow x).WellFormed := by
  unfold WellFormed Table.appendRow at *
  simp [h, Nat.succ_mul]

end Table

end Freight
