import Freight.Proofs.Run

/-!
# What the checks establish

A check that passes says that the parts of its data fit together: a problem's supplies, demands and
costs are amounts in a table of the right size (`Problem.Plannable`), and a plan's parts have the
size of its tableau, with finite quantities and basic cells inside (`Plan.Consistent`). A check that
fails blames the input and nothing else: the cause is of the kind that concerns validation
(`Problem.kind_of_check`). Only a plan with more cells than words can count, whose buffers have no
entries for some of them, can bring its check to a position outside a table (`Plan.kind_of_check`).
-/

namespace Freight

/-! ## Sequences of checks -/

section Except

variable {ε β γ : Type} {x : Except ε β} {f : β → Except ε γ} {e : ε}

theorem bind_eq_ok {b : γ} : (x >>= f) = .ok b ↔ ∃ a, x = .ok a ∧ f a = .ok b := by
  cases x <;> simp [bind, Except.bind]

theorem bind_eq_error :
    (x >>= f) = .error e ↔ x = .error e ∨ ∃ a, x = .ok a ∧ f a = .error e := by
  cases x <;> simp [bind, Except.bind]

theorem map_eq_ok {g : β → γ} {c : γ} : x.map g = .ok c ↔ ∃ b, x = .ok b ∧ g b = c := by
  cases x <;> simp [Except.map]

theorem map_eq_error {g : β → γ} : x.map g = .error e ↔ x = .error e := by
  cases x <;> simp [Except.map]

theorem forM_eq_ok {g : β → Except ε Unit} {xs : List β} :
    xs.forM g = .ok () ↔ ∀ x ∈ xs, g x = .ok () := by
  induction xs with
  | nil => exact ⟨fun _ x hx => absurd hx List.not_mem_nil, fun _ => rfl⟩
  | cons y ys ih =>
    rw [List.forall_mem_cons, ← ih]
    refine bind_eq_ok.trans ⟨?_, fun ⟨hy, hys⟩ => ⟨(), hy, hys⟩⟩
    rintro ⟨⟨⟩, hy, hys⟩
    exact ⟨hy, hys⟩

theorem forM_eq_error {g : β → Except ε Unit} : ∀ {xs : List β}, xs.forM g = .error e →
    ∃ x ∈ xs, g x = .error e
  | y :: ys, h => by
    rcases bind_eq_error.mp h with h | ⟨_, _, h⟩
    · exact ⟨y, List.mem_cons_self, h⟩
    · obtain ⟨x, hx, h⟩ := forM_eq_error h
      exact ⟨x, List.mem_cons_of_mem y hx, h⟩

theorem within_eq_ok {α : Type} {o : Option β} {b : β} :
    (within o : Except (Cause α) β) = .ok b ↔ o = some b := by
  cases o <;> simp [within]

theorem planning_eq_ok {α : Type} {y : Except (Cause α) β} {b : β} :
    planning y = .ok b ↔ y = .ok b := by
  cases y <;> simp [planning]

theorem eq_ok_of_toOption {b : β} (h : x.toOption = some b) : x = .ok b := by
  cases x with
  | error e => cases h
  | ok b' => exact congrArg Except.ok (Option.some.inj h)

/-- A result of which something is known, as when it was evaluated. -/
theorem exists_of_map_toOption {g : β → γ} {c : γ} (h : x.toOption.map g = some c) :
    ∃ b, x = .ok b ∧ g b = c := by
  cases x with
  | error e => cases h
  | ok b => exact ⟨b, rfl, Option.some.inj h⟩

end Except

/-! ## Shapes and names -/

namespace Problem

variable {α : Type} {p : Problem α} {e : Cause α} {side : Side} {k : Nat}

theorem of_checkShape (h : p.checkShape = .ok ()) :
    0 < p.supply.length ∧ 0 < p.demand.length ∧ p.costs.length = p.supply.length ∧
      ∀ row ∈ p.costs, row.length = p.demand.length := by
  unfold checkShape at h
  dsimp only at h
  split at h
  · cases h
  next hm =>
  split at h
  · cases h
  next hn =>
  split at h
  · cases h
  next hrows =>
  split at h
  · cases h
  next hcols =>
  refine ⟨Nat.pos_of_ne_zero hm, Nat.pos_of_ne_zero hn, not_not.mp hrows, fun row hrow => ?_⟩
  obtain ⟨k, hk⟩ := List.getElem?_of_mem hrow
  have := List.find?_eq_none.mp hcols (row, k)
    (List.mem_zipIdx_iff_getElem?.mpr (by simpa using hk))
  simpa using this

theorem kind_of_checkShape (h : p.checkShape = .error e) : e.kind = .validation := by
  unfold checkShape at h
  dsimp only at h
  split at h
  · cases h
    rfl
  · split at h
    · cases h
      rfl
    · split at h
      · cases h
        rfl
      · split at h <;> cases h
        rfl

theorem kind_of_checkNames {names : Option (List String)}
    (h : (checkNames side k names : Except (Cause α) Unit) = .error e) : e.kind = .validation := by
  unfold checkNames at h
  split at h
  · split at h <;> cases h
    rfl
  · cases h

end Problem

namespace Plan

variable {α : Type} {p : Plan α} {e : Cause α}

/-- The parts of a plan have the sizes that its supplies and demands call for, the buffers as words
count them. -/
structure Shaped (p : Plan α) : Prop where
  rows_pos : 0 < p.supply.length
  cols_pos : 0 < p.demand.length
  allocation_rows : p.allocation.rows = p.supply.length
  allocation_cols : p.allocation.cols = p.demand.length
  allocation_size : p.allocation.data.size =
    Table.entryCount p.supply.length p.demand.length p.allocation.data.size
  cost_rows : p.costs.rows = p.supply.length
  cost_cols : p.costs.cols = p.demand.length
  cost_size : p.costs.data.size =
    Table.entryCount p.supply.length p.demand.length p.costs.data.size
  sources_length : p.sourceNames.length = p.supply.length
  destinations_length : p.destinationNames.length = p.demand.length

theorem shaped_of_checkShape (h : p.checkShape = .ok ()) : p.Shaped := by
  unfold checkShape at h
  split at h
  · cases h
  next hm =>
  split at h
  · cases h
  next hn =>
  split at h
  · cases h
  next hsizes =>
  have all := List.find?_eq_none.mp hsizes
  simp only [sizes, List.mem_cons, List.not_mem_nil, or_false, forall_eq_or_imp, forall_eq,
    ne_eq, decide_not, Bool.not_eq_true', decide_eq_false_iff_not, not_not] at all
  obtain ⟨aRows, aCols, aSize, cRows, cCols, cSize, sources, destinations⟩ := all
  exact ⟨List.length_pos_iff.mpr (by simpa using hm), List.length_pos_iff.mpr (by simpa using hn),
    aRows.symm, aCols.symm, aSize.symm, cRows.symm, cCols.symm, cSize.symm, sources.symm,
    destinations.symm⟩

theorem Shaped.checkShape_eq_ok (h : p.Shaped) : p.checkShape = .ok () := by
  have rows : p.supply.isEmpty = false :=
    List.isEmpty_eq_false_iff.mpr (List.length_pos_iff.mp h.rows_pos)
  have cols : p.demand.isEmpty = false :=
    List.isEmpty_eq_false_iff.mpr (List.length_pos_iff.mp h.cols_pos)
  have fit : p.sizes.find? (fun s => s.2.1 ≠ s.2.2) = none := by
    simp [sizes, h.allocation_rows, h.allocation_cols, ← h.allocation_size, h.cost_rows,
      h.cost_cols, ← h.cost_size, h.sources_length, h.destinations_length]
  rw [checkShape, rows, cols, fit]
  rfl

/-- There are more cells than words can count, and a buffer has no entry for some of them. -/
def Hollow (p : Plan α) : Prop :=
  USize.size ≤ p.supply.length * p.demand.length ∧
    (p.costs.data.size < p.supply.length * p.demand.length ∨
      p.allocation.data.size < p.supply.length * p.demand.length)

/-- The size of a buffer is right if there is an entry for each cell, and otherwise only by a wrong
count of the cells. -/
theorem Shaped.fits_or_hollow (h : p.Shaped) :
    (p.tableau.Fits p.supply.length p.demand.length ∧
        p.allocation.Fits p.supply.length p.demand.length) ∨ p.Hollow := by
  rcases Table.of_eq_entryCount h.cost_size with costs | ⟨short, many⟩
  · rcases Table.of_eq_entryCount h.allocation_size with quantities | ⟨short, many⟩
    · refine .inl ⟨⟨h.rows_pos, h.cols_pos, rfl, rfl, ⟨?_, h.cost_rows, h.cost_cols⟩,
        h.sources_length, h.destinations_length⟩, ⟨?_, h.allocation_rows, h.allocation_cols⟩⟩
      · rw [Table.WellFormed, tableau, h.cost_rows, h.cost_cols, costs]
      · rw [Table.WellFormed, h.allocation_rows, h.allocation_cols, quantities]
    · exact .inr ⟨many, .inr short⟩
  · exact .inr ⟨many, .inl short⟩

theorem of_checkBasicCells (h : p.checkBasicCells = .ok ()) :
    ∀ c ∈ p.basicCells, c ∈ Cell.grid p.supply.length p.demand.length := by
  unfold checkBasicCells at h
  dsimp only at h
  split at h
  · cases h
  · next hall =>
    intro c hc
    have := List.find?_eq_none.mp hall c hc
    rw [Cell.mem_grid]
    simpa using this

theorem kind_of_checkShape (h : p.checkShape = .error e) : e.kind = .validation := by
  unfold checkShape at h
  split at h
  · cases h
    rfl
  · split at h
    · cases h
      rfl
    · split at h <;> cases h
      rfl

theorem kind_of_checkBasicCells (h : p.checkBasicCells = .error e) : e.kind = .validation := by
  unfold checkBasicCells at h
  dsimp only at h
  split at h <;> cases h
  rfl

end Plan

variable {α : Type} [Scalar α] {tol x : α} {e : Cause α} {xs : List α}

/-! ## Amounts -/

theorem Scalar.firstNonAmount?_eq_none (h : firstNonAmount? xs = none) :
    ∀ x ∈ xs, isAmount x = true := by
  intro x hx
  obtain ⟨k, hk⟩ := List.getElem?_of_mem hx
  have := List.find?_eq_none.mp (Option.map_eq_none_iff.mp h) (x, k)
    (List.mem_zipIdx_iff_getElem?.mpr (by simpa using hk))
  simpa using this

theorem Scalar.firstNonAmount?_eq_none_of_forall (h : ∀ x ∈ xs, isAmount x = true) :
    firstNonAmount? xs = none := by
  refine Option.map_eq_none_iff.mpr (List.find?_eq_none.mpr fun x hx => ?_)
  simp [h x.1 (List.fst_mem_of_mem_zipIdx hx)]

theorem Scalar.isFinite_of_isAmount (h : isAmount x = true) : isFinite x = true :=
  (Bool.and_eq_true_iff.mp h).1

theorem Scalar.zero_le_of_isAmount [Lawful α] (h : isAmount x = true) : 0 ≤ x := by
  have negative := (Bool.and_eq_true_iff.mp h).2
  rw [← Lawful.not_lt_iff (isFinite_of_isAmount h) Lawful.isFinite_zero]
  simpa using negative

theorem Scalar.isAmount_of_zero_le [Lawful α] (hf : isFinite x = true) (h : 0 ≤ x) :
    isAmount x = true := by
  rw [← Lawful.not_lt_iff hf Lawful.isFinite_zero] at h
  simp [isAmount, hf, h]

/-! ## Settings -/

theorem Config.of_check {config : Config α} [Scalar.Lawful α] (h : config.check = .ok ()) :
    Scalar.isFinite config.tolerance = true ∧ 0 ≤ config.tolerance ∧ 0 < config.tolerance := by
  unfold check at h
  split at h
  · cases h
  · next ht =>
    simp only [Bool.or_eq_true, Bool.not_eq_true', decide_eq_true_eq, not_or,
      Bool.not_eq_false] at ht
    have pos : 0 < config.tolerance :=
      (Scalar.Lawful.lt_iff_not_le Scalar.Lawful.isFinite_zero ht.1).mpr ht.2
    exact ⟨ht.1, Scalar.Lawful.le_of_lt Scalar.Lawful.isFinite_zero ht.1 pos, pos⟩

theorem Config.kind_of_check {config : Config α} (h : config.check = .error e) :
    e.kind = .validation := by
  unfold check at h
  split at h
  · cases h
    rfl
  · split at h <;> cases h
    rfl

/-! ## Problems -/

namespace Problem

variable {p : Problem α} {side : Side} {rows : List (List α)} {i : Nat}

theorem of_checkQuantities (h : checkQuantities side xs = .ok ()) :
    ∀ x ∈ xs, Scalar.isAmount x = true := by
  unfold checkQuantities at h
  split at h
  · cases h
  · next hn => exact Scalar.firstNonAmount?_eq_none hn

theorem checkQuantities_eq_ok (h : ∀ x ∈ xs, Scalar.isAmount x = true) :
    checkQuantities side xs = .ok () := by
  rw [checkQuantities, Scalar.firstNonAmount?_eq_none_of_forall h]

theorem of_checkCosts (h : checkCosts i rows = .ok ()) :
    ∀ row ∈ rows, ∀ x ∈ row, Scalar.isAmount x = true := by
  induction rows generalizing i with
  | nil => exact fun row hrow => absurd hrow List.not_mem_nil
  | cons row rows ih =>
    unfold checkCosts at h
    split at h
    · cases h
    · next hn =>
      intro row' hrow
      rcases List.mem_cons.mp hrow with rfl | hrow
      · exact Scalar.firstNonAmount?_eq_none hn
      · exact ih h row' hrow

/-- A problem that can be planned for. -/
structure Plannable (p : Problem α) : Prop where
  rows_pos : 0 < p.supply.length
  cols_pos : 0 < p.demand.length
  rows_length : p.costs.length = p.supply.length
  cols_length : ∀ row ∈ p.costs, row.length = p.demand.length
  supply : ∀ x ∈ p.supply, Scalar.isAmount x = true
  demand : ∀ x ∈ p.demand, Scalar.isAmount x = true
  costs : ∀ row ∈ p.costs, ∀ x ∈ row, Scalar.isAmount x = true
  totalSupply : Scalar.isFinite p.totalSupply = true
  totalDemand : Scalar.isFinite p.totalDemand = true

theorem of_checkTotal (h : checkTotal side x = .ok ()) : Scalar.isFinite x = true := by
  unfold checkTotal at h
  split at h
  · assumption
  · cases h

theorem plannable_of_check (h : p.check = .ok ()) : p.Plannable := by
  simp only [check, bind_eq_ok] at h
  obtain ⟨⟨⟩, shape, ⟨⟩, supply, ⟨⟩, demand, ⟨⟩, costs, ⟨⟩, totalSupply, ⟨⟩, totalDemand, -⟩ := h
  obtain ⟨hm, hn, hrows, hcols⟩ := of_checkShape shape
  exact ⟨hm, hn, hrows, hcols, of_checkQuantities supply, of_checkQuantities demand,
    of_checkCosts costs, of_checkTotal totalSupply, of_checkTotal totalDemand⟩

theorem kind_of_checkQuantities (h : checkQuantities side xs = .error e) :
    e.kind = .validation := by
  unfold checkQuantities at h
  split at h <;> cases h
  rfl

theorem kind_of_checkCosts (h : checkCosts i rows = .error e) : e.kind = .validation := by
  induction rows generalizing i with
  | nil => cases h
  | cons row rows ih =>
    unfold checkCosts at h
    split at h
    · cases h
      rfl
    · exact ih h

theorem kind_of_checkTotal (h : checkTotal side x = .error e) : e.kind = .validation := by
  unfold checkTotal at h
  split at h <;> cases h
  rfl

theorem kind_of_check (h : p.check = .error e) : e.kind = .validation := by
  simp only [check, bind_eq_error] at h
  rcases h with h | ⟨_, _, h | ⟨_, _, h | ⟨_, _, h | ⟨_, _, h | ⟨_, _, h | ⟨_, _, h | ⟨_, _, h⟩⟩⟩⟩⟩⟩⟩
  · exact kind_of_checkShape h
  · exact kind_of_checkQuantities h
  · exact kind_of_checkQuantities h
  · exact kind_of_checkCosts h
  · exact kind_of_checkTotal h
  · exact kind_of_checkTotal h
  · exact kind_of_checkNames h
  · exact kind_of_checkNames h

end Problem

/-! ## Plans -/

namespace Table

variable {t : Table α} {supply demand : List α} {c : Cell}

/-- The violations of a table that fits its supplies and demands can be listed. -/
theorem Fits.exists_violations? (h : t.Fits supply.length demand.length) (tol : α) :
    ∃ violations, t.violations? supply demand tol = some violations := by
  refine exists_bind (exists_mapM fun c hc => ?_) fun _ _ =>
    exists_bind (exists_mapM fun s hs => ?_) fun _ _ =>
      exists_bind (exists_mapM fun d hd => ?_) fun _ _ => ⟨_, rfl⟩
  · rw [h.get?_eq (h.cells_eq ▸ hc)]
    exact ⟨_, rfl⟩
  · dsimp only
    rw [h.rowSum?_eq (List.snd_lt_of_mem_zipIdx hs)]
    exact ⟨_, rfl⟩
  · dsimp only
    rw [h.columnSum?_eq (List.snd_lt_of_mem_zipIdx hd)]
    exact ⟨_, rfl⟩

end Table

namespace Plan

variable {p : Plan α} {c : Cell}

/-- A plan from outside whose parts fit together. -/
structure Consistent (p : Plan α) : Prop where
  tableau : p.tableau.Fits p.supply.length p.demand.length
  allocation : p.allocation.Fits p.supply.length p.demand.length
  finite : ∀ c ∈ Cell.grid p.supply.length p.demand.length, ∀ q, p.allocation.get? c = some q →
    Scalar.isFinite q = true
  amounts : ∀ c ∈ Cell.grid p.supply.length p.demand.length,
    Scalar.isAmount (p.costs.entry c) = true
  basicCells : ∀ c ∈ p.basicCells, c ∈ Cell.grid p.supply.length p.demand.length

theorem of_checkCell (h : p.checkCell c = .ok ()) :
    Scalar.isAmount (p.costs.entry c) = true ∧ (∃ cost, p.costs.get? c = some cost) ∧
      ∃ q, p.allocation.get? c = some q ∧ Scalar.isFinite q = true := by
  simp only [checkCell, bind_eq_ok] at h
  obtain ⟨cost, hcost, h⟩ := h
  split at h
  · cases h
  · next hamount =>
    obtain ⟨q, hq, h⟩ := bind_eq_ok.mp h
    split at h
    · cases h
    · next hfinite =>
      refine ⟨?_, ⟨cost, within_eq_ok.mp hcost⟩, q, within_eq_ok.mp hq, by simpa using hfinite⟩
      rw [Table.entry, within_eq_ok.mp hcost]
      simpa using hamount

/-- The check of the cells reaches the last one only if the buffers have an entry for each. -/
theorem Shaped.fits_of_checkCells (h : p.Shaped)
    (cells : (Cell.grid p.supply.length p.demand.length).forM p.checkCell = .ok ()) :
    p.tableau.Fits p.supply.length p.demand.length ∧
      p.allocation.Fits p.supply.length p.demand.length := by
  refine h.fits_or_hollow.resolve_right fun ⟨_, short⟩ => ?_
  have rows : p.supply.length - 1 + 1 = p.supply.length := Nat.sub_add_cancel h.rows_pos
  have cols : p.demand.length - 1 + 1 = p.demand.length := Nat.sub_add_cancel h.cols_pos
  have last : (⟨p.supply.length - 1, p.demand.length - 1⟩ : Cell) ∈
      Cell.grid p.supply.length p.demand.length :=
    Cell.mem_grid.mpr ⟨Nat.lt_of_succ_le rows.le, Nat.lt_of_succ_le cols.le⟩
  have position : (p.supply.length - 1) * p.demand.length + (p.demand.length - 1) + 1 =
      p.supply.length * p.demand.length := by
    rw [Nat.add_assoc, cols, ← Nat.succ_mul, Nat.succ_eq_add_one, rows]
  obtain ⟨-, ⟨cost, hcost⟩, q, hq, -⟩ := of_checkCell (forM_eq_ok.mp cells _ last)
  have costs := (Array.getElem?_eq_some_iff.mp hcost).1
  have quantities := (Array.getElem?_eq_some_iff.mp hq).1
  simp only [Table.position, h.cost_cols, h.allocation_cols] at costs quantities
  omega

theorem consistent_of_check (h : p.check tol = .ok ()) : p.Consistent := by
  simp only [check, bind_eq_ok] at h
  obtain ⟨⟨⟩, shape, ⟨⟩, -, ⟨⟩, -, ⟨⟩, cells, ⟨⟩, basicCells, -⟩ := h
  obtain ⟨ht, ha⟩ := (shaped_of_checkShape shape).fits_of_checkCells cells
  refine ⟨ht, ha, fun c hc q hq => ?_, fun c hc => (of_checkCell (forM_eq_ok.mp cells c hc)).1,
    of_checkBasicCells basicCells⟩
  obtain ⟨-, -, q', hq', hf⟩ := of_checkCell (forM_eq_ok.mp cells c hc)
  rw [hq] at hq'
  cases hq'
  exact hf

/-- A cell is at fault itself, or has no entry. -/
theorem kind_of_checkCell (h : p.checkCell c = .error e) : e.kind = .validation ∨
    e = .outside ∧ (p.costs.get? c = none ∨ p.allocation.get? c = none) := by
  unfold checkCell at h
  cases hcost : p.costs.get? c with
  | none =>
    rw [hcost] at h
    cases h
    exact .inr ⟨rfl, .inl rfl⟩
  | some cost =>
    simp only [hcost, within, bind, Except.bind] at h
    split at h
    · cases h
      exact .inl rfl
    · cases hq : p.allocation.get? c with
      | none =>
        rw [hq] at h
        cases h
        exact .inr ⟨rfl, .inr rfl⟩
      | some q =>
        simp only [hq] at h
        split at h <;> cases h
        exact .inl rfl

theorem kind_of_checkQuantities (ha : p.allocation.Fits p.supply.length p.demand.length)
    (h : p.checkQuantities tol = .error e) : e.kind = .validation := by
  obtain ⟨violations, ev⟩ :=
    ha.exists_violations? (tol * Scalar.greatest (Scalar.sum p.supply) 1)
  unfold checkQuantities at h
  simp only [ev, within, bind, Except.bind] at h
  split at h <;> cases h
  rfl

/-- A plan that is turned down is at fault itself. No check looks outside a table, except where words
cannot count the cells. -/
theorem kind_of_check (h : p.check tol = .error e) :
    e.kind = .validation ∨ e = .outside ∧ p.Hollow := by
  simp only [check, bind_eq_error] at h
  rcases h with h | ⟨⟨⟩, shape, h⟩
  · exact .inl (kind_of_checkShape h)
  have shaped := shaped_of_checkShape shape
  rcases h with h | ⟨_, _, h | ⟨_, _, h | ⟨⟨⟩, cells, h⟩⟩⟩
  · exact .inl (Problem.kind_of_checkQuantities h)
  · exact .inl (Problem.kind_of_checkQuantities h)
  · obtain ⟨c, hc, h⟩ := forM_eq_error h
    refine (kind_of_checkCell h).imp_right fun ⟨outside, missing⟩ => ⟨outside, ?_⟩
    refine shaped.fits_or_hollow.resolve_left fun ⟨ht, ha⟩ => ?_
    have cost : p.costs.get? c = some (p.costs.entry c) := ht.costs.get?_eq hc
    simp [cost, ha.get?_eq hc] at missing
  · obtain ⟨-, ha⟩ := shaped.fits_of_checkCells cells
    rcases h with h | ⟨_, _, h⟩
    · exact .inl (kind_of_checkBasicCells h)
    · exact .inl (kind_of_checkQuantities ha h)

end Plan

end Freight
