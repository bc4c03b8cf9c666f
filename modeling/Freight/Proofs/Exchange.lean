import Freight.Proofs.Circuit
import Freight.Proofs.Shortfall

/-!
# Pivots as exchanges

A pivot on a vacant cell of a spanning tree is an exchange, as its record says (`Pivot.Exchanges`):
the smallest quantity on the losing cells goes around the loop, the first cell that runs empty leaves
the basis for the vacant one, a spanning tree remains, and nothing changes off the loop. Over amounts
of rationals no line loses more than what is left on one losing cell (`Pivots.exists_drop`).

A pivot is refused for a marked cell and for one whose lines are not connected, and for nothing else
(`pivot_isOk_iff`). Done in place (`Position.writePivot`), it comes to the same position and record,
and a refusal has written nothing (`run_writePivot`, `run_writePivot_of_error`).

Main statement: all of that (`Position.pivot_exchanges`).
-/

namespace Freight

open Finset Scalar

variable {α : Type} [Scalar α] {m n : Nat} {c d leaving : Cell} {path loop : List Cell} {l : Line}

/-- What a pivot around a loop does to a position, in the terms of its record. -/
structure Pivot.Exchanges (record : Pivot α) (p next : Position α) (tol : α) (m n : Nat)
    (loop : List Cell) : Prop where
  traced : (p.basis.loop record.entering : Except (Cause α) (List Cell)) = .ok loop
  /-- The smallest quantity on the losing cells is sent, and nothing if it is not positive. -/
  quantity_eq : ∃ low, record.quantity = positivePart low ∧
    (∃ d ∈ losing loop, p.allocation.get? d = some low) ∧
    ∀ d ∈ losing loop, ∀ q, p.allocation.get? d = some q → low ≤ q
  leaving_mem : record.leaving ∈ losing loop
  /-- The leaving cell holds no more than is sent, up to the tolerance. -/
  emptied : ∃ q, p.allocation.get? record.leaving = some q ∧ q ≤ record.quantity + tol
  /-- Of the losing cells of which that is true, it is the first one in row-major order. -/
  first : ∀ d ∈ losing loop, ∀ q, p.allocation.get? d = some q → q ≤ record.quantity + tol →
    d = record.leaving ∨ record.leaving.before d = true
  basis : next.basis.Fits m n
  leaving_basic : record.leaving ∈ p.basis.cells
  cells : ∀ d, d ∈ next.basis.cells ↔ d = record.entering ∨ d ∈ p.basis.cells ∧ d ≠ record.leaving
  isTree : next.basis.IsTree
  isSpanningTree : next.basis.isSpanningTree = true
  allocation : next.allocation.Fits m n
  off : ∀ d ∈ Cell.grid m n, d ∉ loop → next.allocation.get? d = p.allocation.get? d

namespace Position

variable {p next : Position α} {tol quantity low : α} {entering : Entering α} {record : Pivot α}
  {cause : Cause α}

/-! ## Pivots in place -/

omit [Scalar α] in
theorem run_write {f : Position α → Option (Position α)} (h : f p = some next) :
    (write f).run p = .ok () next := by
  simp [write, h, within, MonadExcept.ofExcept]

omit [Scalar α] in
theorem run_writeEntry {t : Table α} {f : α → α} (h : p.allocation.modify? c f = some t) :
    (writeEntry c f).run p = .ok () { p with allocation := t } :=
  run_write (by rw [h]; rfl)

/-- Sending a quantity around a loop cell by cell. -/
theorem run_writeShift : ∀ {loop : List Cell} {gains : Bool} {p : Position α} {t : Table α},
    p.allocation.shift? quantity tol gains loop = some t →
      (writeShift quantity tol gains loop).run p = .ok () { p with allocation := t }
  | [], _, p, t, h => by
    cases h
    rfl
  | c :: rest, true, p, t, h => by
    obtain ⟨u, hu, h⟩ := Option.bind_eq_some_iff.mp h
    rw [writeShift, EStateM.run_bind, run_writeEntry hu]
    exact run_writeShift (p := { p with allocation := u }) h
  | c :: rest, false, p, t, h => by
    obtain ⟨u, hu, h⟩ := Option.bind_eq_some_iff.mp h
    -- Lowering and clearing make up the one change of the table.
    have inside := Table.modify?_isSome_iff.mp (Option.isSome_of_eq_some hu)
    obtain ⟨v, hv⟩ := Option.isSome_iff_exists.mp
      (Table.modify?_isSome_iff (f := (· + -quantity)).mpr inside)
    have hu : v.modify? c (fun q => if q ≤ tol then 0 else q) = some u :=
      (Table.modify?_modify? hv _).trans hu
    rw [writeShift, EStateM.run_bind, run_writeEntry hv]
    dsimp only
    rw [EStateM.run_bind, run_writeEntry hu]
    exact run_writeShift (p := { p with allocation := u }) h

/-- Done in place, a pivot comes to the same position and record. -/
theorem run_writePivot (h : p.pivot tol entering = .ok (next, record)) :
    (writePivot tol entering).run p = .ok record next := by
  obtain ⟨loop, eloop, h⟩ := bind_eq_ok.mp h
  obtain ⟨losses, elosses, h⟩ := bind_eq_ok.mp h
  rw [within_eq_ok] at elosses
  cases eexchange : exchange? tol losses with
  | none =>
    rw [eexchange] at h
    cases h
  | some exchange =>
    obtain ⟨quantity, leaving⟩ := exchange
    rw [eexchange] at h
    obtain ⟨allocation, eshift, h⟩ := bind_eq_ok.mp h
    obtain ⟨⟨b, erased⟩, eerase, h⟩ := bind_eq_ok.mp h
    obtain ⟨⟨b', inserted⟩, einsert, h⟩ := bind_eq_ok.mp h
    cases h
    have shift := run_writeShift (within_eq_ok.mp eshift)
    have erase : (write fun q : Position α => (q.basis.erase? leaving).map fun r =>
        { q with basis := r.2 }).run { p with allocation } = .ok () ⟨allocation, erased⟩ :=
      run_write (by rw [within_eq_ok.mp eerase]; rfl)
    have insert : (write fun q : Position α => (q.basis.insert? entering.cell).map fun r =>
        { q with basis := r.2 }).run ⟨allocation, erased⟩ = .ok () ⟨allocation, inserted⟩ :=
      run_write (by rw [within_eq_ok.mp einsert]; rfl)
    simp only [writePivot, EStateM.run_bind, EStateM.run_get, eloop, elosses, within,
      MonadExcept.ofExcept, EStateM.run_pure, eexchange, shift, erase, insert]

/-- A refusal leaves the position as it was: whatever may refuse a pivot is looked up before anything
is written. -/
theorem run_writePivot_of_error (h : p.pivot tol entering = .error cause) (inside : cause ≠ .outside) :
    (writePivot tol entering).run p = .error cause p := by
  have missed : ∀ {β : Type} {o : Option β}, (within o : Except (Cause α) β) ≠ .error cause := by
    intro β o e
    cases o with
    | none =>
      cases e
      exact inside rfl
    | some b => cases e
  rcases bind_eq_error.mp h with eloop | ⟨loop, eloop, h⟩
  · simp only [writePivot, EStateM.run_bind, EStateM.run_get, eloop, MonadExcept.ofExcept]
    rfl
  rcases bind_eq_error.mp h with e | ⟨losses, elosses, h⟩
  · exact absurd e missed
  rw [within_eq_ok] at elosses
  cases eexchange : exchange? tol losses with
  | none =>
    rw [eexchange] at h
    cases h
    simp only [writePivot, EStateM.run_bind, EStateM.run_get, eloop, elosses, within,
      MonadExcept.ofExcept, EStateM.run_pure, eexchange]
    rfl
  | some exchange =>
    -- From here on only a cell outside the tableau could stop it.
    rw [eexchange] at h
    rcases bind_eq_error.mp h with e | ⟨allocation, -, h⟩
    · exact absurd e missed
    rcases bind_eq_error.mp h with e | ⟨erased, -, h⟩
    · exact absurd e missed
    rcases bind_eq_error.mp h with e | ⟨inserted, -, h⟩
    · exact absurd e missed
    cases h

/-! ## Exchanges -/

section Ascending

variable [Ascending α]

/-- A tolerance loses no ground, be it infinite. -/
theorem le_add_tol (hpos : 0 ≤ tol) (x : α) (hx : isFinite x = true) : x ≤ x + tol :=
  Ascending.le_add_of_nonneg hx hpos

/-- A pivot on a vacant cell of a spanning tree is an exchange. -/
theorem Sound.exists_exchange (h : p.Sound m n) (hpos : 0 ≤ tol)
    (hg : entering.cell ∈ Cell.grid m n) (hc : entering.cell ∉ p.basis.cells) :
    ∃ loop next record, p.pivot tol entering = .ok (next, record) ∧
      record.entering = entering.cell ∧ record.opportunityCost = entering.opportunityCost ∧
      record.Exchanges p next tol m n loop := by
  obtain ⟨path, low, leaving, next, e, pivots, hallocation, hbasis, first⟩ :=
    exists_pivot h.allocation h.basis h.finite (le_add_tol hpos) (h.basis.mem_vacant.mpr ⟨hg, hc⟩)
      (h.connected hg)
  have tree := h.isTree_of_pivots pivots hbasis
  have lines : 0 < m + n := Nat.add_pos_left (Nat.zero_lt_of_lt (Cell.mem_grid.mp hg).1) n
  refine ⟨entering.cell :: path, next, _, e, rfl, rfl, ?_⟩
  exact
    { traced := pivots.traced
      quantity_eq := ⟨low, rfl, pivots.low_mem, pivots.low_le⟩
      leaving_mem := pivots.leaving_mem
      emptied := pivots.emptied
      first := first
      basis := hbasis
      leaving_basic := pivots.closes.marked leaving pivots.leaving_mem_path
      cells := pivots.basis
      isTree := tree
      isSpanningTree := (hbasis.isSpanningTree_iff lines).mpr tree
      allocation := hallocation
      off := fun d hd hout => by
        rw [pivots.entries d (h.allocation.cells_eq ▸ hd), circulated_eq_id _ _ hout, Option.map_id,
          id] }

/-- A pivot succeeds exactly on an unmarked cell with connected lines, whatever else is marked. -/
theorem pivot_isOk_iff (ha : p.allocation.Fits m n) (hb : p.basis.Fits m n)
    (hf : ∀ c ∈ Cell.grid m n, ∀ q, p.allocation.get? c = some q → isFinite q = true)
    (hpos : 0 ≤ tol) (hg : entering.cell ∈ Cell.grid m n) :
    ((∃ r, p.pivot tol entering = .ok r) ↔ entering.cell ∉ p.basis.cells ∧
        Line.Connected p.basis.cells (.row entering.cell.row) (.column entering.cell.col)) ∧
      ∀ cause, p.pivot tol entering = .error cause → cause = .noLoop entering.cell := by
  by_cases closes : entering.cell ∉ p.basis.cells ∧
      Line.Connected p.basis.cells (.row entering.cell.row) (.column entering.cell.col)
  · obtain ⟨path, low, leaving, next, e, -⟩ := exists_pivot ha hb hf (le_add_tol hpos)
      (hb.mem_vacant.mpr ⟨hg, closes.1⟩) closes.2
    refine ⟨⟨fun _ => closes, fun _ => ⟨_, e⟩⟩, fun cause e' => ?_⟩
    rw [e] at e'
    cases e'
  · have refused : p.pivot tol entering = .error (.noLoop entering.cell) := by
      rw [Position.pivot, hb.loop_eq_noLoop hg closes]
      rfl
    refine ⟨⟨fun ⟨r, e⟩ => ?_, fun h => absurd h closes⟩, fun cause e => ?_⟩
    · rw [refused] at e
      cases e
    · rw [refused] at e
      exact (Except.error.inj e).symm

end Ascending

end Position

/-! ## Amounts -/

namespace Position.Pivots

variable {p next : Position Rat} {tol low : Rat} (h : p.Pivots next tol c path low leaving)
  (hp : p.Sound m n)

include h hp

/-- A pivot of amounts takes from each line what is left on a losing cell of it: nothing, or no more
than the tolerance. -/
theorem exists_drop (hpos : 0 ≤ tol) (hn : ∀ d ∈ Cell.grid m n, 0 ≤ p.allocation.entry d)
    (hl : l.Within m n) : ∃ drop, 0 ≤ drop ∧ drop ≤ tol ∧
      Line.total m n next.allocation.entry l = Line.total m n p.allocation.entry l - drop ∧
      ((∀ d ∈ losing (c :: path), l.Through d →
        ¬ (0 < p.allocation.entry d - positivePart low ∧
          p.allocation.entry d - positivePart low ≤ tol)) → drop = 0) := by
  obtain ⟨nonneg, small⟩ := h.total_residue hp hpos hn hl
  refine ⟨_, nonneg, small, h.total_eq hp hl, fun nothing => ?_⟩
  rw [total_eq_sum _ hl]
  refine sum_eq_zero fun d hd => ?_
  by_cases hld : l.Through d
  · have rest := h.residue_nonneg hp hn d
    rw [mul_eq_zero]
    left
    unfold residue at rest ⊢
    split
    · next cleared =>
      rw [if_pos cleared] at rest
      have := nothing d cleared.1 hld
      by_contra hne
      exact this ⟨lt_of_le_of_ne rest (Ne.symm hne), cleared.2⟩
    · rfl
  · rw [Line.weight_of_not_through hld, mul_zero]

end Position.Pivots

namespace Position

/-- What a pivot does. On a vacant cell of a spanning tree with finite quantities, under any tolerance
of zero or more, it succeeds and is an exchange, in any arithmetic where adding an amount loses no
ground. Over the rationals the leaving cell ends at zero; amounts stay amounts, and each line loses at
most the tolerance, and nothing unless a losing cell of it is left with something within the tolerance.
Whatever else is marked, a pivot is refused just for a marked cell and for one whose lines are not
connected. Done in place it comes to the same, and a refusal leaves the position as it was. -/
theorem pivot_exchanges {m n : Nat} :
    (∀ {α : Type} [Scalar α] [Ascending α] (p : Position α) (tol : α) (entering : Entering α),
        p.Sound m n → 0 ≤ tol → entering.cell ∈ Cell.grid m n → entering.cell ∉ p.basis.cells →
        ∃ loop next record, p.pivot tol entering = .ok (next, record) ∧
          record.entering = entering.cell ∧ record.opportunityCost = entering.opportunityCost ∧
          record.Exchanges p next tol m n loop) ∧
      (∀ (p next : Position Rat) (tol : Rat) (entering : Entering Rat) (record : Pivot Rat) loop,
        p.Sound m n → 0 ≤ tol → entering.cell ∈ Cell.grid m n →
        p.pivot tol entering = .ok (next, record) →
        (p.basis.loop entering.cell : Except (Cause Rat) (List Cell)) = .ok loop →
        next.allocation.get? record.leaving = some 0 ∧
        ((∀ d ∈ Cell.grid m n, 0 ≤ p.allocation.entry d) →
          (∀ d ∈ Cell.grid m n, 0 ≤ next.allocation.entry d) ∧
          ∀ l : Line, l.Within m n → ∃ drop, 0 ≤ drop ∧ drop ≤ tol ∧
            Line.total m n next.allocation.entry l = Line.total m n p.allocation.entry l - drop ∧
            ((∀ d ∈ losing loop, l.Through d →
              ¬ (0 < p.allocation.entry d - record.quantity ∧
                p.allocation.entry d - record.quantity ≤ tol)) → drop = 0))) ∧
      (∀ {α : Type} [Scalar α] [Ascending α] (p : Position α) (tol : α) (entering : Entering α),
        p.allocation.Fits m n → p.basis.Fits m n →
        (∀ d ∈ Cell.grid m n, ∀ q, p.allocation.get? d = some q → isFinite q = true) → 0 ≤ tol →
        entering.cell ∈ Cell.grid m n →
        ((∃ r, p.pivot tol entering = .ok r) ↔ entering.cell ∉ p.basis.cells ∧
            Line.Connected p.basis.cells (.row entering.cell.row) (.column entering.cell.col)) ∧
          ∀ cause, p.pivot tol entering = .error cause → cause = .noLoop entering.cell) ∧
      ∀ {α : Type} [Scalar α] (p : Position α) (tol : α) (entering : Entering α),
        (∀ next record, p.pivot tol entering = .ok (next, record) →
          (writePivot tol entering).run p = .ok record next) ∧
        ∀ cause, p.pivot tol entering = .error cause → cause ≠ .outside →
          (writePivot tol entering).run p = .error cause p := by
  refine ⟨fun p tol entering h hpos hg hc => h.exists_exchange hpos hg hc,
    fun p next tol entering record loop h hpos hg e traced => ?_,
    fun p tol entering ha hb hf hpos hg => pivot_isOk_iff ha hb hf hpos hg,
    fun p tol entering => ⟨fun next record e => run_writePivot e, fun cause e inside =>
      run_writePivot_of_error e inside⟩⟩
  have vacant : entering.cell ∈ p.basis.vacant :=
    h.basis.mem_vacant.mpr ⟨hg, (h.basis.of_loop hg traced).1⟩
  obtain ⟨path, low, leaving, next', e', pivots, -⟩ := h.pivot rfl hpos vacant
  rw [e] at e'
  cases e'
  rw [pivots.traced] at traced
  cases traced
  exact ⟨h.get?_leaving rfl pivots, fun hn =>
    ⟨pivots.nonneg h hn, fun l hl => pivots.exists_drop h hpos hn hl⟩⟩

/-- Quantities on the staircase. -/
def loadedStaircase : Position Rat := ⟨⟨3, 3, #[3, 2, 0, 0, 4, 2, 0, 0, 5]⟩, Basis.staircase⟩

/-- Three units go around the staircase, and the fourth one of the middle cell is dropped. The first
cell leaves, before the middle one. On a cell of the staircase a pivot is refused. -/
theorem pivot_exchanges_staircase :
    loadedStaircase.Sound 3 3 ∧ (0 : Rat) ≤ 1 ∧
      ∃ next record, loadedStaircase.pivot 1 ⟨⟨2, 0⟩, -5⟩ = .ok (next, record) ∧
        record.leaving = ⟨0, 0⟩ ∧ record.quantity = 3 ∧ next.basis.IsTree ∧
        next.allocation = ⟨3, 3, #[0, 5, 0, 0, 0, 5, 3, 0, 2]⟩ ∧
        (∀ d ∈ Cell.grid 3 3, 0 ≤ next.allocation.entry d) ∧
        (writePivot 1 ⟨⟨2, 0⟩, -5⟩).run loadedStaircase = .ok record next ∧
        ∃ cause, loadedStaircase.pivot 1 ⟨⟨1, 1⟩, 0⟩ = .error cause ∧ cause = .noLoop ⟨1, 1⟩ ∧
          (writePivot 1 ⟨⟨1, 1⟩, 0⟩).run loadedStaircase = .error cause loadedStaircase := by
  have sound : loadedStaircase.Sound 3 3 :=
    ⟨⟨rfl, rfl, rfl⟩, Basis.fits_staircase, Basis.isTree_staircase, fun _ _ _ _ => rfl⟩
  have hpos : (0 : Rat) ≤ 1 := by decide +kernel
  have nonneg : ∀ d ∈ Cell.grid 3 3, 0 ≤ loadedStaircase.allocation.entry d := by decide +kernel
  have hc : Cell.mk 2 0 ∈ Cell.grid 3 3 := by decide
  have hd : Cell.mk 1 1 ∈ Cell.grid 3 3 := by decide
  have values : (loadedStaircase.pivot 1 ⟨⟨2, 0⟩, -5⟩).toOption.map
      (fun r => (r.1.allocation, r.2.leaving, r.2.quantity)) =
    some (⟨3, 3, #[0, 5, 0, 0, 0, 5, 3, 0, 2]⟩, ⟨0, 0⟩, 3) := by decide +kernel
  obtain ⟨succeeds, amounts, refuses, inPlace⟩ := pivot_exchanges (m := 3) (n := 3)
  obtain ⟨loop, next, record, e, hentering, -, exchange⟩ :=
    succeeds loadedStaircase 1 ⟨⟨2, 0⟩, -5⟩ sound hpos hc (by decide)
  obtain ⟨r, e', values⟩ := exists_of_map_toOption values
  rw [e] at e'
  cases e'
  obtain ⟨allocation, values⟩ := Prod.mk.inj values
  obtain ⟨leaving, quantity⟩ := Prod.mk.inj values
  have traced := exchange.traced
  rw [hentering] at traced
  obtain ⟨-, kept⟩ := amounts loadedStaircase next 1 ⟨⟨2, 0⟩, -5⟩ record loop sound hpos hc e traced
  obtain ⟨succeeds', named⟩ := refuses loadedStaircase 1 ⟨⟨1, 1⟩, 0⟩ sound.allocation sound.basis
    sound.finite hpos hd
  cases refused : loadedStaircase.pivot 1 ⟨⟨1, 1⟩, 0⟩ with
  | ok r => exact absurd (succeeds'.mp ⟨r, refused⟩).1 (by decide)
  | error cause =>
    have named := named cause refused
    refine ⟨sound, hpos, next, record, e, leaving, quantity, exchange.isTree, allocation,
      (kept nonneg).1, (inPlace loadedStaircase 1 ⟨⟨2, 0⟩, -5⟩).1 next record e, cause, rfl, named,
      (inPlace loadedStaircase 1 ⟨⟨1, 1⟩, 0⟩).2 cause refused ?_⟩
    rw [named]
    exact nofun

end Position

end Freight
