import Freight.Proofs.Scalar
import Freight.Proofs.Table
import Freight.Proofs.Forest
import Freight.Start.Remaining
import Mathlib.Data.List.Perm.Subperm

/-!
# Greedy runs

What a line has left (`Remaining.left?`) decides whether it is open. A shipment on an open cell takes
what the poorer of its lines has left: that line closes for good (`Sound.closes`), the other lines
stay as they were. A run of such shipments until no cell is open (`Remaining.Run`) therefore ends
after fewer shipments than there are open lines (`Sound.exists_run`), ships on no cell twice, and on
cells without a cycle (`Run.acyclic`): the line that a shipment closes has none of the later cells.
-/

namespace Freight

namespace Remaining

variable {α : Type} [Scalar α] {r last : Remaining α} {tol x : α} {m n : Nat} {l : Line}
  {c d : Cell} {ss : List (Shipment α)}

/-! ## Open lines and cells -/

/-- What a line has left, if the tableau has it. -/
def left? (r : Remaining α) : Line → Option α
  | .row i => r.supply[i]?
  | .column j => r.demand[j]?

omit [Scalar α] in
/-- A line has something left exactly if the tableau has the line. -/
theorem exists_left?_iff :
    (∃ x, r.left? l = some x) ↔ l.Within r.supply.length r.demand.length := by
  rw [← Option.isSome_iff_exists]
  cases l <;> simp [left?, Line.Within]

omit [Scalar α] in
/-- What is true of all supplies and demands is true of what any line has left. -/
theorem forall_left? {supply demand : List α} {P : α → Prop} (hs : ∀ x ∈ supply, P x)
    (hd : ∀ x ∈ demand, P x) : ∀ l x, (Remaining.mk supply demand).left? l = some x → P x := by
  intro l x hx
  cases l with
  | row i => exact hs x (List.mem_of_getElem? hx)
  | column j => exact hd x (List.mem_of_getElem? hx)

theorem mem_openPositions {xs : List α} {k : Nat} :
    k ∈ openPositions tol xs ↔ ∃ x, xs[k]? = some x ∧ tol < x := by
  unfold openPositions
  rw [List.mem_map]
  constructor
  · rintro ⟨⟨x, k⟩, hm, rfl⟩
    obtain ⟨hm, hx⟩ := List.mem_filter.mp hm
    exact ⟨x, by simpa using List.mem_zipIdx_iff_getElem?.mp hm, of_decide_eq_true hx⟩
  · rintro ⟨x, hk, hx⟩
    refine ⟨(x, k), List.mem_filter.mpr ⟨?_, decide_eq_true hx⟩, rfl⟩
    exact List.mem_zipIdx_iff_getElem?.mpr (by simpa using hk)

theorem pairwise_openPositions (tol : α) (xs : List α) :
    (openPositions tol xs).Pairwise (· < ·) := by
  have positions : (xs.zipIdx.map Prod.snd).Pairwise (· < ·) := by
    rw [List.zipIdx_map_snd]
    exact List.pairwise_lt_range'
  exact positions.sublist (List.filter_sublist.map _)

theorem nodup_openPositions (tol : α) (xs : List α) : (openPositions tol xs).Nodup :=
  (pairwise_openPositions tol xs).imp Nat.ne_of_lt

theorem mem_openLines : l ∈ r.openLines tol ↔ ∃ x, r.left? l = some x ∧ tol < x := by
  unfold openLines openRows openColumns
  rw [List.mem_append, List.mem_map, List.mem_map]
  cases l with
  | row i => simp [mem_openPositions, left?]
  | column j => simp [mem_openPositions, left?]

theorem nodup_openLines (r : Remaining α) (tol : α) : (r.openLines tol).Nodup := by
  refine List.nodup_append.mpr ⟨?_, ?_, ?_⟩
  · exact (nodup_openPositions _ _).map fun i i' e => Line.row.inj e
  · exact (nodup_openPositions _ _).map fun j j' e => Line.column.inj e
  · intro k hk l hl e
    obtain ⟨i, -, rfl⟩ := List.mem_map.mp hk
    obtain ⟨j, -, rfl⟩ := List.mem_map.mp hl
    cases e

theorem mem_openCellsOn :
    c ∈ r.openCellsOn tol l ↔ l.Through c ∧ l.crossing c ∈ r.openLines tol := by
  cases l with
  | row i =>
    rw [openCellsOn, openColumns, List.mem_map, mem_openLines]
    constructor
    · rintro ⟨j, hj, rfl⟩
      exact ⟨rfl, mem_openPositions.mp hj⟩
    · rintro ⟨rfl, hj⟩
      exact ⟨c.col, mem_openPositions.mpr hj, rfl⟩
  | column j =>
    rw [openCellsOn, openRows, List.mem_map, mem_openLines]
    constructor
    · rintro ⟨i, hi, rfl⟩
      exact ⟨rfl, mem_openPositions.mp hi⟩
    · rintro ⟨rfl, hi⟩
      exact ⟨c.row, mem_openPositions.mpr hi, rfl⟩

theorem mem_openCells : c ∈ r.openCells tol ↔
    .row c.row ∈ r.openLines tol ∧ .column c.col ∈ r.openLines tol := by
  unfold openCells
  rw [List.mem_flatMap]
  constructor
  · rintro ⟨i, hi, hc⟩
    obtain ⟨rfl, hj⟩ := mem_openCellsOn.mp hc
    exact ⟨mem_openLines.mpr (mem_openPositions.mp hi), hj⟩
  · rintro ⟨hi, hj⟩
    exact ⟨c.row, mem_openPositions.mpr (mem_openLines.mp hi), mem_openCellsOn.mpr ⟨rfl, hj⟩⟩

theorem mem_openLines_of_through (hc : c ∈ r.openCells tol) (hl : l.Through c) :
    l ∈ r.openLines tol := by
  obtain rfl | rfl := hl.eq_or
  · exact (mem_openCells.mp hc).1
  · exact (mem_openCells.mp hc).2

/-! ## One shipment -/

theorem left?_ship (hl : l.Through c) :
    (r.ship c).left? l = (r.left? l).map (· - r.capacity c) := by
  obtain rfl | rfl := hl.eq_or
  · exact List.getElem?_modify_eq _ _ _
  · exact List.getElem?_modify_eq _ _ _

theorem left?_ship_of_not_through (hl : ¬ l.Through c) : (r.ship c).left? l = r.left? l := by
  cases l with
  | row i => exact List.getElem?_modify_ne _ _ hl
  | column j => exact List.getElem?_modify_ne _ _ hl

/-- The remaining quantities of a tableau, all of them finite. -/
structure Sound (r : Remaining α) (m n : Nat) : Prop where
  supply_length : r.supply.length = m
  demand_length : r.demand.length = n
  finite : ∀ l x, r.left? l = some x → Scalar.isFinite x = true

theorem sound_rat (r : Remaining Rat) : r.Sound r.supply.length r.demand.length :=
  ⟨rfl, rfl, fun _ _ _ => rfl⟩

theorem Sound.mem_grid (h : r.Sound m n) (hc : c ∈ r.openCells tol) : c ∈ Cell.grid m n := by
  obtain ⟨hr, hcol⟩ := mem_openCells.mp hc
  obtain ⟨s, hs, -⟩ := mem_openLines.mp hr
  obtain ⟨d, hd, -⟩ := mem_openLines.mp hcol
  refine Cell.mem_grid.mpr ⟨?_, ?_⟩
  · exact h.supply_length ▸ (List.getElem?_eq_some_iff.mp hs).1
  · exact h.demand_length ▸ (List.getElem?_eq_some_iff.mp hd).1

/-- The lines of an open cell are lines of the tableau. -/
theorem Sound.inside (h : r.Sound m n) (hc : c ∈ r.openCells tol) :
    c.row < r.supply.length ∧ c.col < r.demand.length := by
  rw [h.supply_length, h.demand_length]
  exact Cell.mem_grid.mp (h.mem_grid hc)

section Lawful

variable [Scalar.Lawful α] (ht : Scalar.isFinite tol = true) (hpos : 0 ≤ tol)

include ht hpos

namespace Sound

/-- An open cell takes what the poorer of its lines has left. -/
theorem capacity_cases (h : r.Sound m n) (hc : c ∈ r.openCells tol) :
    ∃ s d, r.left? (.row c.row) = some s ∧ r.left? (.column c.col) = some d ∧
      ((r.capacity c = s ∧ s ≤ d) ∨ (r.capacity c = d ∧ d ≤ s)) := by
  obtain ⟨hr, hcol⟩ := mem_openCells.mp hc
  obtain ⟨s, hs, hs'⟩ := mem_openLines.mp hr
  obtain ⟨d, hd, hd'⟩ := mem_openLines.mp hcol
  have fs := h.finite _ _ hs
  have fd := h.finite _ _ hd
  have capacity : r.capacity c = Scalar.positivePart (Scalar.least s d) := by
    have es : r.supply[c.row]? = some s := hs
    have ed : r.demand[c.col]? = some d := hd
    rw [Remaining.capacity, List.getD_eq_getElem?_getD, List.getD_eq_getElem?_getD, es, ed]
    rfl
  have positive : ∀ {x : α}, Scalar.isFinite x = true → tol < x → Scalar.positivePart x = x :=
    fun fx hx => if_pos (Scalar.Lawful.lt_of_le_of_lt Scalar.Lawful.isFinite_zero ht fx hpos hx)
  refine ⟨s, d, hs, hd, ?_⟩
  rw [capacity]
  rcases Scalar.least_cases fs fd with ⟨e, hle⟩ | ⟨e, hle⟩
  · exact .inl ⟨by rw [e, positive fs hs'], hle⟩
  · exact .inr ⟨by rw [e, positive fd hd'], hle⟩

/-- What an open cell takes: more than the tolerance, and no more than any of its lines has. -/
theorem capacity_spec (h : r.Sound m n) (hc : c ∈ r.openCells tol) :
    Scalar.isFinite (r.capacity c) = true ∧ tol < r.capacity c ∧
      ∀ l, l.Through c → ∃ x, r.left? l = some x ∧ r.capacity c ≤ x := by
  obtain ⟨s, d, hs, hd, cases⟩ := h.capacity_cases ht hpos hc
  have fs := h.finite _ _ hs
  have fd := h.finite _ _ hd
  have open_ : ∀ l, l.Through c → ∃ x, r.left? l = some x ∧ tol < x :=
    fun l hl => mem_openLines.mp (mem_openLines_of_through hc hl)
  obtain ⟨s', hs', ts⟩ := open_ _ (Line.through_row c)
  obtain ⟨d', hd', td⟩ := open_ _ (Line.through_column c)
  rw [hs] at hs'
  rw [hd] at hd'
  cases hs'
  cases hd'
  rcases cases with ⟨e, hle⟩ | ⟨e, hle⟩ <;> rw [e]
  · refine ⟨fs, ts, fun l hl => ?_⟩
    obtain rfl | rfl := hl.eq_or
    · exact ⟨s, hs, Scalar.Lawful.le_refl fs⟩
    · exact ⟨d, hd, hle⟩
  · refine ⟨fd, td, fun l hl => ?_⟩
    obtain rfl | rfl := hl.eq_or
    · exact ⟨s, hs, hle⟩
    · exact ⟨d, hd, Scalar.Lawful.le_refl fd⟩

/-- A shipment closes one of its lines. -/
theorem closes (h : r.Sound m n) (hc : c ∈ r.openCells tol) :
    ∃ l, l.Through c ∧ l ∉ (r.ship c).openLines tol := by
  have closed : ∀ l : Line, l.Through c → r.left? l = some (r.capacity c) →
      l ∉ (r.ship c).openLines tol := by
    intro l hl hx hopen
    obtain ⟨y, hy, hlt⟩ := mem_openLines.mp hopen
    rw [left?_ship hl, hx] at hy
    cases hy
    have hlt : tol < r.capacity c - r.capacity c := hlt
    rw [Scalar.Lawful.sub_self (h.finite _ _ hx),
      Scalar.Lawful.lt_iff_not_le ht Scalar.Lawful.isFinite_zero] at hlt
    exact hlt hpos
  obtain ⟨s, d, hs, hd, ⟨e, -⟩ | ⟨e, -⟩⟩ := h.capacity_cases ht hpos hc
  · exact ⟨.row c.row, Line.through_row c, closed _ (Line.through_row c) (e ▸ hs)⟩
  · exact ⟨.column c.col, Line.through_column c, closed _ (Line.through_column c) (e ▸ hd)⟩

theorem ship (h : r.Sound m n) (hc : c ∈ r.openCells tol) : (r.ship c).Sound m n where
  supply_length := (List.length_modify _ _ _).trans h.supply_length
  demand_length := (List.length_modify _ _ _).trans h.demand_length
  finite l x hx := by
    by_cases hl : l.Through c
    · obtain ⟨fc, tc, bound⟩ := h.capacity_spec ht hpos hc
      obtain ⟨y, hy, hle⟩ := bound l hl
      rw [left?_ship hl, hy] at hx
      cases hx
      have zero : 0 ≤ r.capacity c :=
        Scalar.Lawful.le_trans hpos (Scalar.Lawful.le_of_lt ht fc tc)
      exact Scalar.Lawful.isFinite_sub_of_le (h.finite _ _ hy) fc zero hle
    · rw [left?_ship_of_not_through hl] at hx
      exact h.finite l x hx

end Sound

end Lawful

/-- Lines do not open again. -/
theorem openLines_ship_subset (hc : c ∈ r.openCells tol) :
    ∀ l ∈ (r.ship c).openLines tol, l ∈ r.openLines tol := by
  intro l hl
  by_cases ht : l.Through c
  · exact mem_openLines_of_through hc ht
  · obtain ⟨x, hx, hlt⟩ := mem_openLines.mp hl
    rw [left?_ship_of_not_through ht] at hx
    exact mem_openLines.mpr ⟨x, hx, hlt⟩

theorem openCells_ship_subset (hc : c ∈ r.openCells tol) :
    ∀ d ∈ (r.ship c).openCells tol, d ∈ r.openCells tol := by
  intro d hd
  obtain ⟨hr, hcol⟩ := mem_openCells.mp hd
  exact mem_openCells.mpr ⟨openLines_ship_subset hc _ hr, openLines_ship_subset hc _ hcol⟩

/-! ## Runs -/

/-- A greedy run from what is left at first to what is left in the end, with its shipments: each on
an open cell, until no cell is open. -/
inductive Run (tol : α) : Remaining α → List (Shipment α) → Remaining α → Prop where
  | done {r : Remaining α} : r.openCells tol = [] → Run tol r [] r
  /-- A shipment on an open cell, and a run of what it leaves. -/
  | ship {r last : Remaining α} {c : Cell} {ss : List (Shipment α)} : c ∈ r.openCells tol →
      Run tol (r.ship c) ss last → Run tol r (⟨c, r.capacity c⟩ :: ss) last

section Rules

variable {choose : Remaining α → Option (Option Cell)}

theorem shipUpTo?_of_none (h : choose r = some none) (limit : Nat) :
    shipUpTo? choose limit r = some [] := by
  cases limit with
  | zero => rfl
  | succ limit =>
    rw [shipUpTo?, h]
    rfl

theorem shipUpTo?_of_some (h : choose r = some (some c))
    (inside : c.row < r.supply.length ∧ c.col < r.demand.length) (limit : Nat) :
    shipUpTo? choose (limit + 1) r =
      (shipUpTo? choose limit (r.ship c)).map (⟨c, r.capacity c⟩ :: ·) := by
  rw [shipUpTo?, h]
  simp only [Option.bind_eq_bind, Option.bind_some, if_pos inside]
  exact Option.map_eq_bind.symm

/-- Within a limit, a rule is done at once or ships on a cell and goes on. -/
theorem shipUpTo?_cases {limit : Nat} (h : shipUpTo? choose (limit + 1) r = some ss) :
    (choose r = some none ∧ ss = []) ∨ ∃ c rest,
      (c.row < r.supply.length ∧ c.col < r.demand.length) ∧ choose r = some (some c) ∧
        shipUpTo? choose limit (r.ship c) = some rest ∧ ss = ⟨c, r.capacity c⟩ :: rest := by
  rw [shipUpTo?] at h
  obtain ⟨o, eo, h⟩ := Option.bind_eq_some_iff.mp h
  cases o with
  | none =>
    cases h
    exact .inl ⟨eo, rfl⟩
  | some c =>
    dsimp only at h
    split at h
    · next inside =>
      obtain ⟨rest, erest, h⟩ := Option.bind_eq_some_iff.mp h
      cases h
      exact .inr ⟨c, rest, inside, eo, erest, rfl⟩
    · cases h

end Rules

/-- The rule chooses an open cell whenever there is one. -/
def Serves (choose : Remaining α → Option (Option Cell)) (tol : α) (m n : Nat) : Prop :=
  ∀ r : Remaining α, r.Sound m n → ∃ o, choose r = some o ∧
    (o = none → r.openCells tol = []) ∧ ∀ c, o = some c → c ∈ r.openCells tol

theorem Run.mem_openCells (h : Run tol r ss last) : ∀ s ∈ ss, s.cell ∈ r.openCells tol := by
  induction h with
  | done _ => exact fun s hs => absurd hs List.not_mem_nil
  | ship hc _ ih =>
    intro s hs
    rcases List.mem_cons.mp hs with rfl | hs
    · exact hc
    · exact openCells_ship_subset hc _ (ih s hs)

theorem Run.openCells_last (h : Run tol r ss last) : last.openCells tol = [] := by
  induction h with
  | done h => exact h
  | ship _ _ ih => exact ih

section Lawful

variable [Scalar.Lawful α] (ht : Scalar.isFinite tol = true) (hpos : 0 ≤ tol)

include ht hpos

theorem Sound.length_openLines_ship (h : r.Sound m n) (hc : c ∈ r.openCells tol) :
    ((r.ship c).openLines tol).length < (r.openLines tol).length := by
  obtain ⟨l, hl, closed⟩ := h.closes ht hpos hc
  have sub : ∀ k ∈ (r.ship c).openLines tol, k ∈ (r.openLines tol).erase l := by
    intro k hk
    refine (List.mem_erase_of_ne ?_).mpr (openLines_ship_subset hc k hk)
    exact ne_of_mem_of_not_mem hk closed
  have le := ((nodup_openLines (r.ship c) tol).subperm sub).length_le
  rw [List.length_erase_of_mem (mem_openLines_of_through hc hl)] at le
  have := List.length_pos_of_mem (mem_openLines_of_through hc hl)
  omega

/-- As many shipments as there are open lines are enough for a run. -/
theorem Sound.exists_run {choose : Remaining α → Option (Option Cell)}
    (hchoose : Serves choose tol m n) : ∀ (k : Nat) {r : Remaining α}, r.Sound m n →
      (r.openLines tol).length ≤ k → ∃ ss last, shipUpTo? choose k r = some ss ∧ Run tol r ss last
  | 0, r, h, hk => by
    refine ⟨[], r, rfl, .done (List.eq_nil_iff_forall_not_mem.mpr fun c hc => ?_)⟩
    have := List.length_pos_of_mem (Remaining.mem_openCells.mp hc).1
    omega
  | k + 1, r, h, hk => by
    obtain ⟨o, eo, done, picked⟩ := hchoose r h
    cases o with
    | none => exact ⟨[], r, shipUpTo?_of_none eo _, .done (done rfl)⟩
    | some c =>
      have hc := picked c rfl
      have fewer := h.length_openLines_ship ht hpos hc
      obtain ⟨ss, last, e, run⟩ := Sound.exists_run hchoose k (h.ship ht hpos hc) (by omega)
      refine ⟨_, last, ?_, .ship hc run⟩
      rw [shipUpTo?_of_some eo (h.inside hc), e]
      rfl

theorem Run.sound (h : Run tol r ss last) (hr : r.Sound m n) : last.Sound m n := by
  induction h with
  | done _ => exact hr
  | ship hc _ ih => exact ih (hr.ship ht hpos hc)

/-- A run ships on no cell twice, and its cells close no cycle: a shipment closes one of its lines,
so that line has none of the later cells. -/
theorem Run.acyclic (h : Run tol r ss last) (hr : r.Sound m n) :
    (ss.map Shipment.cell).Nodup ∧ Acyclic (ss.map Shipment.cell) := by
  induction h with
  | done _ => exact ⟨List.nodup_nil, acyclic_nil⟩
  | @ship r last c ss hc run ih =>
    obtain ⟨nodup, acyclic⟩ := ih (hr.ship ht hpos hc)
    obtain ⟨l, hl, closed⟩ := hr.closes ht hpos hc
    have isolated : ∀ d ∈ ss.map Shipment.cell, ¬ l.Through d := by
      intro d hd hld
      obtain ⟨s, hs, rfl⟩ := List.mem_map.mp hd
      exact closed (mem_openLines_of_through (run.mem_openCells s hs) hld)
    have new : c ∉ ss.map Shipment.cell := fun hm => isolated c hm hl
    refine ⟨List.nodup_cons.mpr ⟨new, nodup⟩, (acyclic_cons new).mpr ⟨acyclic, fun hcon => ?_⟩⟩
    exact l.crossing_ne c ((hcon.of_through hl).eq_of_isolated isolated)

/-- Every shipment of a run is of more than the tolerance. -/
theorem Run.lt_quantity (h : Run tol r ss last) (hr : r.Sound m n) :
    ∀ s ∈ ss, Scalar.isFinite s.quantity = true ∧ tol < s.quantity := by
  induction h with
  | done _ => exact fun s hs => absurd hs List.not_mem_nil
  | ship hc _ ih =>
    intro s hs
    rcases List.mem_cons.mp hs with rfl | hs
    · obtain ⟨fc, tc, -⟩ := hr.capacity_spec ht hpos hc
      exact ⟨fc, tc⟩
    · exact ih (hr.ship ht hpos hc) s hs

end Lawful

end Remaining

end Freight
