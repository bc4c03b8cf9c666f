import Freight.Proofs.Remaining
import Freight.Proofs.Run

/-!
# Greedy starts

Every rule chooses an open cell whenever there is one (`StartRule.serves`), so its shipments are a
greedy run, and they can all be entered in a table (`StartRule.exists_plan?`). The cells in use close
no cycle; the first position of a tableau therefore exists, and it is sound
(`Tableau.Fits.exists_firstPosition`).
-/

namespace Freight

variable {α : Type} [Scalar α] {tol x : α} {m n : Nat} {c : Cell} {cs : List Cell} {t costs : Table α}
  {ss : List (Shipment α)} {r last : Remaining α}

/-! ## The cheapest cell -/

theorem Table.Fits.foldlM_cheaper? (h : costs.Fits m n) : ∀ {cs : List Cell}
    (best : Option (Cell × α)), (∀ c ∈ cs, c ∈ Cell.grid m n) →
      ∃ best', cs.foldlM costs.cheaper? best = some best' ∧
        (best' = none → best = none ∧ cs = []) ∧
        ∀ e, best' = some e → e.1 ∈ cs ∨ best = some e
  | [], best, _ => ⟨best, rfl, fun e => ⟨e, rfl⟩, fun _ he => .inr he⟩
  | c :: cs, best, hs => by
    obtain ⟨x, hx⟩ := h.exists_get? (hs c List.mem_cons_self)
    obtain ⟨next, enext, picked⟩ : ∃ e, costs.cheaper? best c = some (some e) ∧
        (e.1 = c ∨ best = some e) := by
      unfold cheaper?
      rw [hx]
      cases best with
      | none => exact ⟨(c, x), rfl, .inl rfl⟩
      | some e =>
        obtain ⟨b, y⟩ := e
        by_cases hy : y ≤ x
        · exact ⟨(b, y), by simp [hy], .inr rfl⟩
        · exact ⟨(c, x), by simp [hy], .inl rfl⟩
    obtain ⟨best', e, none', some'⟩ :=
      h.foldlM_cheaper? (some next) fun d hd => hs d (List.mem_cons_of_mem c hd)
    refine ⟨best', ?_, fun e' => ?_, fun e' he' => ?_⟩
    · rw [List.foldlM_cons, enext]
      exact e
    · cases (none' e').1
    · rcases some' e' he' with hm | e''
      · exact .inl (List.mem_cons_of_mem c hm)
      · cases e''
        rcases picked with rfl | hb
        · exact .inl List.mem_cons_self
        · exact .inr hb

/-- Among cells of the table there is a cheapest one, unless there is none at all. -/
theorem Table.Fits.exists_cheapest? (h : costs.Fits m n) (hs : ∀ c ∈ cs, c ∈ Cell.grid m n) :
    ∃ o, costs.cheapest? cs = some o ∧ (o = none → cs = []) ∧ ∀ c, o = some c → c ∈ cs := by
  obtain ⟨best, e, none', some'⟩ := h.foldlM_cheaper? none hs
  refine ⟨best.map Prod.fst, by rw [cheapest?, e]; rfl, fun e' => ?_, fun c hc => ?_⟩
  · exact (none' (Option.map_eq_none_iff.mp e')).2
  · obtain ⟨p, hp, rfl⟩ := Option.map_eq_some_iff.mp hc
    exact (some' p hp).resolve_right nofun

/-! ## The line to serve -/

theorem foldl_lowestTwoStep_ne_none (best : α × Option α) (xs : List α) :
    xs.foldl lowestTwoStep (some best) ≠ none := by
  induction xs generalizing best with
  | nil => exact Option.some_ne_none best
  | cons x xs ih =>
    obtain ⟨best', e⟩ : ∃ best', lowestTwoStep (some best) x = some best' := by
      obtain ⟨low, second⟩ := best
      cases second with
      | none =>
        rw [lowestTwoStep]
        split <;> exact ⟨_, rfl⟩
      | some second =>
        rw [lowestTwoStep]
        split
        · exact ⟨_, rfl⟩
        · split <;> exact ⟨_, rfl⟩
    rw [List.foldl_cons, e]
    exact ih best'

/-- A line with an open cell has a penalty. -/
theorem penalty?_eq_none_iff {xs : List α} : penalty? xs = none ↔ xs = [] := by
  cases xs with
  | nil => exact ⟨fun _ => rfl, fun _ => rfl⟩
  | cons x xs =>
    refine ⟨fun h => ?_, nofun⟩
    have some' := foldl_lowestTwoStep_ne_none (Scalar.orInfinite x, none) (xs.map Scalar.orInfinite)
    unfold penalty? at h
    split at h
    · next e => exact absurd e some'
    · cases h
    · cases h

theorem foldl_dearer (tol : α) : ∀ (lines : List (Line × α)) (best : Option (Line × α)),
    (lines.foldl (dearer tol) best = none → best = none ∧ lines = []) ∧
      ∀ e, lines.foldl (dearer tol) best = some e → e ∈ lines ∨ best = some e
  | [], best => ⟨fun e => ⟨e, rfl⟩, fun _ he => .inr he⟩
  | l :: lines, best => by
    obtain ⟨next, enext, picked⟩ : ∃ e, dearer tol best l = some e ∧ (e = l ∨ best = some e) := by
      cases best with
      | none => exact ⟨l, rfl, .inl rfl⟩
      | some b =>
        rw [dearer]
        split
        · exact ⟨b, rfl, .inr rfl⟩
        · exact ⟨l, rfl, .inl rfl⟩
    rw [List.foldl_cons, enext]
    obtain ⟨none', some'⟩ := foldl_dearer tol lines (some next)
    refine ⟨fun e => absurd (none' e).1 (Option.some_ne_none next), fun e he => ?_⟩
    rcases some' e he with hm | e'
    · exact .inl (List.mem_cons_of_mem l hm)
    · cases e'
      rcases picked with rfl | hb
      · exact .inl List.mem_cons_self
      · exact .inr hb

namespace Remaining

theorem mem_openCells_of_mem_openCellsOn {l : Line} (hl : l ∈ r.openLines tol)
    (hc : c ∈ r.openCellsOn tol l) : c ∈ r.openCells tol := by
  obtain ⟨through, crossing⟩ := mem_openCellsOn.mp hc
  rw [mem_openCells]
  obtain rfl | rfl := through.eq_or
  · exact ⟨hl, crossing⟩
  · exact ⟨crossing, hl⟩

/-- While a cell is open, each open line has an open cell. -/
theorem openCellsOn_ne_nil (hc : c ∈ r.openCells tol) (hl : l ∈ r.openLines tol) :
    r.openCellsOn tol l ≠ [] := by
  obtain ⟨row, column⟩ := mem_openCells.mp hc
  cases l with
  | row i => exact List.ne_nil_of_mem (mem_openCellsOn (c := ⟨i, c.col⟩).mpr ⟨rfl, column⟩)
  | column j => exact List.ne_nil_of_mem (mem_openCellsOn (c := ⟨c.row, j⟩).mpr ⟨rfl, row⟩)

theorem Sound.exists_openCosts? (h : r.Sound m n) (hc : costs.Fits m n) {l : Line}
    (hl : l ∈ r.openLines tol) : ∃ xs, r.openCosts? costs tol l = some xs ∧
      (xs = [] ↔ r.openCellsOn tol l = []) := by
  obtain ⟨xs, e⟩ := exists_mapM fun c hm =>
    hc.exists_get? (h.mem_grid (mem_openCells_of_mem_openCellsOn hl hm))
  refine ⟨xs, e, ?_⟩
  rw [← List.length_eq_zero_iff, ← (forall₂_of_mapM e).length_eq, List.length_eq_zero_iff]

/-- The lines with a penalty are the open lines with an open cell. -/
theorem Sound.exists_penalties? (h : r.Sound m n) (hc : costs.Fits m n) (tol : α) :
    ∃ lines, r.penalties? costs tol = some lines ∧ ∀ l, (∃ p, (l, p) ∈ lines) ↔
      l ∈ r.openLines tol ∧ r.openCellsOn tol l ≠ [] := by
  have each : ∀ l ∈ r.openLines tol, ∃ o : Option (Line × α), (do
      let cs ← r.openCosts? costs tol l
      pure ((penalty? cs).map (l, ·)) : Option (Option (Line × α))) = some o := fun l hl => by
    obtain ⟨xs, e, -⟩ := h.exists_openCosts? hc hl
    exact ⟨_, by rw [e]; rfl⟩
  obtain ⟨priced, epriced⟩ := exists_mapM each
  have all := forall₂_of_mapM epriced
  refine ⟨priced.filterMap id, ?_, fun l => ⟨?_, ?_⟩⟩
  · rw [penalties?, epriced]
    rfl
  · rintro ⟨p, hp⟩
    obtain ⟨o, ho, eo⟩ := List.mem_filterMap.mp hp
    cases eo
    obtain ⟨l', hl', el⟩ := exists_of_mem_right all _ ho
    obtain ⟨xs, exs, empty⟩ := h.exists_openCosts? hc hl'
    rw [exs] at el
    obtain ⟨q, hq, e⟩ := Option.map_eq_some_iff.mp (Option.some.inj el)
    cases e
    refine ⟨hl', fun hnil => ?_⟩
    rw [penalty?_eq_none_iff.mpr (empty.mpr hnil)] at hq
    cases hq
  · rintro ⟨hl, ne⟩
    obtain ⟨o, ho, el⟩ := exists_of_mem_left all l hl
    obtain ⟨xs, exs, empty⟩ := h.exists_openCosts? hc hl
    rw [exs] at el
    cases hp : penalty? xs with
    | none => exact absurd (empty.mp (penalty?_eq_none_iff.mp hp)) ne
    | some p =>
      have el : some ((penalty? xs).map (l, ·)) = some o := el
      rw [hp] at el
      cases el
      exact ⟨p, List.mem_filterMap.mpr ⟨_, ho, rfl⟩⟩

end Remaining

/-! ## Every rule serves an open cell -/

namespace StartRule

theorem serves (rule : StartRule) (hc : costs.Fits m n) (tol : α) :
    Remaining.Serves (rule.choose? costs tol) tol m n := by
  intro r h
  cases rule with
  | northWestCorner =>
    refine ⟨_, rfl, List.head?_eq_none_iff.mp, fun c hc => ?_⟩
    exact List.mem_of_mem_head? hc
  | leastCost => exact hc.exists_cheapest? fun c hm => h.mem_grid hm
  | vogel =>
    obtain ⟨lines, elines, mem⟩ := h.exists_penalties? hc tol
    obtain ⟨none', some'⟩ := foldl_dearer tol lines none
    unfold choose? Remaining.dearestLine?
    rw [elines]
    cases e : lines.foldl (dearer tol) none with
    | none =>
      refine ⟨none, by simp [e], fun _ => ?_, nofun⟩
      refine List.eq_nil_iff_forall_not_mem.mpr fun c hm => ?_
      obtain ⟨hr, hcol⟩ := Remaining.mem_openCells.mp hm
      obtain ⟨p, hp⟩ := (mem _).mpr ⟨hr, List.ne_nil_of_mem
        (Remaining.mem_openCellsOn.mpr ⟨Line.through_row c, hcol⟩)⟩
      rw [(none' e).2] at hp
      cases hp
    | some best =>
      obtain ⟨l, p⟩ := best
      obtain ⟨hl, ne⟩ := (mem l).mp ⟨p, (some' _ e).resolve_right nofun⟩
      have inside : ∀ c ∈ r.openCellsOn tol l, c ∈ r.openCells tol :=
        fun c hm => Remaining.mem_openCells_of_mem_openCellsOn hl hm
      obtain ⟨o, eo, empty, picked⟩ := hc.exists_cheapest? fun c hm => h.mem_grid (inside c hm)
      refine ⟨o, by simp [e, eo], fun eo' => absurd (empty eo') ne, fun c hm => ?_⟩
      exact inside c (picked c hm)

end StartRule

/-! ## Entering the shipments -/

/-- Entering shipments on different cells: each cell gains its quantity, the others keep theirs. -/
theorem Table.Fits.exists_receive? : ∀ {ss : List (Shipment α)} {t : Table α}, t.Fits m n →
    (∀ s ∈ ss, s.cell ∈ Cell.grid m n) → (ss.map Shipment.cell).Nodup →
    ∃ u, t.receive? ss = some u ∧ u.Fits m n ∧
      (∀ d ∈ Cell.grid m n, d ∉ ss.map Shipment.cell → u.get? d = t.get? d) ∧
      ∀ s ∈ ss, u.get? s.cell = (t.get? s.cell).map (· + s.quantity)
  | [], t, ht, _, _ => ⟨t, rfl, ht, fun _ _ _ => rfl, fun _ hs => absurd hs List.not_mem_nil⟩
  | s :: ss, t, ht, hs, hn => by
    have hc := hs s List.mem_cons_self
    have hs' : ∀ s' ∈ ss, s'.cell ∈ Cell.grid m n := fun s' h => hs s' (List.mem_cons_of_mem s h)
    obtain ⟨new, hn'⟩ := List.nodup_cons.mp hn
    obtain ⟨t₁, e₁, ht₁, get₁⟩ := ht.exists_modify? hc (· + s.quantity)
    obtain ⟨u, e, hu, keep, gain⟩ := Table.Fits.exists_receive? ht₁ hs' hn'
    refine ⟨u, ?_, hu, fun d hd hout => ?_, fun s' hm => ?_⟩
    · rw [receive?, List.foldlM_cons, e₁]
      exact e
    · simp only [List.map_cons, List.mem_cons, not_or] at hout
      rw [keep d hd hout.2, get₁ d hd, if_neg hout.1]
    · rcases List.mem_cons.mp hm with rfl | hm
      · rw [keep _ hc new, get₁ _ hc, if_pos rfl]
      · have ne : s'.cell ≠ s.cell := fun e => new (e ▸ List.mem_map_of_mem hm)
        rw [gain s' hm, get₁ _ (hs' s' hm), if_neg ne]

/-- A table holds the shipments of a run, and nothing else. -/
structure Table.Holds (t : Table α) (ss : List (Shipment α)) (m n : Nat) : Prop where
  fits : t.Fits m n
  shipped : ∀ s ∈ ss, t.get? s.cell = some s.quantity
  empty : ∀ d ∈ Cell.grid m n, d ∉ ss.map Shipment.cell → t.get? d = some 0

/-- A plan is what the shipments make of an empty table. -/
theorem StartRule.plan?_eq {rule : StartRule} {supply demand : List α}
    (h : rule.shipments? supply demand costs tol = some ss) :
    rule.plan? supply demand costs tol = (Table.fill costs.rows costs.cols 0).receive? ss := by
  rw [plan?, h]
  rfl

section Lawful

variable [Scalar.Lawful α] (ht : Scalar.isFinite tol = true) (hpos : 0 ≤ tol)

include ht hpos

/-- The shipments of a greedy run can be entered in an empty table. -/
theorem Remaining.Run.exists_receive? (run : Remaining.Run tol r ss last) (hr : r.Sound m n) :
    ∃ allocation, (Table.fill m n 0).receive? ss = some allocation ∧ allocation.Holds ss m n := by
  have inside : ∀ s ∈ ss, s.cell ∈ Cell.grid m n := fun s hs => hr.mem_grid (run.mem_openCells s hs)
  obtain ⟨allocation, e, fits, keep, gain⟩ :=
    (Table.fits_fill m n (0 : α)).exists_receive? inside (run.acyclic ht hpos hr).1
  have zero : ∀ d ∈ Cell.grid m n, (Table.fill m n (0 : α)).get? d = some 0 := fun d hd =>
    Table.get?_fill (Cell.mem_grid.mp hd).1 (Cell.mem_grid.mp hd).2
  refine ⟨allocation, e, fits, fun s hs => ?_, fun d hd hout => ?_⟩
  · obtain ⟨fq, lt⟩ := run.lt_quantity ht hpos hr s hs
    have pos : 0 < s.quantity := Scalar.Lawful.lt_of_le_of_lt Scalar.Lawful.isFinite_zero ht fq hpos lt
    rw [gain s hs, zero _ (inside s hs)]
    exact congrArg some (Scalar.Lawful.zero_add_of_pos fq pos)
  · rw [keep d hd hout, zero d hd]

/-- A rule's shipments are a greedy run, and its plan holds them. -/
theorem StartRule.exists_plan? (rule : StartRule) {supply demand : List α}
    (hr : (Remaining.mk supply demand).Sound m n) (hc : costs.Fits m n) :
    ∃ ss last allocation, Remaining.Run tol ⟨supply, demand⟩ ss last ∧
      rule.plan? supply demand costs tol = some allocation ∧ allocation.Holds ss m n := by
  obtain ⟨ss, last, e, run⟩ := hr.exists_run ht hpos (rule.serves hc tol) _ (Nat.le_refl _)
  obtain ⟨allocation, e', holds⟩ := run.exists_receive? ht hpos hr
  have made : rule.shipments? supply demand costs tol = some ss := e
  refine ⟨ss, last, allocation, run, ?_, holds⟩
  rw [plan?_eq made, hc.rows_eq, hc.cols_eq]
  exact e'

/-- The cells in use after a greedy run are the cells that it shipped on. -/
theorem Table.Holds.mem_loaded (h : t.Holds ss m n) (run : Remaining.Run tol r ss last)
    (hr : r.Sound m n) : c ∈ t.loaded tol ↔ c ∈ ss.map Shipment.cell := by
  unfold Table.loaded
  rw [Table.mem_cellsWhere h.fits.wellFormed, h.fits.cells_eq]
  constructor
  · rintro ⟨hc, x, hx, lt⟩
    by_contra hout
    rw [h.empty c hc hout] at hx
    cases hx
    have lt : tol < 0 := of_decide_eq_true lt
    exact (Scalar.Lawful.lt_iff_not_le ht Scalar.Lawful.isFinite_zero).mp lt hpos
  · intro hm
    obtain ⟨s, hs, rfl⟩ := List.mem_map.mp hm
    refine ⟨hr.mem_grid (run.mem_openCells s hs), s.quantity, h.shipped s hs, ?_⟩
    exact decide_eq_true (run.lt_quantity ht hpos hr s hs).2

theorem Table.Holds.finite (h : t.Holds ss m n) (run : Remaining.Run tol r ss last)
    (hr : r.Sound m n) (hc : c ∈ Cell.grid m n) (hx : t.get? c = some x) :
    Scalar.isFinite x = true := by
  by_cases hm : c ∈ ss.map Shipment.cell
  · obtain ⟨s, hs, rfl⟩ := List.mem_map.mp hm
    rw [h.shipped s hs] at hx
    cases hx
    exact (run.lt_quantity ht hpos hr s hs).1
  · rw [h.empty c hc hm] at hx
    cases hx
    exact Scalar.Lawful.isFinite_zero

/-- The first position of a tableau with finite supplies and demands: it holds the shipments of a
greedy run, on a spanning tree over their cells. -/
theorem Tableau.Fits.exists_firstPosition {t : Tableau α} (h : t.Fits m n)
    (hr : (Remaining.mk t.supply t.demand).Sound m n) (rule : StartRule) :
    ∃ ss last p, Remaining.Run tol ⟨t.supply, t.demand⟩ ss last ∧
      t.firstPosition rule tol = .ok p ∧ p.Sound m n ∧ p.allocation.Holds ss m n ∧
      ∀ s ∈ ss, s.cell ∈ p.basis.cells := by
  obtain ⟨ss, last, allocation, run, eplan, holds⟩ := rule.exists_plan? ht hpos hr h.costs
  obtain ⟨b, eb, hb, cells⟩ := Basis.exists_ofLoaded? holds.fits.wellFormed tol
  rw [holds.fits.rows_eq, holds.fits.cols_eq] at hb
  have acyclic : Acyclic b.cells := (run.acyclic ht hpos hr).2.mono fun c hc =>
    (holds.mem_loaded ht hpos run hr).mp ((cells c).mp hc)
  obtain ⟨b', k, er, hb', tree, old⟩ := hb.exists_repair h.rows_pos h.cols_pos acyclic
  refine ⟨ss, last, ⟨allocation, b'⟩, run, ?_, ⟨holds.fits, hb', tree, fun c hc q hq => ?_⟩,
    holds, fun s hs => ?_⟩
  · unfold firstPosition
    simp only [eplan, eb, er, within, bind, Except.bind, Except.mapError]
    rfl
  · exact holds.finite ht hpos run hr hc hq
  · refine old _ ((cells _).mpr ((holds.mem_loaded ht hpos run hr).mpr ?_))
    exact List.mem_map_of_mem hs

end Lawful

end Freight
