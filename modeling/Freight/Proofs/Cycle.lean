import Freight.Proofs.Circuit

/-!
# Cycles

A marked cell closes a cycle if the other marked cells connect its lines. It is then a cell of a closed
loop of marked cells, and the other way round (`Fits.onCycle_iff`), so forests are the sets of cells
without a closed loop (`Fits.acyclic_iff`).

The tree that a search grows has no cycle (`Grows.acyclic`). A search whose steps are all fresh has
therefore seen a component without a closed loop, and any other step lies on a loop of the component
(`Fits.exists_stale_iff`).
-/

namespace Freight

variable {b : Basis} {m n : Nat} {c d : Cell} {start : Line} {known : List Line} {s : Step}
  {steps : List Step} {loop : List Cell}

/-! ## The cells of a closed loop -/

namespace IsLoop

/-- The cells of a closed loop connect the rows of each other. -/
theorem connected (h : IsLoop loop) (hc : c ∈ loop) (hd : d ∈ loop) :
    Line.Connected loop (.row c.row) (.row d.row) := by
  cases loop with
  | nil => cases hc
  | cons first rest =>
    have closed := h.path_row rfl
    have reach : ∀ x ∈ first :: rest,
        Line.Connected (first :: rest) (.row first.row) (.row x.row) := by
      intro x hx
      have along := closed.mem_along hx (Line.through_row x)
      obtain ⟨es, path, sub⟩ := Line.exists_path_of_mem_along closed along
      exact path.connected sub
    exact (reach c hc).symm.trans (reach d hd)

/-- A cell of a closed loop has its lines connected by the rest of it. -/
theorem connected_others (h : IsLoop loop) (hc : c ∈ loop) :
    Line.Connected (loop.filter (· ≠ c)) (.row c.row) (.column c.col) := by
  have first := List.getElem?_eq_getElem (l := loop) (i := 0)
    (Nat.lt_of_lt_of_le (by decide) h.four_le)
  have closed := h.path_row first
  have nodup := h.nodup
  obtain ⟨left, right, rfl⟩ := List.append_of_mem hc
  have new : c ∉ right ++ left := by
    have := (List.nodup_cons.mp (List.nodup_middle.mp nodup)).1
    simpa [or_comm] using this
  have others : ∀ x ∈ right ++ left, x ∈ (left ++ c :: right).filter (· ≠ c) := by
    intro x hx
    have ne : x ≠ c := ne_of_mem_of_not_mem hx new
    simp only [List.mem_append] at hx
    simp [ne, hx.symm]
  rcases Basis.path_of_rotated closed with around | around
  · exact (around.connected others).symm
  · apply Line.Connected.symm
    apply around.connected
    intro x hx
    exact others x (List.mem_reverse.mp hx)

end IsLoop

/-! ## Cycles and closed loops -/

namespace Basis

namespace Fits

/-- A marked cell closes a cycle exactly if it is a cell of a closed loop of marked cells. -/
theorem onCycle_iff (h : b.Fits m n) :
    b.OnCycle c ↔ ∃ loop, IsLoop loop ∧ c ∈ loop ∧ ∀ d ∈ loop, d ∈ b.cells := by
  constructor
  · rintro ⟨hc, hcon⟩
    -- Without the cell the basis traces a loop for it.
    have grid := h.mem_grid hc
    obtain ⟨b', -, hb', mem⟩ := h.erase? grid
    have vacant : c ∉ b'.cells := fun hm => ((mem c).mp hm).2 rfl
    have connected : Line.Connected b'.cells (.row c.row) (.column c.col) := by
      refine hcon.mono fun d hd => (mem d).mpr ?_
      simpa using List.mem_filter.mp hd
    obtain ⟨path, -, closes⟩ :=
      hb'.exists_loop (α := Unit) (hb'.mem_vacant.mpr ⟨grid, vacant⟩) connected
    refine ⟨c :: path, closes.leads.isLoop (closes.nodup_cons vacant) (closes.three_le vacant),
      List.mem_cons_self, ?_⟩
    intro d hd
    rcases List.mem_cons.mp hd with rfl | hd
    · exact hc
    · exact ((mem d).mp (closes.marked d hd)).1
  · rintro ⟨loop, hloop, hc, marked⟩
    refine ⟨marked c hc, (hloop.connected_others hc).mono fun d hd => ?_⟩
    obtain ⟨hd, ne⟩ := List.mem_filter.mp hd
    exact List.mem_filter.mpr ⟨marked d hd, ne⟩

/-- Marked cells close no cycle exactly if there is no closed loop of them. -/
theorem acyclic_iff (h : b.Fits m n) :
    Acyclic b.cells ↔ ¬ ∃ loop, IsLoop loop ∧ ∀ d ∈ loop, d ∈ b.cells := by
  constructor
  · rintro ha ⟨loop, hloop, marked⟩
    obtain ⟨d, hd, out⟩ := exists_not_mem_of_isLoop ha hloop
    exact out (marked d hd)
  · intro none' c hc hcon
    obtain ⟨loop, hloop, -, marked⟩ := h.onCycle_iff.mp ⟨hc, hcon⟩
    exact none' ⟨loop, hloop, marked⟩

end Fits

/-! ## Loops that a search comes upon -/

namespace Grows

/-- The steps of a growing tree start from its lines. -/
theorem source_mem (h : b.Grows known steps) (hs : s ∈ steps) :
    s.source ∈ known ++ steps.map Step.target := by
  induction steps generalizing known with
  | nil => cases hs
  | cons r steps ih =>
    rcases List.mem_cons.mp hs with rfl | hs
    · exact List.mem_append_left _ h.1.1
    · simpa [List.append_assoc] using ih h.2 hs

/-- A growing tree has no cycle: the line that its last step reaches has no other cell. -/
theorem acyclic (h : b.Grows known steps) : Acyclic (steps.map Step.cell) := by
  induction steps using List.reverseRecOn with
  | nil => exact acyclic_nil
  | append_singleton steps s ih =>
    obtain ⟨grown, ⟨-, target, -, through⟩, -⟩ := grows_append.mp h
    have isolated : ∀ d ∈ steps.map Step.cell, ¬ s.target.Through d := by
      intro d hd hline
      obtain ⟨r, hr, rfl⟩ := List.mem_map.mp hd
      rcases (grown.marked r hr).2.eq_or_crossing hline with e | e
      · exact target (e ▸ grown.source_mem hr)
      · exact target (e ▸ List.mem_append_right _ (List.mem_map_of_mem (f := Step.target) hr))
    have end' : s.target.Through s.cell := Line.through_crossing s.source s.cell
    have new : s.cell ∉ steps.map Step.cell := fun hm => isolated s.cell hm end'
    have apart : ¬ Line.Connected (steps.map Step.cell) (.row s.cell.row) (.column s.cell.col) := by
      intro hcon
      exact s.target.crossing_ne s.cell ((hcon.of_through end').eq_of_isolated isolated)
    refine ((acyclic_cons new).mpr ⟨ih grown, apart⟩).mono fun d hd => ?_
    simpa [or_comm] using hd

end Grows

namespace Fits

/-- A step that is not fresh is along a cell of a closed loop of the component. -/
theorem reachesLoop_of_stale (h : b.Fits m n) (hstart : start.Within m n)
    (hs : s ∈ b.search start) (stale : s.fresh = false) :
    ∃ loop, b.ReachesLoop start loop ∧ s.cell ∈ loop := by
  have state := h.frontier_search hstart
  obtain ⟨loop, hloop, hc, marked⟩ := h.onCycle_iff.mp (state.stale s hs stale)
  have source : Line.Connected b.cells start s.source :=
    (h.mem_reached_iff hstart).mp (state.source s hs)
  obtain ⟨hcell, through⟩ := state.marked s hs
  have row : Line.Connected b.cells start (.row s.cell.row) := by
    rcases through.eq_or_crossing (Line.through_row s.cell) with e | e
    · exact e ▸ source
    · exact e ▸ source.trans (.single hcell through)
  refine ⟨loop, ⟨hloop, marked, fun d hd => ?_⟩, hc⟩
  exact row.trans ((hloop.connected hc hd).mono marked)

/-- The search from a line takes a step that is not fresh exactly if there is a closed loop in the
component of the line. -/
theorem exists_stale_iff (h : b.Fits m n) (hstart : start.Within m n) :
    (∃ s ∈ b.search start, s.fresh = false) ↔ ∃ loop, b.ReachesLoop start loop := by
  constructor
  · rintro ⟨s, hs, stale⟩
    obtain ⟨loop, reaches, -⟩ := h.reachesLoop_of_stale hstart hs stale
    exact ⟨loop, reaches⟩
  · rintro ⟨loop, hloop, marked, connected⟩
    by_contra none'
    have fresh : ∀ s ∈ b.search start, s.fresh = true := by
      intro s hs
      by_contra stale
      exact none' ⟨s, hs, Bool.eq_false_iff.mpr stale⟩
    have grows := h.grows_search hstart
    rw [List.filter_eq_self.mpr fresh] at grows
    -- The search followed every cell of the loop, and these are cells of its tree.
    obtain ⟨d, hd, out⟩ := exists_not_mem_of_isLoop grows.acyclic hloop
    obtain ⟨s, hs, rfl⟩ := h.exists_step hstart (marked d hd) (connected d hd)
    exact out (List.mem_map_of_mem hs)

end Fits

end Basis

end Freight
