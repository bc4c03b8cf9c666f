import Freight.Basis.Loop
import Freight.Proofs.Repair

/-!
# What the search reaches

The search is followed through its states (`Basis.Frontier`): the lines that are done, the queue,
and the steps taken so far. A state's fresh steps grow a tree from the start (`Basis.Grows`); every
marked cell on a line that is done has been stepped along; and a step that is not fresh lies on a
cycle. Taking the next line from the queue keeps all this (`Frontier.next`), and the budget of the
search lasts until the queue is empty (`Frontier.exhaust`).

Main statements, about a whole search: its fresh steps reach exactly the lines connected with the
start (`Fits.mem_reached_iff`), so these are all lines if there are enough of them
(`Fits.length_reached_iff`); every cell between them is the cell of some step (`Fits.exists_step`);
and without cycles all steps are fresh (`Fits.fresh_of_acyclic`).
-/

namespace Freight

namespace Basis

variable {b : Basis} {m n : Nat} {c d : Cell} {l start : Line} {s : Step} {steps xs ys : List Step}
  {known done : List Line} {queue : List (Line × Option Cell)} {via : Option Cell}

/-! ## The marked cells of a line -/

theorem Fits.mem_cellsOn (h : b.Fits m n) (hl : l.Within m n) :
    c ∈ b.cellsOn l ↔ c ∈ b.cells ∧ l.Through c := by
  cases l with
  | row i =>
    rw [cellsOn, List.mem_filter, List.mem_map, h.cols_eq]
    constructor
    · rintro ⟨⟨j, hj, rfl⟩, hc⟩
      have hg : Cell.mk i j ∈ Cell.grid m n := Cell.mem_grid.mpr ⟨hl, List.mem_range.mp hj⟩
      exact ⟨(h.contains_iff hg).mp hc, rfl⟩
    · rintro ⟨hc, rfl⟩
      exact ⟨⟨c.col, List.mem_range.mpr (h.within hc).2, rfl⟩, h.contains_of_mem hc⟩
  | column j =>
    rw [cellsOn, List.mem_filter, List.mem_map, h.rows_eq]
    constructor
    · rintro ⟨⟨i, hi, rfl⟩, hc⟩
      have hg : Cell.mk i j ∈ Cell.grid m n := Cell.mem_grid.mpr ⟨List.mem_range.mp hi, hl⟩
      exact ⟨(h.contains_iff hg).mp hc, rfl⟩
    · rintro ⟨hc, rfl⟩
      exact ⟨⟨c.row, List.mem_range.mpr (h.within hc).1, rfl⟩, h.contains_of_mem hc⟩

theorem nodup_cellsOn (b : Basis) (l : Line) : (b.cellsOn l).Nodup := by
  cases l with
  | row i => exact (List.nodup_range.map fun j j' e => congrArg Cell.col e).filter _
  | column j => exact (List.nodup_range.map fun i i' e => congrArg Cell.row e).filter _

theorem Fits.mem_stepsFrom (h : b.Fits m n) (hl : l.Within m n) :
    s ∈ b.stepsFrom l via known ↔ s.source = l ∧ s.cell ∈ b.cells ∧ l.Through s.cell ∧
      via ≠ some s.cell ∧ s.fresh = decide (l.crossing s.cell ∉ known) := by
  unfold stepsFrom
  rw [List.mem_map]
  constructor
  · rintro ⟨c, hc, rfl⟩
    obtain ⟨hc, hv⟩ := List.mem_filter.mp hc
    obtain ⟨hb, ht⟩ := (h.mem_cellsOn hl).mp hc
    exact ⟨rfl, hb, ht, by simpa using hv, rfl⟩
  · rintro ⟨hs, hb, ht, hv, hf⟩
    refine ⟨s.cell, List.mem_filter.mpr ⟨(h.mem_cellsOn hl).mpr ⟨hb, ht⟩, by simpa using hv⟩, ?_⟩
    rw [← hf, ← hs]

/-! ## Growing trees -/

/-- Each step leads from a line reached before along a marked cell to a line not reached before. -/
def Grows (b : Basis) : List Line → List Step → Prop
  | _, [] => True
  | known, s :: rest =>
    (s.source ∈ known ∧ s.target ∉ known ∧ s.cell ∈ b.cells ∧ s.source.Through s.cell) ∧
      b.Grows (known ++ [s.target]) rest

theorem grows_append : ∀ {known : List Line} {xs : List Step}, b.Grows known (xs ++ ys) ↔
    b.Grows known xs ∧ b.Grows (known ++ xs.map Step.target) ys
  | known, [] => by simp [Grows]
  | known, s :: xs => by
    simp only [List.cons_append, Grows, grows_append, List.map_cons, and_assoc,
      List.append_assoc, List.nil_append]

namespace Grows

/-- Steps from reached lines to different new ones grow a tree. -/
theorem of_sources : ∀ {xs : List Step} {known : List Line},
    (∀ s ∈ xs, s.source ∈ known ∧ s.target ∉ known ∧ s.cell ∈ b.cells ∧
      s.source.Through s.cell) → (xs.map Step.target).Nodup → b.Grows known xs
  | [], _, _, _ => trivial
  | s :: xs, known, h, hn => by
    rw [List.map_cons, List.nodup_cons] at hn
    refine ⟨h s List.mem_cons_self, of_sources (fun r hr => ?_) hn.2⟩
    obtain ⟨h₁, h₂, h₃⟩ := h r (List.mem_cons_of_mem s hr)
    refine ⟨List.mem_append_left _ h₁, fun hm => ?_, h₃⟩
    rcases List.mem_append.mp hm with hm | hm
    · exact h₂ hm
    · rw [List.mem_singleton] at hm
      exact hn.1 (hm ▸ List.mem_map_of_mem hr)

theorem nodup : ∀ {xs : List Step} {known : List Line}, b.Grows known xs → known.Nodup →
    (known ++ xs.map Step.target).Nodup
  | [], _, _, hr => by simpa using hr
  | s :: xs, known, h, hr => by
    have new : (known ++ [s.target]).Nodup := by
      rw [List.nodup_append]
      refine ⟨hr, List.nodup_singleton _, fun k hk l hl e => ?_⟩
      rw [List.mem_singleton] at hl
      exact h.1.2.1 (hl ▸ e ▸ hk)
    simpa [List.append_assoc] using h.2.nodup new

theorem marked : ∀ {xs : List Step} {known : List Line}, b.Grows known xs →
    ∀ s ∈ xs, s.cell ∈ b.cells ∧ s.source.Through s.cell
  | s :: xs, known, h, r, hr => by
    rcases List.mem_cons.mp hr with rfl | hr
    · exact h.1.2.2
    · exact h.2.marked r hr

/-- Every line of the tree is connected with one it grew from, along the cells of its steps. -/
theorem connected : ∀ {xs : List Step} {known : List Line}, b.Grows known xs →
    ∀ l ∈ known ++ xs.map Step.target,
      ∃ k ∈ known, Line.Connected (xs.map Step.cell) k l
  | [], known, _, l, hl => ⟨l, by simpa using hl, .refl⟩
  | s :: xs, known, h, l, hl => by
    have hl' : l ∈ (known ++ [s.target]) ++ xs.map Step.target := by
      simpa [List.append_assoc] using hl
    obtain ⟨k, hk, hcon⟩ := h.2.connected l hl'
    have hcon' : Line.Connected ((s :: xs).map Step.cell) k l :=
      hcon.mono fun c hc => List.mem_cons_of_mem _ hc
    rcases List.mem_append.mp hk with hk | hk
    · exact ⟨k, hk, hcon'⟩
    · rw [List.mem_singleton] at hk
      subst hk
      exact ⟨s.source, h.1.1, (Line.Connected.single List.mem_cons_self h.1.2.2.2).trans hcon'⟩

/-- Different steps use different cells: a later one ends outside the lines of an earlier one. -/
theorem nodup_cells : ∀ {xs : List Step} {known : List Line}, b.Grows known xs →
    (xs.map Step.cell).Nodup ∧ ∀ s ∈ xs, s.target ∉ known
  | [], _, _ => ⟨List.nodup_nil, fun _ hs => absurd hs List.not_mem_nil⟩
  | s :: xs, known, h => by
    obtain ⟨hn, hout⟩ := h.2.nodup_cells
    refine ⟨List.nodup_cons.mpr ⟨fun hm => ?_, hn⟩, fun r hr => ?_⟩
    · obtain ⟨r, hr, e⟩ := List.mem_map.mp hm
      have away := hout r hr
      have through : r.target.Through s.cell := e ▸ Line.through_crossing r.source r.cell
      -- The later step ends on a line of `s.cell`, and both of these were reached.
      rcases h.1.2.2.2.eq_or_crossing through with e' | e'
      · exact away (e' ▸ List.mem_append_left _ h.1.1)
      · exact away (e' ▸ List.mem_append_right _ List.mem_cons_self)
    · rcases List.mem_cons.mp hr with rfl | hr
      · exact h.1.2.1
      · exact fun hm => hout r hr (List.mem_append_left _ hm)

end Grows

/-! ## States of the search -/

/-- A marked cell closes a cycle with other ones. -/
def OnCycle (b : Basis) (c : Cell) : Prop :=
  c ∈ b.cells ∧ Line.Connected (b.cells.filter (· ≠ c)) (.row c.row) (.column c.col)

theorem OnCycle.not_acyclic (h : b.OnCycle c) : ¬ Acyclic b.cells := fun ha => ha c h.1 h.2

/-- A state of the search from a line: the steps taken, the lines that are done, and the queue. -/
structure Frontier (b : Basis) (start : Line) (steps : List Step) (done : List Line)
    (queue : List (Line × Option Cell)) : Prop where
  grows : b.Grows [start] (steps.filter Step.fresh)
  /-- Every line of the tree is done or waits in the queue. -/
  lines : done ++ queue.map Prod.fst = start :: (steps.filter Step.fresh).map Step.target
  source : ∀ s ∈ steps, s.source ∈ done
  marked : ∀ s ∈ steps, s.cell ∈ b.cells ∧ s.source.Through s.cell
  target : ∀ s ∈ steps, s.target ∈ done ++ queue.map Prod.fst
  /-- A line waits with the cell of the fresh step that reached it. -/
  via : ∀ l v, (l, v) ∈ queue →
    ∀ c, v = some c ↔ ∃ s ∈ steps, s.fresh = true ∧ s.target = l ∧ s.cell = c
  /-- The marked cells of a line that is done have been followed. -/
  covered : ∀ l ∈ done, ∀ c ∈ b.cells, l.Through c → ∃ s ∈ steps, s.cell = c
  /-- A step that is not fresh lies on a cycle. -/
  stale : ∀ s ∈ steps, s.fresh = false → b.OnCycle s.cell

theorem frontier_start (b : Basis) (start : Line) : b.Frontier start [] [] [(start, none)] where
  grows := trivial
  lines := rfl
  source s hs := absurd hs List.not_mem_nil
  marked s hs := absurd hs List.not_mem_nil
  target s hs := absurd hs List.not_mem_nil
  via l v hv c := by
    rw [List.mem_singleton] at hv
    cases hv
    simp
  covered l hl := absurd hl List.not_mem_nil
  stale s hs := absurd hs List.not_mem_nil

namespace Frontier

theorem nodup (h : b.Frontier start steps done queue) : (done ++ queue.map Prod.fst).Nodup := by
  rw [h.lines]
  exact h.grows.nodup (List.nodup_singleton start)

theorem within (h : b.Frontier start steps done queue) (hb : b.Fits m n)
    (hs : start.Within m n) (hl : l ∈ done ++ queue.map Prod.fst) : l.Within m n := by
  rw [h.lines] at hl
  rcases List.mem_cons.mp hl with rfl | hl
  · exact hs
  · obtain ⟨s, hm, rfl⟩ := List.mem_map.mp hl
    obtain ⟨hr, hc⟩ := hb.within (h.marked s (List.mem_filter.mp hm).1).1
    exact .crossing hr hc _

/-- Any two lines of the tree are connected along its steps. -/
theorem connected (h : b.Frontier start steps done queue) {k : Line}
    (hk : k ∈ done ++ queue.map Prod.fst) (hl : l ∈ done ++ queue.map Prod.fst) :
    Line.Connected ((steps.filter Step.fresh).map Step.cell) k l := by
  have root : ∀ l ∈ done ++ queue.map Prod.fst,
      Line.Connected ((steps.filter Step.fresh).map Step.cell) start l := by
    intro l hl
    rw [h.lines] at hl
    obtain ⟨k, hk, hcon⟩ := h.grows.connected l hl
    rw [List.mem_singleton] at hk
    exact hk ▸ hcon
  exact (root k hk).symm.trans (root l hl)

section Next

variable (h : b.Frontier start steps done ((l, via) :: queue)) (hb : b.Fits m n)
  (hs : start.Within m n)

include h

theorem head_not_mem : l ∉ done := fun hd =>
  (List.nodup_append.mp h.nodup).2.2 l hd l List.mem_cons_self rfl

/-- A cell of the line at the head that was followed already is the one it was reached by. -/
theorem eq_via_of_mem (hm : s ∈ steps.filter Step.fresh) (hl : l.Through s.cell) :
    via = some s.cell := by
  obtain ⟨hm, hf⟩ := List.mem_filter.mp hm
  have away : s.source ≠ l := fun e => h.head_not_mem (e ▸ h.source s hm)
  have arrive : s.target = l :=
    ((h.marked s hm).2.eq_or_crossing hl).elim (fun e => absurd e.symm away) Eq.symm
  exact (h.via l via List.mem_cons_self s.cell).mpr ⟨s, hm, hf, arrive, rfl⟩

include hb hs

theorem head_within : l.Within m n :=
  h.within hb hs (List.mem_append_right _ List.mem_cons_self)

/-- A step from the line at the head that is not fresh lies on a cycle: the tree connects the
cell's lines without it. -/
theorem onCycle_of_stale
    (hm : s ∈ b.stepsFrom l via (done ++ l :: queue.map Prod.fst)) (hf : s.fresh = false) :
    b.OnCycle s.cell := by
  obtain ⟨-, hc, ht, hv, hfresh⟩ := (hb.mem_stepsFrom (h.head_within hb hs)).mp hm
  rw [hf] at hfresh
  have old : l.crossing s.cell ∈ done ++ l :: queue.map Prod.fst := by
    simpa using hfresh.symm
  have tree := h.connected (List.mem_append_right _ List.mem_cons_self) old
  have others : Line.Connected (b.cells.filter (· ≠ s.cell)) l (l.crossing s.cell) := by
    refine tree.mono fun d hd => ?_
    obtain ⟨r, hr, rfl⟩ := List.mem_map.mp hd
    refine List.mem_filter.mpr ⟨(h.marked r (List.mem_filter.mp hr).1).1, ?_⟩
    have ne : r.cell ≠ s.cell := fun e =>
      hv (e ▸ h.eq_via_of_mem hr (e ▸ ht))
    simpa using ne
  refine ⟨hc, ?_⟩
  obtain e | e := ht.eq_or
  · rw [e] at others
    exact others
  · rw [e] at others
    exact others.symm

/-- Fresh steps from the line at the head lead to different lines. -/
theorem nodup_targets :
    (((b.stepsFrom l via (done ++ l :: queue.map Prod.fst)).filter Step.fresh).map
      Step.target).Nodup := by
  have hl := h.head_within hb hs
  have cells : ((b.stepsFrom l via (done ++ l :: queue.map Prod.fst)).map Step.cell).Nodup := by
    unfold stepsFrom
    rw [List.map_map]
    have : (Step.cell ∘ fun c => (⟨l, c, decide (l.crossing c ∉ done ++ l :: queue.map Prod.fst)⟩ :
        Step)) = id := rfl
    rw [this, List.map_id]
    exact (b.nodup_cellsOn l).filter _
  refine List.Nodup.map_on (fun r hr s hs e => ?_) ((List.Nodup.of_map _ cells).filter _)
  have hr' := (List.mem_filter.mp hr).1
  have hs' := (List.mem_filter.mp hs).1
  obtain ⟨er, -, tr, -, fr⟩ := (hb.mem_stepsFrom hl).mp hr'
  obtain ⟨es, -, ts, -, fs⟩ := (hb.mem_stepsFrom hl).mp hs'
  have same : r.cell = s.cell := by
    unfold Step.target at e
    rw [er, es] at e
    exact tr.eq_of_crossing_eq ts e
  exact List.inj_on_of_nodup_map cells hr' hs' same

omit hb hs in
/-- A line that waits after the steps from the head waits with the cell of its fresh step. -/
theorem via_next {new : List Step} {k : Line} {v : Option Cell} {c : Cell}
    (through : ∀ s ∈ new, s.source = l ∧ l.Through s.cell)
    (fresh : ∀ s ∈ new, s.fresh = true → s.target ∉ done ++ l :: queue.map Prod.fst)
    (hk : (k, v) ∈ queue ++ (new.filter Step.fresh).map fun s => (s.target, some s.cell)) :
    v = some c ↔ ∃ s ∈ steps ++ new, s.fresh = true ∧ s.target = k ∧ s.cell = c := by
  rcases List.mem_append.mp hk with hk | hk
  · rw [h.via k v (List.mem_cons_of_mem _ hk) c]
    constructor
    · rintro ⟨s, hs, rest⟩
      exact ⟨s, List.mem_append_left _ hs, rest⟩
    · rintro ⟨s, hs, hf, ht, hc⟩
      rcases List.mem_append.mp hs with hs | hs
      · exact ⟨s, hs, hf, ht, hc⟩
      · refine absurd ?_ (fresh s hs hf)
        rw [ht]
        exact List.mem_append_right _ (List.mem_cons_of_mem _ (List.mem_map_of_mem (f := Prod.fst) hk))
  · obtain ⟨r, hr, e⟩ := List.mem_map.mp hk
    obtain ⟨hr, hrf⟩ := List.mem_filter.mp hr
    cases e
    constructor
    · intro e
      cases e
      exact ⟨r, List.mem_append_right _ hr, hrf, rfl, rfl⟩
    · rintro ⟨s, hs, hf, ht, rfl⟩
      rcases List.mem_append.mp hs with hs | hs
      · exact absurd (ht ▸ h.target s hs) (fresh r hr hrf)
      · obtain ⟨er, tr⟩ := through r hr
        obtain ⟨es, ts⟩ := through s hs
        unfold Step.target at ht
        rw [er, es] at ht
        rw [tr.eq_of_crossing_eq ts ht.symm]

omit hb hs in
/-- After the steps from the head its cells have been followed as well. -/
theorem covered_next {new : List Step} {k : Line} {c : Cell}
    (all : ∀ c ∈ b.cells, l.Through c → via ≠ some c → ∃ s ∈ new, s.cell = c)
    (hk : k ∈ done ++ [l]) (hc : c ∈ b.cells) (ht : k.Through c) :
    ∃ s ∈ steps ++ new, s.cell = c := by
  rcases List.mem_append.mp hk with hk | hk
  · obtain ⟨s, hs, e⟩ := h.covered k hk c hc ht
    exact ⟨s, List.mem_append_left _ hs, e⟩
  · rw [List.mem_singleton] at hk
    subst hk
    by_cases hv : via = some c
    · obtain ⟨s, hs, -, -, e⟩ := (h.via k via List.mem_cons_self c).mp hv
      exact ⟨s, List.mem_append_left _ hs, e⟩
    · obtain ⟨s, hs, e⟩ := all c hc ht hv
      exact ⟨s, List.mem_append_right _ hs, e⟩

/-- Taking the line at the head from the queue: the state after the steps from it. -/
theorem next :
    let new := b.stepsFrom l via (done ++ l :: queue.map Prod.fst)
    b.Frontier start (steps ++ new) (done ++ [l])
      (queue ++ (new.filter Step.fresh).map fun s => (s.target, some s.cell)) := by
  intro new
  have hl := h.head_within hb hs
  have mem_new : ∀ {s}, s ∈ new ↔ s.source = l ∧ s.cell ∈ b.cells ∧ l.Through s.cell ∧
      via ≠ some s.cell ∧ s.fresh = decide (l.crossing s.cell ∉ done ++ l :: queue.map Prod.fst) :=
    hb.mem_stepsFrom hl
  have fresh_iff : ∀ s ∈ new, s.fresh = true ↔ s.target ∉ done ++ l :: queue.map Prod.fst := by
    intro s hs
    obtain ⟨e, -, -, -, fresh⟩ := mem_new.mp hs
    rw [fresh, decide_eq_true_iff, Step.target, e]
  have lines' : done ++ [l] ++ (queue ++ (new.filter Step.fresh).map fun s =>
      (s.target, some s.cell)).map Prod.fst =
      (done ++ l :: queue.map Prod.fst) ++ (new.filter Step.fresh).map Step.target := by
    simp [List.append_assoc, Function.comp_def]
  have old : done ++ l :: queue.map Prod.fst =
      [start] ++ (steps.filter Step.fresh).map Step.target := h.lines
  refine ⟨?_, ?_, ?_, ?_, ?_, ?_, ?_, ?_⟩
  · rw [List.filter_append, grows_append]
    refine ⟨h.grows, .of_sources (fun s hs => ?_) (h.nodup_targets hb hs)⟩
    obtain ⟨hs, hf⟩ := List.mem_filter.mp hs
    obtain ⟨e, hc, ht, -⟩ := mem_new.mp hs
    rw [← old]
    refine ⟨?_, (fresh_iff s hs).mp hf, hc, e ▸ ht⟩
    rw [e]
    exact List.mem_append_right _ List.mem_cons_self
  · rw [lines', List.filter_append, List.map_append, old]
    rfl
  · intro s hs
    rcases List.mem_append.mp hs with hs | hs
    · exact List.mem_append_left _ (h.source s hs)
    · rw [(mem_new.mp hs).1]
      exact List.mem_append_right _ List.mem_cons_self
  · intro s hs
    rcases List.mem_append.mp hs with hs | hs
    · exact h.marked s hs
    · obtain ⟨e, hc, ht, -⟩ := mem_new.mp hs
      exact ⟨hc, e ▸ ht⟩
  · intro s hs
    rw [lines']
    rcases List.mem_append.mp hs with hs | hs
    · exact List.mem_append_left _ (h.target s hs)
    · by_cases hf : s.fresh = true
      · exact List.mem_append_right _ (List.mem_map_of_mem (List.mem_filter.mpr ⟨hs, hf⟩))
      · rw [fresh_iff s hs, not_not] at hf
        exact List.mem_append_left _ hf
  · intro k v hk c
    refine h.via_next (fun s hs => ?_) (fun s hs hf => (fresh_iff s hs).mp hf) hk
    obtain ⟨e, -, ht, -⟩ := mem_new.mp hs
    exact ⟨e, ht⟩
  · intro k hk c hc ht
    refine h.covered_next (fun c hc ht hv => ?_) hk hc ht
    exact ⟨⟨l, c, decide (l.crossing c ∉ done ++ l :: queue.map Prod.fst)⟩,
      mem_new.mpr ⟨rfl, hc, ht, hv, rfl⟩, rfl⟩
  · intro s hs hf
    rcases List.mem_append.mp hs with hs | hs
    · exact h.stale s hs hf
    · exact h.onCycle_of_stale hb ‹_› hs hf

end Next

/-- The lines of a state are at most as many as the tableau has. -/
theorem length_le (h : b.Frontier start steps done queue) (hb : b.Fits m n)
    (hs : start.Within m n) : (done ++ queue.map Prod.fst).length ≤ m + n := by
  have nodup : ((done ++ queue.map Prod.fst).map (Line.index m)).Nodup :=
    List.Nodup.map_on (fun k hk l hl e =>
      Line.index_inj (h.within hb hs hk) (h.within hb hs hl) e) h.nodup
  have sub : (done ++ queue.map Prod.fst).map (Line.index m) ⊆ List.range (m + n) := by
    intro x hx
    obtain ⟨l, hl, rfl⟩ := List.mem_map.mp hx
    exact List.mem_range.mpr (h.within hb hs hl).index_lt
  have := (List.subperm_of_subset nodup sub).length_le
  rwa [List.length_map, List.length_range] at this

/-- The budget lasts until the queue is empty: each line is taken from it at most once. -/
theorem exhaust (hb : b.Fits m n) (hs : start.Within m n) : ∀ (k : Nat) {steps : List Step}
    {done : List Line} {queue : List (Line × Option Cell)}, b.Frontier start steps done queue →
    m + n ≤ k + done.length →
    ∃ done', b.Frontier start (steps ++ b.searchUpTo k queue (done ++ queue.map Prod.fst)) done' []
  | 0, steps, done, queue, h, hk => by
    have hlen := h.length_le hb hs
    rw [List.length_append, List.length_map] at hlen
    have hq : queue = [] := List.eq_nil_of_length_eq_zero (by omega)
    subst hq
    exact ⟨done, by simpa [searchUpTo] using h⟩
  | k + 1, steps, done, [], h, _ => ⟨done, by simpa [searchUpTo] using h⟩
  | k + 1, steps, done, (l, via) :: queue, h, hk => by
    obtain ⟨done', h'⟩ := exhaust hb hs k (h.next hb hs) (by
      rw [List.length_append, List.length_singleton]
      omega)
    refine ⟨done', ?_⟩
    have lines' : done ++ [l] ++ (queue ++ ((b.stepsFrom l via (done ++ l :: queue.map
        Prod.fst)).filter Step.fresh).map fun s => (s.target, some s.cell)).map Prod.fst =
        (done ++ l :: queue.map Prod.fst) ++ ((b.stepsFrom l via (done ++ l :: queue.map
        Prod.fst)).filter Step.fresh).map Step.target := by
      simp [List.append_assoc, Function.comp_def]
    rw [lines', List.append_assoc] at h'
    exact h'

end Frontier

/-! ## The whole search -/

/-- The lines that the search reaches, the start first. -/
def reached (b : Basis) (start : Line) : List Line :=
  start :: ((b.search start).filter Step.fresh).map Step.target

namespace Fits

/-- The last state of the search: the queue is empty and every line of the tree is done. -/
theorem frontier_search (h : b.Fits m n) (hs : start.Within m n) :
    b.Frontier start (b.search start) (b.reached start) [] := by
  obtain ⟨done, hd⟩ := (frontier_start b start).exhaust h hs b.lines (by
    rw [h.lines_eq]
    exact Nat.le_add_right _ _)
  have hd' : b.Frontier start (b.search start) done [] := hd
  have lines := hd'.lines
  rw [List.map_nil, List.append_nil] at lines
  rw [reached, ← lines]
  exact hd'

theorem grows_search (h : b.Fits m n) (hs : start.Within m n) :
    b.Grows [start] ((b.search start).filter Step.fresh) := (h.frontier_search hs).grows

theorem nodup_reached (h : b.Fits m n) (hs : start.Within m n) : (b.reached start).Nodup :=
  (h.grows_search hs).nodup (List.nodup_singleton start)

/-- The search reaches exactly the lines that the marked cells connect with its start. -/
theorem mem_reached_iff (h : b.Fits m n) (hs : start.Within m n) :
    l ∈ b.reached start ↔ Line.Connected b.cells start l := by
  have state := h.frontier_search hs
  constructor
  · intro hl
    have hcon := state.connected (k := start) (l := l) (by simp [reached]) (by simpa using hl)
    refine hcon.mono fun c hc => ?_
    obtain ⟨s, hs, rfl⟩ := List.mem_map.mp hc
    exact (state.marked s (List.mem_filter.mp hs).1).1
  · intro hcon
    induction hcon with
    | refl => exact List.mem_cons_self
    | @change l c _ hc ht ih =>
      obtain ⟨s, hs, rfl⟩ := state.covered l ih c hc ht
      have source := state.source s hs
      have target : s.target ∈ b.reached start := by simpa using state.target s hs
      rcases (state.marked s hs).2.eq_or_crossing (Line.through_crossing l s.cell) with e | e
      · rwa [e]
      · rw [e]
        exact target

/-- Every marked cell on a reached line is the cell of a step. -/
theorem exists_step (h : b.Fits m n) (hs : start.Within m n) (hc : c ∈ b.cells)
    (hcon : Line.Connected b.cells start (.row c.row)) : ∃ s ∈ b.search start, s.cell = c :=
  (h.frontier_search hs).covered _ ((h.mem_reached_iff hs).mpr hcon) c hc (Line.through_row c)

/-- Without cycles every step is fresh. -/
theorem fresh_of_acyclic (h : b.Fits m n) (hs : start.Within m n) (ha : Acyclic b.cells) :
    ∀ s ∈ b.search start, s.fresh = true := by
  intro s hm
  cases hf : s.fresh with
  | true => rfl
  | false => exact absurd ha ((h.frontier_search hs).stale s hm hf).not_acyclic

theorem within_of_mem_reached (h : b.Fits m n) (hs : start.Within m n) (hl : l ∈ b.reached start) :
    l.Within m n :=
  (h.frontier_search hs).within h hs (List.mem_append_left _ hl)

/-- The lines that the search reaches, as different numbers below the number of lines. -/
theorem subperm_reached (h : b.Fits m n) (hs : start.Within m n) :
    ((b.reached start).map (Line.index m)).Subperm (List.range (m + n)) := by
  have nodup : ((b.reached start).map (Line.index m)).Nodup :=
    List.Nodup.map_on (fun k hk l hl e => Line.index_inj (h.within_of_mem_reached hs hk)
      (h.within_of_mem_reached hs hl) e) (h.nodup_reached hs)
  refine nodup.subperm (List.forall_mem_map.mpr fun l hl => ?_)
  exact List.mem_range.mpr (h.within_of_mem_reached hs hl).index_lt

/-- The search reaches as many lines as there are exactly if the marked cells connect its start with
every line. -/
theorem length_reached_iff (h : b.Fits m n) (hs : start.Within m n) :
    m + n ≤ (b.reached start).length ↔
      ∀ l : Line, l.Within m n → Line.Connected b.cells start l := by
  have sub := h.subperm_reached hs
  constructor
  · intro full l hl
    have perm := sub.perm_of_length_le (by rwa [List.length_map, List.length_range])
    obtain ⟨k, hk, e⟩ := List.mem_map.mp (perm.mem_iff.mpr (List.mem_range.mpr hl.index_lt))
    rw [← Line.index_inj (h.within_of_mem_reached hs hk) hl e]
    exact (h.mem_reached_iff hs).mp hk
  · intro all
    have onto : ∀ x ∈ List.range (m + n), x ∈ (b.reached start).map (Line.index m) := by
      intro x hx
      obtain ⟨l, hl, rfl⟩ := Line.exists_index (List.mem_range.mp hx)
      exact List.mem_map_of_mem ((h.mem_reached_iff hs).mpr (all l hl))
    have := (List.nodup_range.subperm onto).length_le
    rwa [List.length_map, List.length_range] at this

end Fits

end Basis

end Freight
