import Freight.Proofs.BasisGraph
import Freight.Proofs.Check

/-!
# Taking up a plan from outside

Stored basic cells that carry the quantities and close no cycle are kept
(`Consistent.resumedBasis_of_fit`); otherwise the quantities alone decide
(`Consistent.resumedBasis_of_unfit`), and they decide alike where both can
(`Consistent.resumedBasis_verdict`). So a plan that passes its check is taken up on a spanning tree
exactly if its routes in use form a forest (`Plan.resumedBasis_decides`), and taking it up never comes
upon basic cells that do not hang together. It looks outside a table only where words cannot count the
cells (`Plan.reoptimize_ends`), as those of a plan with empty buffers (`Plan.reoptimize_hollow`).
-/

namespace Freight

namespace Plan

section Basis

variable {α : Type} [Scalar α] {p : Plan α} {tol : α} {b : Basis}

theorem Consistent.mem_loaded_iff (h : p.Consistent) {c : Cell} : c ∈ p.allocation.loaded tol ↔
    c ∈ Cell.grid p.supply.length p.demand.length ∧
      ∃ q, p.allocation.get? c = some q ∧ tol < q := by
  rw [← h.allocation.cells_eq]
  simp only [Table.loaded, Table.mem_cellsWhere h.allocation.wellFormed, decide_eq_true_eq]

/-- The stored cells make a basis with just these cells. -/
theorem Consistent.exists_basis? (h : p.Consistent) :
    ∃ stored, p.basis? = some stored ∧ stored.Fits p.supply.length p.demand.length ∧
      ∀ c, c ∈ stored.cells ↔ c ∈ p.basicCells := by
  obtain ⟨stored, e, fits, mem⟩ := Basis.exists_ofCells? h.basicCells
  refine ⟨stored, ?_, fits, mem⟩
  rw [basis?, h.allocation.rows_eq, h.allocation.cols_eq, e]

/-- Whether the stored cells carry the quantities can be told: they do exactly if all cells in use are
among them. -/
theorem Consistent.exists_covers? (h : p.Consistent)
    (hb : b.Fits p.supply.length p.demand.length) (tol : α) :
    ∃ covered, p.covers? b tol = some covered ∧
      (covered = true ↔ ∀ c ∈ p.allocation.loaded tol, c ∈ b.cells) := by
  have inside : ∀ c ∈ p.allocation.loaded tol, c ∈ Cell.grid p.supply.length p.demand.length :=
    fun c hc => (h.mem_loaded_iff.mp hc).1
  unfold covers?
  generalize p.allocation.loaded tol = cs at inside
  induction cs with
  | nil => exact ⟨true, rfl, fun _ c hc => absurd hc List.not_mem_nil, fun _ => rfl⟩
  | cons c cs ih =>
    obtain ⟨covered, e, all⟩ := ih fun d hd => inside d (List.mem_cons_of_mem c hd)
    have grid := inside c List.mem_cons_self
    have basic : b.contains c = true ↔ c ∈ b.cells := hb.contains_iff grid
    rw [List.allM, hb.contains?_eq grid]
    cases hm : b.contains c with
    | true => exact ⟨covered, e, by rw [List.forall_mem_cons, ← all, ← basic, hm]; simp⟩
    | false => exact ⟨false, rfl, by rw [List.forall_mem_cons, ← basic, hm]; simp⟩

/-- The quantities alone give a spanning tree over the cells in use, unless these close a cycle; then
the cell is named that closes the first one. -/
theorem Consistent.rebuiltBasis_cases (h : p.Consistent) (tol : α) :
    (Acyclic (p.allocation.loaded tol) ∧ ∃ b, p.rebuiltBasis tol = .ok b ∧
        b.Fits p.supply.length p.demand.length ∧ b.IsTree ∧
        ∀ c ∈ p.allocation.loaded tol, c ∈ b.cells) ∨
      ∃ c, ClosesFirst (p.allocation.loaded tol) c ∧ p.rebuiltBasis tol = .error (.notBasic c) := by
  obtain ⟨b, e, hb, mem⟩ := Basis.exists_ofLoaded? h.allocation.wellFormed tol
  rw [h.allocation.rows_eq, h.allocation.cols_eq] at hb
  unfold rebuiltBasis
  rw [e]
  cases er : b.repair with
  | error c =>
    have first := hb.closesFirst_of_components (map_eq_error.mp er)
    refine .inr ⟨c, first.congr mem, ?_⟩
    simp only [within, bind, Except.bind, er]
    rfl
  | ok r =>
    obtain ⟨b', k⟩ := r
    have acyclic := hb.repair_isOk_iff.mp ⟨_, er⟩
    obtain ⟨hb', tree, old⟩ := hb.of_repair h.tableau.rows_pos h.tableau.cols_pos er
    refine .inl ⟨acyclic.mono fun c => (mem c).mpr, b', ?_, hb', tree,
      fun c hc => old c ((mem c).mpr hc)⟩
    simp only [within, bind, Except.bind, er]
    rfl

/-- Stored cells that close no cycle and have the cells in use among them are kept. -/
theorem Consistent.resumedBasis_of_fit (h : p.Consistent) (acyclic : Acyclic p.basicCells)
    (covers : ∀ c ∈ p.allocation.loaded tol, c ∈ p.basicCells) :
    ∃ b, p.resumedBasis tol = .ok b ∧ b.Fits p.supply.length p.demand.length ∧ b.IsTree ∧
      ∀ c ∈ p.basicCells, c ∈ b.cells := by
  obtain ⟨stored, e, hstored, mem⟩ := h.exists_basis?
  obtain ⟨covered, ecovered, all⟩ := h.exists_covers? hstored tol
  have full : covered = true := all.mpr fun c hc => (mem c).mpr (covers c hc)
  obtain ⟨b, k, er, hb, tree, old⟩ := hstored.exists_repair h.tableau.rows_pos h.tableau.cols_pos
    (acyclic.mono fun c => (mem c).mp)
  refine ⟨b, ?_, hb, tree, fun c hc => old c ((mem c).mpr hc)⟩
  unfold resumedBasis
  simp only [e, ecovered, full, er, within, bind, Except.bind]
  rfl

/-- Other stored cells are given up. -/
theorem Consistent.resumedBasis_of_unfit (h : p.Consistent)
    (unfit : ¬ (Acyclic p.basicCells ∧ ∀ c ∈ p.allocation.loaded tol, c ∈ p.basicCells)) :
    p.resumedBasis tol = p.rebuiltBasis tol := by
  obtain ⟨stored, e, hstored, mem⟩ := h.exists_basis?
  obtain ⟨covered, ecovered, all⟩ := h.exists_covers? hstored tol
  unfold resumedBasis
  simp only [e, ecovered, within, bind, Except.bind]
  cases covered with
  | false => rfl
  | true =>
    have covers : ∀ c ∈ p.allocation.loaded tol, c ∈ p.basicCells := fun c hc =>
      (mem c).mp (all.mp rfl c hc)
    cases er : stored.repair with
    | error c => rfl
    | ok r =>
      have acyclic := hstored.repair_isOk_iff.mp ⟨r, er⟩
      exact absurd ⟨acyclic.mono fun c => (mem c).mpr, covers⟩ unfit

/-- A consistent plan whose cells in use close no cycle is taken up on a spanning tree over them,
which has the stored cells as well if these close no cycle and have the cells in use among them. If
the cells in use close a cycle, the cell is named that closes the first one. -/
theorem Consistent.resumedBasis_verdict (h : p.Consistent) (tol : α) :
    (Acyclic (p.allocation.loaded tol) ∧ ∃ b, p.resumedBasis tol = .ok b ∧
        b.Fits p.supply.length p.demand.length ∧ b.IsTree ∧
        (∀ c ∈ p.allocation.loaded tol, c ∈ b.cells) ∧
        (Acyclic p.basicCells → (∀ c ∈ p.allocation.loaded tol, c ∈ p.basicCells) →
          ∀ c ∈ p.basicCells, c ∈ b.cells)) ∨
      ∃ c, ClosesFirst (p.allocation.loaded tol) c ∧ p.resumedBasis tol = .error (.notBasic c) := by
  by_cases fit : Acyclic p.basicCells ∧ ∀ c ∈ p.allocation.loaded tol, c ∈ p.basicCells
  · obtain ⟨acyclic, covers⟩ := fit
    obtain ⟨b, e, hb, tree, kept⟩ := h.resumedBasis_of_fit acyclic covers
    exact .inl ⟨acyclic.mono covers, b, e, hb, tree, fun c hc => kept c (covers c hc),
      fun _ _ => kept⟩
  · rw [h.resumedBasis_of_unfit fit]
    refine (h.rebuiltBasis_cases tol).imp_left ?_
    rintro ⟨acyclic, b, e, hb, tree, used⟩
    exact ⟨acyclic, b, e, hb, tree, used, fun ha covers => absurd ⟨ha, covers⟩ fit⟩

/-- A consistent plan is taken up on a spanning tree over the cells in use, unless these close a
cycle. -/
theorem Consistent.resumedBasis_spans (h : p.Consistent) (tol : α) :
    (∃ b, p.resumedBasis tol = .ok b ∧ b.Fits p.supply.length p.demand.length ∧ b.IsTree ∧
        ∀ c ∈ p.allocation.loaded tol, c ∈ b.cells) ∨
      ∃ c, p.resumedBasis tol = .error (.notBasic c) := by
  rcases h.resumedBasis_verdict tol with ⟨-, b, e, hb, tree, used, -⟩ | ⟨c, -, e⟩
  · exact .inl ⟨b, e, hb, tree, used⟩
  · exact .inr ⟨c, e⟩

/-- A consistent plan is taken up on a spanning tree, unless the routes in use close a cycle. -/
theorem Consistent.resumedBasis_cases (h : p.Consistent) (tol : α) :
    (∃ b, p.resumedBasis tol = .ok b ∧ b.Fits p.supply.length p.demand.length ∧ b.IsTree) ∨
      ∃ c, p.resumedBasis tol = .error (.notBasic c) := by
  rcases h.resumedBasis_spans tol with ⟨b, e, hb, tree, -⟩ | refused
  · exact .inl ⟨b, e, hb, tree⟩
  · exact .inr refused

/-- The cells of a plan that hold more than a tolerance: the routes in use. -/
def used (p : Plan α) (tol : α) : List Cell :=
  (Cell.grid p.supply.length p.demand.length).filter fun c => tol < p.allocation.entry c

theorem Consistent.mem_used_iff (h : p.Consistent) {c : Cell} :
    c ∈ p.used tol ↔ c ∈ p.allocation.loaded tol := by
  rw [used, List.mem_filter, decide_eq_true_eq, h.allocation.mem_loaded]

/-- On which basis a plan that passes its check is taken up, whatever cells are stored with it. There
is one exactly if the routes in use form a forest; if not, the first route in row-major order that
closes a cycle with the routes before it is named. The basis is a spanning tree over the routes in
use, and it has all stored cells if these form a forest with all routes in use. -/
theorem resumedBasis_decides (p : Plan α) (tol : α) (h : p.check tol = .ok ()) :
    ((∃ b, p.resumedBasis tol = .ok b) ↔
        (Basis.cellGraph (p.used tol) p.supply.length p.demand.length).IsAcyclic) ∧
      (¬ (Basis.cellGraph (p.used tol) p.supply.length p.demand.length).IsAcyclic →
        ∃ c ∈ p.used tol, p.resumedBasis tol = .error (.notBasic c) ∧
          (Basis.cellGraph ((p.used tol).filter (·.before c))
            p.supply.length p.demand.length).IsAcyclic ∧
          ¬ (Basis.cellGraph (c :: (p.used tol).filter (·.before c))
            p.supply.length p.demand.length).IsAcyclic) ∧
      ∀ b, p.resumedBasis tol = .ok b →
        b.Fits p.supply.length p.demand.length ∧ b.graph.IsTree ∧
          (∀ c ∈ p.used tol, c ∈ b.cells) ∧
          ((Basis.cellGraph p.basicCells p.supply.length p.demand.length).IsAcyclic →
            (∀ c ∈ p.used tol, c ∈ p.basicCells) → ∀ c ∈ p.basicCells, c ∈ b.cells) := by
  have consistent := consistent_of_check h
  have same : ∀ c, c ∈ p.allocation.loaded tol ↔ c ∈ p.used tol := fun c =>
    consistent.mem_used_iff.symm
  have grid : ∀ c ∈ p.used tol, c ∈ Cell.grid p.supply.length p.demand.length := fun c hc =>
    (List.mem_filter.mp hc).1
  have graph := Basis.isAcyclic_cellGraph_iff grid
  rcases consistent.resumedBasis_verdict tol with
    ⟨acyclic, b, e, hb, tree, all, stored⟩ | ⟨c, first, e⟩
  · have forest := graph.mpr (acyclic.mono fun c => (same c).mpr)
    refine ⟨⟨fun _ => forest, fun _ => ⟨b, e⟩⟩, fun cyclic => absurd forest cyclic, ?_⟩
    rintro b' e'
    rw [e] at e'
    cases e'
    have pos := Nat.add_pos_left consistent.tableau.rows_pos p.demand.length
    refine ⟨hb, (hb.graph_isTree_iff pos).mpr tree, fun c hc => all c ((same c).mpr hc), ?_⟩
    intro acyclic covers
    exact stored ((Basis.isAcyclic_cellGraph_iff consistent.basicCells).mp acyclic)
      fun c hc => covers c ((same c).mp hc)
  · have first := first.congr same
    have cyclic := graph.not.mpr first.not_acyclic
    have before : ∀ d ∈ (p.used tol).filter (·.before c),
        d ∈ Cell.grid p.supply.length p.demand.length := fun d hd =>
      grid d (List.mem_filter.mp hd).1
    refine ⟨⟨?_, fun forest => absurd forest cyclic⟩, fun _ => ⟨c, first.mem, e, ?_, ?_⟩, ?_⟩
    · rintro ⟨b, e'⟩
      rw [e] at e'
      cases e'
    · exact (Basis.isAcyclic_cellGraph_iff before).mpr first.acyclic
    · exact (Basis.isAcyclic_cellGraph_iff
        (List.forall_mem_cons.mpr ⟨grid c first.mem, before⟩)).not.mpr first.not_acyclic_cons
    · intro b e'
      rw [e] at e'
      cases e'

end Basis

/-- A plan for two sources and two destinations whose stored cells close a loop, one of them twice. -/
def tangled (quantities : Array Rat) : Plan Rat where
  totalCost := 0
  allocation := ⟨2, 2, quantities⟩
  costs := ⟨2, 2, #[4, 6, 5, 3]⟩
  supply := [500, 400]
  demand := [300, 600]
  sourceNames := ["S1", "S2"]
  destinationNames := ["D1", "D2"]
  routes := []
  isOptimal := false
  iterations := 0
  rule := .vogel
  balance := .balanced
  basicCells := [⟨1, 1⟩, ⟨0, 0⟩, ⟨1, 1⟩, ⟨0, 1⟩, ⟨1, 0⟩]
  costHistory := []

/-- On three routes the tangled plan is taken up although its stored cells close a loop. On four routes
it is refused for the last one. -/
theorem resumedBasis_decides_tangled :
    (tangled #[300, 200, 0, 400]).check (1 / 2) = .ok () ∧
      (tangled #[200, 300, 100, 300]).check (1 / 2) = .ok () ∧
      (∃ b, (tangled #[300, 200, 0, 400]).resumedBasis (1 / 2) = .ok b ∧ b.graph.IsTree ∧
        ⟨0, 1⟩ ∈ b.cells) ∧
      (tangled #[200, 300, 100, 300]).resumedBasis (1 / 2) = .error (.notBasic ⟨1, 1⟩) ∧
      ¬ (Basis.cellGraph ((tangled #[200, 300, 100, 300]).used (1 / 2)) 2 2).IsAcyclic := by
  have three : (tangled #[300, 200, 0, 400]).check (1 / 2) = .ok () :=
    eq_ok_of_toOption (by decide +kernel)
  have four : (tangled #[200, 300, 100, 300]).check (1 / 2) = .ok () :=
    eq_ok_of_toOption (by decide +kernel)
  have taken : ((tangled #[300, 200, 0, 400]).resumedBasis (1 / 2)).toOption.map Basis.size =
      some 3 := by decide +kernel
  have named : (match (tangled #[200, 300, 100, 300]).resumedBasis (1 / 2) with
      | .error (.notBasic c) => some c
      | _ => none) = some ⟨1, 1⟩ := by decide +kernel
  obtain ⟨b, e, -⟩ := exists_of_map_toOption taken
  obtain ⟨-, tree, all, -⟩ := (resumedBasis_decides _ _ three).2.2 b e
  obtain ⟨taken_iff, refused, -⟩ := resumedBasis_decides _ _ four
  have cyclic := taken_iff.not.mp (by
    rintro ⟨b, e⟩
    rw [e] at named
    cases named)
  obtain ⟨c, -, e', -⟩ := refused cyclic
  rw [e'] at named
  cases named
  exact ⟨three, four, ⟨b, e, tree, all _ (by decide +kernel)⟩, e', cyclic⟩

/-- The three ways for taking up a plan to end: it is refused for what is wrong with it, the budget runs
out with a best plan at hand, or there is an optimal plan. -/
def Concluded {α : Type} (answer : Except (Failure α) (Plan α)) : Prop :=
  (∃ cause, answer = .error (.ofCause cause) ∧ cause.kind = .validation) ∨
    (∃ k best, answer = .error ⟨.notConverged k, some best⟩ ∧ best.isOptimal = false) ∨
    ∃ plan, answer = .ok plan ∧ plan.isOptimal = true

theorem not_concluded_outside {α : Type} :
    ¬ Concluded (.error (.ofCause .outside) : Except (Failure α) (Plan α)) := by
  rintro (⟨cause, e, kind⟩ | ⟨k, best, e, -⟩ | ⟨plan, e, -⟩)
  · cases e
    cases kind
  · cases e
  · cases e

/-- Taking up a plan ends in one of the three ways, whatever the plan holds and however its parts
disagree. Only where the plan has more cells than words can count, and no entries for some of them, may
it come upon a position outside a table. -/
theorem reoptimize_ends (p : Plan Extended) (config : Config Extended) :
    Concluded (p.reoptimize config) ∨
      p.reoptimize config = .error (.ofCause .outside) ∧ p.Hollow := by
  unfold reoptimize
  cases settings : config.check with
  | error cause => exact .inl (.inl ⟨cause, rfl, Config.kind_of_check settings⟩)
  | ok _ =>
  cases parts : p.check config.tolerance with
  | error cause =>
    rcases kind_of_check parts with kind | ⟨rfl, hollow⟩
    · exact .inl (.inl ⟨cause, rfl, kind⟩)
    · exact .inr ⟨rfl, hollow⟩
  | ok _ =>
  have consistent := consistent_of_check parts
  obtain ⟨ht, hpos, -⟩ := Config.of_check settings
  left
  rcases consistent.resumedBasis_cases config.tolerance with ⟨b, eb, hb, tree⟩ | ⟨c, e⟩
  · have sound : Position.Sound ⟨p.allocation, b⟩ p.supply.length p.demand.length :=
      ⟨consistent.allocation, hb, tree, consistent.finite⟩
    obtain ⟨plan, last, -, -, -, h⟩ := consistent.tableau.optimize_cases (I := fun _ => True)
      ht hpos (fun _ _ _ _ _ _ _ _ _ => trivial) sound trivial
    simp only [planning, eb, bind, Except.bind]
    rcases h with ⟨e, optimal, -⟩ | ⟨k, e, improving⟩
    · exact .inr (.inr ⟨{ plan with rule := p.rule }, by rw [e]; rfl, optimal⟩)
    · exact .inr (.inl ⟨k, plan, by rw [e], improving⟩)
  · refine .inl ⟨.notBasic c, ?_, rfl⟩
    simp only [planning, e, bind, Except.bind]

/-- A plan for `n` sources without supply and `n` destinations without demand, with empty buffers. -/
def hollow (n : Nat) : Plan Extended where
  totalCost := 0
  allocation := ⟨n, n, #[]⟩
  costs := ⟨n, n, #[]⟩
  supply := List.replicate n 0
  demand := List.replicate n 0
  sourceNames := List.replicate n ""
  destinationNames := List.replicate n ""
  routes := []
  isOptimal := true
  iterations := 0
  rule := .vogel
  balance := .balanced
  basicCells := []
  costHistory := []

/-- If words count no cell at all, empty buffers have the right size. -/
theorem shaped_hollow {n : Nat} (pos : 0 < n) (h : USize.size ∣ n * n) : (hollow n).Shaped := by
  have count : Table.entryCount n n 0 = 0 := Table.entryCount_of_dvd h (Nat.mul_pos pos pos).ne
  constructor <;> simp [hollow, pos, count]

/-- The check then stops at the first cell, which has no entry. -/
theorem check_hollow {n : Nat} (pos : 0 < n) (h : USize.size ∣ n * n) (tol : Extended) :
    (hollow n).check tol = .error .outside := by
  have zeros : ∀ x ∈ List.replicate n (0 : Extended), Scalar.isAmount x = true := fun x hx => by
    rw [List.eq_of_mem_replicate hx]
    decide
  have cells : (Cell.grid n n).forM (hollow n).checkCell = .error .outside := by
    obtain ⟨k, rfl⟩ := Nat.exists_eq_succ_of_ne_zero pos.ne'
    rw [Cell.grid, List.range_succ_eq_map]
    rfl
  have supply : (hollow n).supply = List.replicate n 0 := rfl
  have demand : (hollow n).demand = List.replicate n 0 := rfl
  unfold check
  rw [(shaped_hollow pos h).checkShape_eq_ok, supply, demand, Problem.checkQuantities_eq_ok zeros,
    Problem.checkQuantities_eq_ok zeros, List.length_replicate, cells]
  rfl

theorem reoptimize_hollow_of_dvd {n : Nat} (pos : 0 < n) (h : USize.size ∣ n * n)
    {config : Config Extended} (valid : config.check = .ok ()) :
    (hollow n).reoptimize config = .error (.ofCause .outside) := by
  unfold reoptimize
  rw [valid, check_hollow pos h]
  rfl

/-- A plan that is not refused for its empty buffers, however long words are. For words of 32 bits a
smaller one will do. -/
theorem reoptimize_hollow :
    (hollow (2 ^ 32)).reoptimize (.withTolerance (.finite (1 / 1000000))) =
        .error (.ofCause .outside) ∧
      ¬ Concluded ((hollow (2 ^ 32)).reoptimize (.withTolerance (.finite (1 / 1000000)))) ∧
      (USize.size = 2 ^ 32 →
        ¬ Concluded ((hollow (2 ^ 16)).reoptimize (.withTolerance (.finite (1 / 1000000))))) := by
  have valid : Config.check (.withTolerance (Extended.finite (1 / 1000000))) = .ok () :=
    eq_ok_of_toOption (by decide +kernel)
  have wraps : USize.size ∣ 2 ^ 32 * 2 ^ 32 := by
    rcases USize.size_eq with e | e <;> rw [e] <;> decide
  have outside := reoptimize_hollow_of_dvd (by decide) wraps valid
  refine ⟨outside, ?_, fun short => ?_⟩
  · rw [outside]
    exact not_concluded_outside
  · rw [reoptimize_hollow_of_dvd (by decide) (by rw [short]; decide) valid]
    exact not_concluded_outside

end Plan

end Freight
