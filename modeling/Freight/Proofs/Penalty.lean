import Freight.Proofs.Choice
import Mathlib.Data.List.Sort

/-!
# The line with the largest penalty

One scan keeps the two smallest costs of a line. What it keeps are the first two of the costs in
ascending order (`lowestTwoStep_firstTwo`), so equal costs count each, and the penalty is their
difference (`penalty?_eq`).

In the scan of the penalties a later line has to exceed the candidate by more than the tolerance. Such
a comparison is not transitive, but every line so far stays within the tolerance of the candidate. The
line that takes its place therefore exceeds them all (`Leads.replace`), and near-ties do not add up.

Main statement: how the Vogel start chooses each of its shipments (`StartRule.vogel_serves_dearest`).
-/

namespace Freight

variable {xs : List Rat} {costs : Table Rat} {tol : Rat} {r : Remaining Rat} {c : Cell} {l line : Line}

/-! ## The penalty of a line -/

/-- The second smallest minus the smallest of some costs, counted with multiplicity. For a single cost
it is the cost itself. -/
def penalty (costs : List Rat) : Rat :=
  match costs.insertionSort (· ≤ ·) with
  | [] => 0
  | [only] => only
  | low :: second :: _ => second - low

/-- The first and the second value of a list. -/
def firstTwo : List Rat → Option (Rat × Option Rat)
  | [] => none
  | low :: rest => some (low, rest.head?)

/-- The two smallest of some values in ascending order and one more: it is put in its place. -/
theorem lowestTwoStep_firstTwo (sorted : xs.Pairwise (· ≤ ·)) (x : Rat) :
    lowestTwoStep (firstTwo xs) x = firstTwo (xs.orderedInsert (· ≤ ·) x) := by
  match xs with
  | [] => rfl
  | [low] =>
    rw [firstTwo, List.head?_nil, lowestTwoStep, List.orderedInsert]
    rcases lt_trichotomy x low with lt | rfl | gt
    · rw [if_pos lt, if_pos lt.le]
      rfl
    · rw [if_neg (lt_irrefl x), if_pos le_rfl]
      rfl
    · rw [if_neg gt.not_gt, if_neg gt.not_ge]
      rfl
  | low :: second :: rest =>
    rw [firstTwo, List.head?_cons, lowestTwoStep, List.orderedInsert]
    rcases lt_trichotomy x low with lt | rfl | gt
    · rw [if_pos lt, if_pos lt.le]
      rfl
    · -- The smallest value once more is the second smallest too.
      rw [if_neg (lt_irrefl x), if_pos le_rfl]
      have le : x ≤ second := (List.pairwise_cons.mp sorted).1 second List.mem_cons_self
      split
      · rfl
      · next h =>
        rw [le_antisymm (not_lt.mp h) le]
        rfl
    · rw [if_neg gt.not_gt, if_neg gt.not_ge, List.orderedInsert]
      rcases lt_trichotomy x second with lt | rfl | gt
      · rw [if_pos lt, if_pos lt.le]
        rfl
      · rw [if_neg (lt_irrefl x), if_pos le_rfl]
        rfl
      · rw [if_neg gt.not_gt, if_neg gt.not_ge]
        rfl

/-- The scan of more values, from the two smallest so far. -/
theorem foldl_lowestTwoStep (xs ys : List Rat) :
    xs.foldl lowestTwoStep (firstTwo (ys.insertionSort (· ≤ ·))) =
      firstTwo ((xs.reverse ++ ys).insertionSort (· ≤ ·)) := by
  induction xs generalizing ys with
  | nil => rfl
  | cons x xs ih =>
    rw [List.foldl_cons, lowestTwoStep_firstTwo (List.pairwise_insertionSort _ ys),
      ← List.insertionSort_cons, ih, List.reverse_cons, List.append_assoc, List.singleton_append]

theorem lowestTwo_eq (xs : List Rat) : lowestTwo xs = firstTwo (xs.insertionSort (· ≤ ·)) := by
  have scan := foldl_lowestTwoStep xs []
  have same : (xs.reverse ++ []).insertionSort (· ≤ ·) = xs.insertionSort (· ≤ ·) := by
    rw [List.append_nil]
    have perm := (List.perm_insertionSort (· ≤ ·) xs.reverse).trans
      ((List.reverse_perm xs).trans (List.perm_insertionSort (· ≤ ·) xs).symm)
    exact perm.eq_of_pairwise' (List.pairwise_insertionSort _ _) (List.pairwise_insertionSort _ _)
  rw [same] at scan
  rw [← scan, lowestTwo, List.map_congr_left fun x _ => Scalar.Lawful.orInfinite_eq rfl, List.map_id']
  rfl

theorem penalty?_eq (h : xs ≠ []) : penalty? xs = some (penalty xs) := by
  unfold penalty? penalty
  rw [lowestTwo_eq]
  match e : xs.insertionSort (· ≤ ·) with
  | [] => exact absurd (e ▸ List.perm_insertionSort (· ≤ ·) xs).nil_eq.symm h
  | [only] => rfl
  | low :: second :: rest => rfl

/-! ## The scan of the penalties -/

/-- The candidate of the scan of some lines: its penalty exceeds those ahead of it, and none exceeds
it by more than the tolerance. -/
def Leads (tol : Rat) (lines : List (Line × Rat)) (best : Line × Rat) : Prop :=
  ∃ ahead behind, lines = ahead ++ best :: behind ∧ (∀ e ∈ ahead, e.2 < best.2) ∧
    ∀ e ∈ lines, e.2 ≤ best.2 + tol

namespace Leads

variable {lines : List (Line × Rat)} {best e : Line × Rat}

theorem mem (h : Leads tol lines best) : best ∈ lines := by
  obtain ⟨ahead, behind, rfl, -⟩ := h
  exact List.mem_append_right _ List.mem_cons_self

theorem singleton (hpos : 0 ≤ tol) (e : Line × Rat) : Leads tol [e] e := by
  refine ⟨[], [], rfl, fun _ h => absurd h List.not_mem_nil, fun e' h => ?_⟩
  rw [List.mem_singleton.mp h]
  exact le_add_of_nonneg_right hpos

/-- A line within the tolerance leaves the candidate in place. -/
theorem keep (h : Leads tol lines best) (he : e.2 ≤ best.2 + tol) : Leads tol (lines ++ [e]) best := by
  obtain ⟨ahead, behind, split, lower, within⟩ := h
  refine ⟨ahead, behind ++ [e], by simp [split], lower, fun e' he' => ?_⟩
  rcases List.mem_append.mp he' with he' | he'
  · exact within e' he'
  · rwa [List.mem_singleton.mp he']

/-- A line that exceeds the candidate by more than the tolerance exceeds all lines so far, since these
stay within it. -/
theorem replace (hpos : 0 ≤ tol) (h : Leads tol lines best) (he : ¬ e.2 ≤ best.2 + tol) :
    Leads tol (lines ++ [e]) e := by
  obtain ⟨-, -, -, -, within⟩ := h
  have lower : ∀ e' ∈ lines, e'.2 < e.2 := fun e' he' => (within e' he').trans_lt (not_le.mp he)
  refine ⟨lines, [], rfl, lower, fun e' he' => ?_⟩
  rcases List.mem_append.mp he' with he' | he'
  · exact (lower e' he').le.trans (le_add_of_nonneg_right hpos)
  · rw [List.mem_singleton.mp he']
    exact le_add_of_nonneg_right hpos

/-- The scan of more lines, from the candidate so far. -/
theorem exists_foldl (hpos : 0 ≤ tol) (h : Leads tol lines best) (more : List (Line × Rat)) :
    ∃ b, more.foldl (dearer tol) (some best) = some b ∧ Leads tol (lines ++ more) b := by
  induction more generalizing lines best with
  | nil => exact ⟨best, rfl, by rwa [List.append_nil]⟩
  | cons next more ih =>
    rw [List.foldl_cons, dearer, List.append_cons]
    split
    · next within => exact ih (h.keep within)
    · next exceeds => exact ih (h.replace hpos exceeds)

end Leads

theorem leads_of_foldl (hpos : 0 ≤ tol) {lines : List (Line × Rat)} {best : Line × Rat}
    (h : lines.foldl (dearer tol) none = some best) : Leads tol lines best := by
  cases lines with
  | nil => cases h
  | cons first lines =>
    obtain ⟨b, e, leads⟩ := (Leads.singleton hpos first).exists_foldl hpos lines
    cases e.symm.trans h
    exact leads

/-! ## The choice of a state -/

namespace Remaining

/-- The penalty of a line in some state. -/
def penaltyOn (r : Remaining Rat) (costs : Table Rat) (tol : Rat) (l : Line) : Rat :=
  penalty ((r.openCellsOn tol l).map costs.entry)

theorem openCosts?_eq (h : r.openCosts? costs tol l = some xs) :
    xs = (r.openCellsOn tol l).map costs.entry :=
  eq_map_of_mapM h fun _ _ _ hx => (Table.entry_eq_of_get? hx).symm

/-- The lines with a penalty, as they are scanned. -/
theorem penalties?_eq_filterMap {lines : List (Line × Rat)}
    (h : r.penalties? costs tol = some lines) : lines = (r.openLines tol).filterMap fun l =>
      (penalty? ((r.openCellsOn tol l).map costs.entry)).map (l, ·) := by
  obtain ⟨priced, found, h⟩ := Option.bind_eq_some_iff.mp h
  cases h
  have all := eq_map_of_mapM (g := fun l => (penalty? ((r.openCellsOn tol l).map costs.entry)).map
      (l, ·)) found fun l _ o ho => by
    obtain ⟨xs, exs, ho⟩ := Option.bind_eq_some_iff.mp ho
    cases ho
    rw [openCosts?_eq exs]
  rw [all, List.filterMap_map]
  rfl

theorem mem_openLines_of_mem_penalties? {lines : List (Line × Rat)}
    (h : r.penalties? costs tol = some lines) {p : Rat} (hm : (l, p) ∈ lines) :
    l ∈ r.openLines tol := by
  rw [penalties?_eq_filterMap h] at hm
  obtain ⟨l', hl, e⟩ := List.mem_filterMap.mp hm
  obtain ⟨_, -, e⟩ := Option.map_eq_some_iff.mp e
  cases e
  exact hl

/-- While a cell is open, each open line has one and therefore a penalty. -/
theorem penalties?_eq_map {lines : List (Line × Rat)} (h : r.penalties? costs tol = some lines)
    (hc : c ∈ r.openCells tol) :
    lines = (r.openLines tol).map fun l => (l, r.penaltyOn costs tol l) := by
  have each : ∀ l ∈ r.openLines tol, (penalty? ((r.openCellsOn tol l).map costs.entry)).map (l, ·) =
      some (l, r.penaltyOn costs tol l) := by
    intro l hl
    rw [penalty?_eq (mt List.map_eq_nil_iff.mp (openCellsOn_ne_nil hc hl))]
    rfl
  rw [penalties?_eq_filterMap h, List.filterMap_congr each]
  exact congrFun List.filterMap_eq_map _

/-- A shipment of the Vogel rule, with the line that it is chosen on. -/
structure ServesDearest (r : Remaining Rat) (costs : Table Rat) (tol : Rat) (line : Line)
    (s : Shipment Rat) : Prop where
  /-- The penalty of the line exceeds that of each open line ahead of it. -/
  lower : ∃ ahead behind, r.openLines tol = ahead ++ line :: behind ∧
    ∀ l ∈ ahead, r.penaltyOn costs tol l < r.penaltyOn costs tol line
  /-- It falls short of the largest one by no more than the tolerance. -/
  within : ∀ l ∈ r.openLines tol, r.penaltyOn costs tol l - tol ≤ r.penaltyOn costs tol line
  mem : s.cell ∈ r.openCellsOn tol line
  /-- The cell comes first on the line by cost, row and column. -/
  cheapest : ∀ d ∈ r.openCellsOn tol line, d = s.cell ∨ costs.Precedes s.cell d
  quantity : s.quantity = min (r.supply.getD s.cell.row 0) (r.demand.getD s.cell.col 0)

/-- Where penalties within the tolerance are equal, the line has the largest one. -/
theorem ServesDearest.largest {s : Shipment Rat} (h : r.ServesDearest costs tol line s)
    (apart : ∀ l ∈ r.openLines tol, ∀ l' ∈ r.openLines tol,
      r.penaltyOn costs tol l = r.penaltyOn costs tol l' ∨
        tol < |r.penaltyOn costs tol l - r.penaltyOn costs tol l'|) :
    ∀ l ∈ r.openLines tol, r.penaltyOn costs tol l ≤ r.penaltyOn costs tol line := by
  obtain ⟨ahead, behind, split, -⟩ := h.lower
  have hline : line ∈ r.openLines tol := by simp [split]
  intro l hl
  have within := h.within l hl
  rcases apart l hl line hline with e | far
  · exact e.le
  · by_contra exceeds
    rw [abs_of_pos (sub_pos.mpr (not_le.mp exceeds))] at far
    linarith

/-- The line that the Vogel rule finds and serves, in any state. -/
theorem exists_servesDearest (hpos : 0 ≤ tol)
    (h : StartRule.vogel.choose? costs tol r = some (some c)) :
    ∃ line, r.dearestLine? costs tol = some (some line) ∧
      r.ServesDearest costs tol line ⟨c, r.capacity c⟩ := by
  obtain ⟨o, dearest, h⟩ := Option.bind_eq_some_iff.mp h
  cases o with
  | none => cases h
  | some line =>
    refine ⟨line, dearest, ?_⟩
    obtain ⟨lines, priced, dearest⟩ := Option.bind_eq_some_iff.mp dearest
    obtain ⟨⟨served, p⟩, scan, e⟩ := Option.map_eq_some_iff.mp (Option.some.inj dearest)
    cases e
    have first := Table.firstCheapest_of_cheapest? (fun _ => rfl) h
    have leads := leads_of_foldl hpos scan
    have hc : c ∈ r.openCells tol :=
      mem_openCells_of_mem_openCellsOn (mem_openLines_of_mem_penalties? priced leads.mem) first.mem
    rw [penalties?_eq_map priced hc] at leads
    obtain ⟨_, _, split, lower, within⟩ := leads
    obtain ⟨ahead, rest, cut, rfl, erest⟩ := List.map_eq_append_iff.mp split
    obtain ⟨_, behind, rfl, e, rfl⟩ := List.map_eq_cons_iff.mp erest
    cases e
    have quantity := congrArg Shipment.quantity (r.sound_rat.load_eq rfl hpos hc)
    refine ⟨⟨ahead, behind, cut, fun l hl => lower _ (List.mem_map_of_mem hl)⟩,
      fun l hl => sub_le_iff_le_add.mpr (within _ (List.mem_map_of_mem hl)), first.mem,
      first.precedes (fun _ => rfl) (r.pairwise_openCellsOn tol served), ?_⟩
    exact quantity.symm.trans (Scalar.least_rat _ _)

end Remaining

/-- Every shipment of a run of the Vogel rule, for supplies and demands that need not balance, costs of
any shape and any limit on their number. Where the shipments before it have led, the rule takes the
open rows and then the open columns in order. The line that it finds has a penalty that exceeds those
of all lines ahead of it, and that of no line exceeds it by more than the tolerance. Where penalties
within the tolerance are equal, that is the first line with the largest one. On the line the rule takes
the cheapest open cell, of equally cheap ones the first, and ships the smaller of what the two lines
have left. For costs of the right shape the start ends with a plan of these shipments when no open cell
is left. -/
theorem StartRule.vogel_serves_dearest (supply demand : List Rat) (costs : Table Rat) (tol : Rat)
    (hpos : 0 ≤ tol) :
    (∀ limit ss, Remaining.shipUpTo? (vogel.choose? costs tol) limit ⟨supply, demand⟩ = some ss →
      ∀ k s, ss[k]? = some s →
        let r := (Remaining.mk supply demand).after (ss.take k)
        ∃ line, r.dearestLine? costs tol = some (some line) ∧
          r.ServesDearest costs tol line s ∧
          ((∀ l ∈ r.openLines tol, ∀ l' ∈ r.openLines tol,
              r.penaltyOn costs tol l = r.penaltyOn costs tol l' ∨
                tol < |r.penaltyOn costs tol l - r.penaltyOn costs tol l'|) →
            ∀ l ∈ r.openLines tol, r.penaltyOn costs tol l ≤ r.penaltyOn costs tol line)) ∧
      (costs.Fits supply.length demand.length → ∃ ss t,
        vogel.shipments? supply demand costs tol = some ss ∧
          vogel.plan? supply demand costs tol = some t ∧
          (Table.fill costs.rows costs.cols 0).receive? ss = some t ∧
          ((Remaining.mk supply demand).after ss).openCells tol = []) := by
  constructor
  · intro limit ss h k s hs r
    obtain ⟨chosen, quantity⟩ := Remaining.chosen_of_shipUpTo? h hs
    obtain ⟨line, dearest, serves⟩ := Remaining.exists_servesDearest hpos chosen
    rw [← quantity] at serves
    exact ⟨line, dearest, serves, serves.largest⟩
  · intro hc
    have hr := (Remaining.mk supply demand).sound_rat
    obtain ⟨ss, last, shipped, run⟩ := hr.exists_run rfl hpos (vogel.serves hc tol) _ le_rfl
    obtain ⟨t, received, -⟩ := run.exists_receive? rfl hpos hr
    have made : vogel.shipments? supply demand costs tol = some ss := shipped
    rw [← hc.rows_eq, ← hc.cols_eq] at received
    exact ⟨ss, t, made, (plan?_eq made).trans received, received, run.eq_after ▸ run.openCells_last⟩

/-- The last row has the largest penalty, but it exceeds that of the first row by less than the
tolerance, so the first row is served. Its cheapest route takes all that the row has. In the end one
unit is left, which is not worth shipping. -/
theorem StartRule.vogel_serves_dearest_nearTie :
    let supply : List Rat := [3, 3, 3]
    let demand : List Rat := [3, 4, 2]
    let costs : Table Rat := ⟨3, 3, #[1, 3, 9, 2, 2, 9, 5, 15 / 2, 9]⟩
    let r : Remaining Rat := ⟨supply, demand⟩
    (0 : Rat) ≤ 1 ∧ costs.Fits 3 3 ∧
      (r.openLines 1).map (r.penaltyOn costs 1) = [2, 0, 5 / 2, 1, 1, 0] ∧
      r.dearestLine? costs 1 = some (some (.row 0)) ∧
      ∃ ss, vogel.shipments? supply demand costs 1 = some ss ∧
        ss.map Shipment.cell = [⟨0, 0⟩, ⟨1, 1⟩, ⟨2, 2⟩] ∧ (r.after ss).openCells 1 = [] ∧
        ∃ s, ss[0]? = some s ∧ s.quantity = 3 ∧ r.ServesDearest costs 1 (.row 0) s := by
  intro supply demand costs r
  have hpos : (0 : Rat) ≤ 1 := by decide +kernel
  have hc : costs.Fits 3 3 := ⟨rfl, rfl, rfl⟩
  obtain ⟨serves, complete⟩ := vogel_serves_dearest supply demand costs 1 hpos
  obtain ⟨ss, t, shipped, -, -, closed⟩ := complete hc
  have cells : (vogel.shipments? supply demand costs 1).map (·.map Shipment.cell) =
      some [⟨0, 0⟩, ⟨1, 1⟩, ⟨2, 2⟩] := by decide +kernel
  have quantities : (vogel.shipments? supply demand costs 1).map (·.map Shipment.quantity) =
      some [3, 3, 2] := by decide +kernel
  rw [shipped] at cells quantities
  have cells : ss.map Shipment.cell = [⟨0, 0⟩, ⟨1, 1⟩, ⟨2, 2⟩] := Option.some.inj cells
  obtain ⟨s, rest, rfl, quantity, -⟩ := List.map_eq_cons_iff.mp (Option.some.inj quantities)
  have first : r.dearestLine? costs 1 = some (some (.row 0)) := by decide +kernel
  obtain ⟨line, dearest, served, -⟩ := serves _ _ shipped 0 s rfl
  cases first.symm.trans dearest
  exact ⟨hpos, hc, by decide +kernel, first, s :: rest, shipped, cells, closed, s, rfl, quantity,
    served⟩

end Freight
