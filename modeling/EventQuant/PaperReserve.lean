import EventQuant.Library.Sweep
import Mathlib.Data.List.Sort
import Mathlib.Algebra.Order.Floor.Ring
import Mathlib.Data.Rat.Floor
import Mathlib.Tactic

/-!
What paper orders hold back. `status` reports the reserve that is held now and
the most that ever was, the one from each row's own interval, the other from a
sweep over snapshots and market ends. A snapshot taken past its market's end
gives the sweep the release first and what is released only later.
-/
namespace EventQuant.Paper

open Sweep

/-- The columns of a paper market `status` reads for the reserve; the plan's
price and size are positive. -/
structure ReserveRow where
  snapshotTsMs : Option ℤ
  endTs : ℤ
  buyPrice : ℚ
  orderSize : ℚ
  buyPrice_pos : 0 < buyPrice
  orderSize_pos : 0 < orderSize

namespace ReserveRow

def reserve (row : ReserveRow) : ℚ := row.buyPrice * row.orderSize * 2

def placedTs (row : ReserveRow) : Option ℤ := row.snapshotTsMs.map (· / 1000)

theorem reserve_pos (row : ReserveRow) : 0 < row.reserve := by
  have := mul_pos row.buyPrice_pos row.orderSize_pos
  unfold reserve
  linarith

end ReserveRow

def activeOrderReserve (now : ℤ) (rows : List ReserveRow) : ℚ :=
  rows.foldl (fun active row => match row.placedTs with
    | none => active
    | some placed => if placed ≤ now ∧ now < row.endTs then active + row.reserve else active) 0

def reserveEvents (rows : List ReserveRow) : List (ℤ × ℚ) :=
  rows.foldl (fun events row => match row.placedTs with
    | none => events
    | some placed => events ++ [(placed, row.reserve), (row.endTs, -row.reserve)]) []

/-- `key=lambda item: (item[0], item[1] > 0)`. -/
def sortsBefore (a b : ℤ × ℚ) : Prop := a.1 < b.1 ∨ a.1 = b.1 ∧ (0 < a.2 → 0 < b.2)

instance : DecidableRel sortsBefore := fun a b =>
  inferInstanceAs (Decidable (a.1 < b.1 ∨ a.1 = b.1 ∧ (0 < a.2 → 0 < b.2)))

def peakOrderReserve (rows : List ReserveRow) : ℚ :=
  (((reserveEvents rows).insertionSort sortsBefore).foldl
    (fun (running, peak) (_, delta) => (running + delta, max peak (running + delta))) (0, 0)).2

namespace ReserveRow

def Rests (row : ReserveRow) (t : ℚ) : Prop :=
  ∃ placed, row.placedTs = some placed ∧ placed ≤ t ∧ t < row.endTs

/-- The row's market is over and its snapshot is still to come. -/
def Late (row : ReserveRow) (t : ℚ) : Prop :=
  ∃ placed, row.placedTs = some placed ∧ row.endTs ≤ t ∧ t < placed

open Classical in
noncomputable def restsAt (t : ℚ) (row : ReserveRow) : ℚ := if row.Rests t then row.reserve else 0

open Classical in
noncomputable def lateAt (t : ℚ) (row : ReserveRow) : ℚ := if row.Late t then row.reserve else 0

variable (row : ReserveRow) (t : ℚ)

theorem restsAt_nonneg : 0 ≤ row.restsAt t := by
  unfold restsAt
  split
  · exact row.reserve_pos.le
  · exact le_refl _

theorem lateAt_nonneg : 0 ≤ row.lateAt t := by
  unfold lateAt
  split
  · exact row.reserve_pos.le
  · exact le_refl _

theorem lateAt_eq_zero : row.lateAt t = 0 ↔ ¬ row.Late t := by
  unfold lateAt
  split
  · rename_i hlate
    exact ⟨fun h => absurd h row.reserve_pos.ne', fun h => absurd hlate h⟩
  · rename_i hlate
    exact ⟨fun _ => hlate, fun _ => rfl⟩

/-- Rows change at whole seconds. -/
theorem rests_floor : row.Rests ⌊t⌋ ↔ row.Rests t := by
  unfold Rests
  simp only [Int.cast_le, Int.cast_lt, Int.le_floor, Int.floor_lt]

theorem late_floor : row.Late ⌊t⌋ ↔ row.Late t := by
  unfold Late
  simp only [Int.cast_le, Int.cast_lt, Int.le_floor, Int.floor_lt]

end ReserveRow

noncomputable def reserveAt (rows : List ReserveRow) (t : ℚ) : ℚ :=
  (rows.map (ReserveRow.restsAt t)).sum

theorem reserveEvents_eq (rows : List ReserveRow) :
    reserveEvents rows = rows.flatMap fun row =>
      row.placedTs.elim [] fun placed => [(placed, row.reserve), (row.endTs, -row.reserve)] := by
  unfold reserveEvents
  induction rows using List.reverseRecOn with
  | nil => rfl
  | append_singleton rows row ih =>
    rw [List.foldl_append, ih, List.flatMap_append]
    cases hplaced : row.placedTs <;> simp [hplaced]

theorem activeOrderReserve_eq (now : ℤ) (rows : List ReserveRow) :
    activeOrderReserve now rows = reserveAt rows now := by
  unfold activeOrderReserve reserveAt
  induction rows using List.reverseRecOn with
  | nil => rfl
  | append_singleton rows row ih =>
    rw [List.foldl_append, ih, List.map_append, List.sum_append]
    simp only [List.foldl_cons, List.foldl_nil, List.map_cons, List.map_nil, List.sum_singleton,
      ReserveRow.restsAt, ReserveRow.Rests, Int.cast_le, Int.cast_lt]
    cases hplaced : row.placedTs with
    | none => simp
    | some placed =>
      by_cases hrests : placed ≤ now ∧ now < row.endTs
      · simp [hrests]
      · simp [hrests]

/-- What the sweep's level is of one row: what rests, less what a late snapshot
has released already. -/
theorem level_row (row : ReserveRow) (placed t : ℤ) (h : row.placedTs = some placed) :
    level [(placed, row.reserve), (row.endTs, -row.reserve)] t = row.restsAt t - row.lateAt t := by
  have hrests : row.Rests t ↔ placed ≤ t ∧ t < row.endTs := by
    simp [ReserveRow.Rests, h]
  have hlate : row.Late t ↔ row.endTs ≤ t ∧ t < placed := by
    simp [ReserveRow.Late, h]
  unfold level total ReserveRow.restsAt ReserveRow.lateAt
  simp only [hrests, hlate]
  by_cases hplaced : placed ≤ t
  · by_cases hend : row.endTs ≤ t
    · simp [hplaced, hend, not_lt.mpr hplaced, not_lt.mpr hend]
    · simp [hplaced, hend, not_lt.mpr hplaced, not_le.mp hend]
  · by_cases hend : row.endTs ≤ t
    · simp [hplaced, hend, not_le.mp hplaced, not_lt.mpr hend]
    · simp [hplaced, hend]

/-- The sweep's level at a second. -/
theorem level_reserveEvents (rows : List ReserveRow) (t : ℤ) :
    level (reserveEvents rows) t = reserveAt rows t - (rows.map (ReserveRow.lateAt t)).sum := by
  rw [reserveEvents_eq]
  unfold reserveAt
  induction rows with
  | nil => simp [level, total]
  | cons row rows ih =>
    rw [List.flatMap_cons, level_append, ih, List.map_cons, List.map_cons, List.sum_cons,
      List.sum_cons]
    cases hplaced : row.placedTs with
    | none =>
      have hrests : row.restsAt t = 0 := by simp [ReserveRow.restsAt, ReserveRow.Rests, hplaced]
      have hlate : row.lateAt t = 0 := by simp [ReserveRow.lateAt, ReserveRow.Late, hplaced]
      rw [hrests, hlate]
      simp [level, total]
    | some placed =>
      rw [Option.elim_some, level_row row placed t hplaced]
      ring

theorem reserveAt_nonneg (rows : List ReserveRow) (t : ℚ) : 0 ≤ reserveAt rows t :=
  List.sum_nonneg (List.forall_mem_map.mpr fun row _ => row.restsAt_nonneg t)

theorem reserveAt_floor (rows : List ReserveRow) (t : ℚ) :
    reserveAt rows (⌊t⌋ : ℤ) = reserveAt rows t := by
  have hrow : ReserveRow.restsAt ((⌊t⌋ : ℤ) : ℚ) = ReserveRow.restsAt t := by
    funext row
    unfold ReserveRow.restsAt
    by_cases h : row.Rests t
    · rw [if_pos h, if_pos ((row.rests_floor t).mpr h)]
    · rw [if_neg h, if_neg fun hfloor => h ((row.rests_floor t).mp hfloor)]
  unfold reserveAt
  rw [hrow]

/-- Nothing was released early where no late snapshot is waited for. -/
theorem late_sum_eq_zero (rows : List ReserveRow) (t : ℚ) :
    (rows.map (ReserveRow.lateAt t)).sum = 0 ↔ ∀ row ∈ rows, ¬ row.Late t := by
  have hnonneg : ∀ a ∈ rows.map (ReserveRow.lateAt t), 0 ≤ a :=
    List.forall_mem_map.mpr fun row _ => row.lateAt_nonneg t
  constructor
  · intro hsum row hrow
    exact (row.lateAt_eq_zero t).mp
      (List.all_zero_of_le_zero_le_of_sum_eq_zero hnonneg hsum (List.mem_map_of_mem hrow))
  · intro hnone
    refine List.sum_eq_zero (List.forall_mem_map.mpr fun row hrow => ?_)
    exact (row.lateAt_eq_zero t).mpr (hnone row hrow)

theorem late_sum_nonneg (rows : List ReserveRow) (t : ℚ) :
    0 ≤ (rows.map (ReserveRow.lateAt t)).sum :=
  List.sum_nonneg (List.forall_mem_map.mpr fun row _ => row.lateAt_nonneg t)

/-! ### The sweep -/

theorem sortsBefore_trans {a b c : ℤ × ℚ} (hab : sortsBefore a b) (hbc : sortsBefore b c) :
    sortsBefore a c := by
  rcases hab with hab | ⟨hab, hpos⟩
  · rcases hbc with hbc | ⟨hbc, -⟩
    · exact Or.inl (hab.trans hbc)
    · exact Or.inl (hbc ▸ hab)
  · rcases hbc with hbc | ⟨hbc, hpos'⟩
    · exact Or.inl (hab ▸ hbc)
    · exact Or.inr ⟨hab.trans hbc, fun h => hpos' (hpos h)⟩

theorem sortsBefore_total (a b : ℤ × ℚ) : sortsBefore a b ∨ sortsBefore b a := by
  rcases lt_trichotomy a.1 b.1 with h | h | h
  · exact Or.inl (Or.inl h)
  · by_cases hpos : 0 < a.2 → 0 < b.2
    · exact Or.inl (Or.inr ⟨h, hpos⟩)
    · exact Or.inr (Or.inr ⟨h.symm, fun hb => (hpos fun _ => hb).elim⟩)
  · exact Or.inr (Or.inl h)

theorem sorted_reserveEvents (rows : List ReserveRow) :
    ((reserveEvents rows).insertionSort sortsBefore).Pairwise Before := by
  have : Std.Total sortsBefore := ⟨sortsBefore_total⟩
  have : IsTrans (ℤ × ℚ) sortsBefore := ⟨fun _ _ _ => sortsBefore_trans⟩
  exact List.pairwise_insertionSort sortsBefore (reserveEvents rows)

/-- Each level the sweep reaches is what rests then, less what was released
early. -/
theorem level_sorted (rows : List ReserveRow) (t : ℤ) :
    level ((reserveEvents rows).insertionSort sortsBefore) t =
      reserveAt rows t - (rows.map (ReserveRow.lateAt t)).sum :=
  (level_perm (List.perm_insertionSort sortsBefore _) t).trans (level_reserveEvents rows t)

theorem peakOrderReserve_cases (rows : List ReserveRow) :
    peakOrderReserve rows = 0 ∨ ∃ t : ℤ, peakOrderReserve rows =
      reserveAt rows t - (rows.map (ReserveRow.lateAt t)).sum := by
  obtain h | ⟨t, h⟩ := peak_cases (sorted_reserveEvents rows)
  · exact Or.inl h
  · exact Or.inr ⟨t, h.trans (level_sorted rows t)⟩

theorem le_peakOrderReserve (rows : List ReserveRow) (t : ℤ) :
    reserveAt rows t - (rows.map (ReserveRow.lateAt t)).sum ≤ peakOrderReserve rows :=
  (level_sorted rows t).symm.le.trans (level_le_peak (sorted_reserveEvents rows) t)

/-- Before the first market ends no snapshot is late. -/
theorem exists_before (rows : List ReserveRow) : ∃ t : ℚ, ∀ row ∈ rows, ¬ row.Late t := by
  have hearly : ∃ t : ℤ, ∀ row ∈ rows, t < row.endTs := by
    induction rows with
    | nil => exact ⟨0, fun row hrow => absurd hrow List.not_mem_nil⟩
    | cons row rows ih =>
      obtain ⟨t, ht⟩ := ih
      refine ⟨min t (row.endTs - 1), fun r hr => ?_⟩
      rcases List.mem_cons.mp hr with rfl | hr
      · omega
      · have := ht r hr
        omega
  obtain ⟨t, ht⟩ := hearly
  refine ⟨t, fun row hrow ⟨placed, _, hend, _⟩ => ?_⟩
  have := ht row hrow
  exact absurd hend (not_le.mpr (by exact_mod_cast this))

/-- The peak is the most that ever rested, and so no less than what rests now,
exactly where at some instant of the most no late snapshot is waited for. -/
theorem peakOrderReserve_iff (rows : List ReserveRow) :
    (IsGreatest (Set.range (reserveAt rows)) (peakOrderReserve rows) ∧
        ∀ now, activeOrderReserve now rows ≤ peakOrderReserve rows) ↔
      ∃ t, (∀ u, reserveAt rows u ≤ reserveAt rows t) ∧ ∀ row ∈ rows, ¬ row.Late t := by
  constructor
  · intro ⟨⟨_, hgreatest⟩, _⟩
    have hmost : ∀ u, reserveAt rows u ≤ peakOrderReserve rows := fun u => hgreatest ⟨u, rfl⟩
    obtain hzero | ⟨t, ht⟩ := peakOrderReserve_cases rows
    · obtain ⟨t, hlate⟩ := exists_before rows
      refine ⟨t, fun u => ?_, hlate⟩
      have := reserveAt_nonneg rows t
      have := hmost u
      linarith
    · have hnonneg := late_sum_nonneg rows t
      have hat := hmost t
      refine ⟨t, fun u => ?_, (late_sum_eq_zero rows t).mp (by linarith)⟩
      have := hmost u
      linarith
  · intro ⟨t, hmost, hlate⟩
    have hfloor : ∀ row ∈ rows, ¬ row.Late (⌊t⌋ : ℤ) := fun row hrow h =>
      hlate row hrow ((row.late_floor t).mp h)
    have hge : reserveAt rows t ≤ peakOrderReserve rows := by
      have hle := le_peakOrderReserve rows ⌊t⌋
      rw [(late_sum_eq_zero rows _).mpr hfloor, reserveAt_floor] at hle
      linarith
    have hle : peakOrderReserve rows ≤ reserveAt rows t := by
      obtain hzero | ⟨u, hu⟩ := peakOrderReserve_cases rows
      · rw [hzero]
        exact reserveAt_nonneg rows t
      · have := hmost u
        have := late_sum_nonneg rows u
        linarith
    have hpeak : peakOrderReserve rows = reserveAt rows t := le_antisymm hle hge
    refine ⟨⟨⟨t, hpeak.symm⟩, fun a ha => ?_⟩, fun now => ?_⟩
    · obtain ⟨u, rfl⟩ := ha
      rw [hpeak]
      exact hmost u
    · rw [activeOrderReserve_eq, hpeak]
      exact hmost now

def lateRows : List ReserveRow :=
  [⟨some 4000, 6, 1 / 100, 100, by norm_num, by norm_num⟩,
    ⟨some 8000, 3, 1 / 100, 100, by norm_num, by norm_num⟩]

/-- An order rests and the peak says that none ever did. -/
theorem lateRows_peak : peakOrderReserve lateRows = 0 ∧ activeOrderReserve 4 lateRows = 2 := by
  decide +kernel

end EventQuant.Paper
