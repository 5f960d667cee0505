import Mathlib

/-!
Numbers of so many significant digits in a base. A value is rounded to the
nearest of them, a tie to the even one. Exponents are not bounded, so nothing
overflows and nothing is lost near zero.
-/
namespace EventQuant

def roundEven (q : ℚ) : ℤ :=
  if Int.fract q < 1 / 2 ∨ Int.fract q = 1 / 2 ∧ ⌊q⌋ % 2 = 0 then ⌊q⌋ else ⌊q⌋ + 1

theorem floor_le_roundEven (q : ℚ) : ⌊q⌋ ≤ roundEven q := by
  unfold roundEven
  split <;> omega

theorem roundEven_le_floor (q : ℚ) : roundEven q ≤ ⌊q⌋ + 1 := by
  unfold roundEven
  split <;> omega

theorem roundEven_intCast (n : ℤ) : roundEven n = n := by
  unfold roundEven
  rw [Int.fract_intCast, if_pos (.inl (by norm_num)), Int.floor_intCast]

theorem roundEven_mono : Monotone roundEven := by
  intro x y hxy
  rcases (Int.floor_mono hxy).lt_or_eq with hlt | heq
  · have hx := roundEven_le_floor x
    have hy := floor_le_roundEven y
    omega
  · have hfract : Int.fract x ≤ Int.fract y := by
      unfold Int.fract
      rw [heq]
      linarith
    unfold roundEven
    rw [heq]
    split_ifs with hx hy hy
    · exact le_refl _
    · omega
    · exfalso
      refine hx ?_
      rcases hy with hy | ⟨hy, heven⟩
      · exact .inl (hfract.trans_lt hy)
      · rcases (hy ▸ hfract).lt_or_eq with hlt | htie
        · exact .inl hlt
        · exact .inr ⟨htie, heven⟩
    · exact le_refl _

theorem abs_roundEven_sub_le (q : ℚ) : |(roundEven q : ℚ) - q| ≤ 1 / 2 := by
  have hfract := Int.floor_add_fract q
  have hnonneg := Int.fract_nonneg q
  unfold roundEven
  split_ifs with h
  · have hle : Int.fract q ≤ 1 / 2 := h.elim le_of_lt fun h => h.1.le
    rw [abs_le]
    constructor <;> linarith
  · have hge : 1 / 2 ≤ Int.fract q := not_lt.mp fun hlt => h (.inl hlt)
    have hlt := Int.fract_lt_one q
    push_cast
    rw [abs_le]
    constructor <;> linarith

theorem roundEven_neg (q : ℚ) : roundEven (-q) = -roundEven q := by
  by_cases hzero : Int.fract q = 0
  · obtain ⟨n, rfl⟩ : ∃ n : ℤ, q = n := ⟨⌊q⌋, by linarith [Int.floor_add_fract q]⟩
    rw [← Int.cast_neg, roundEven_intCast, roundEven_intCast]
  · have hfract : Int.fract (-q) = 1 - Int.fract q := Int.fract_neg hzero
    have hfloor : ⌊-q⌋ = -⌊q⌋ - 1 := by
      have h := Int.floor_add_fract q
      have h' := Int.floor_add_fract (-q)
      have hcast : ((⌊-q⌋ : ℤ) : ℚ) = ((-⌊q⌋ - 1 : ℤ) : ℚ) := by
        push_cast
        linarith
      exact_mod_cast hcast
    unfold roundEven
    rw [hfract, hfloor]
    rcases lt_trichotomy (Int.fract q) (1 / 2) with hlt | htie | hgt
    · rw [if_neg, if_pos (.inl hlt)]
      · ring
      · rintro (h | ⟨h, -⟩) <;> linarith
    · rw [htie]
      -- of two neighbours one is even, whichever side the tie is looked at from
      rcases Int.emod_two_eq_zero_or_one ⌊q⌋ with heven | hodd
      · rw [if_neg, if_pos (.inr ⟨rfl, heven⟩)]
        · ring
        · rintro (h | ⟨-, h⟩)
          · norm_num at h
          · omega
      · rw [if_pos (.inr ⟨by norm_num, by omega⟩), if_neg]
        · ring
        · rintro (h | ⟨-, h⟩)
          · exact lt_irrefl _ h
          · omega
    · rw [if_pos (.inl (by linarith)), if_neg]
      · ring
      · rintro (h | ⟨h, -⟩) <;> linarith

/-- So many significant digits in a base. -/
structure Precision where
  base : ℕ
  digits : ℕ
  one_lt_base : 1 < base
  digits_pos : 0 < digits

namespace Precision

def binary64 : Precision := ⟨2, 53, by decide, by decide⟩

def decimal28 : Precision := ⟨10, 28, by decide, by decide⟩

variable (π : Precision)

theorem base_pos : (0 : ℚ) < π.base := by
  exact_mod_cast zero_lt_one.trans π.one_lt_base

theorem one_le_base : (1 : ℚ) ≤ π.base := by
  exact_mod_cast π.one_lt_base.le

/-- What the last of a value's digits counts. -/
def unit (q : ℚ) : ℚ := (π.base : ℚ) ^ (Int.log π.base |q| + 1 - π.digits)

def round (q : ℚ) : ℚ := roundEven (q / π.unit q) * π.unit q

def Holds (q : ℚ) : Prop := ∃ m k : ℤ, |m| ≤ π.base ^ π.digits ∧ q = m * (π.base : ℚ) ^ k

theorem unit_pos (q : ℚ) : 0 < π.unit q := zpow_pos π.base_pos _

@[simp] theorem unit_neg (q : ℚ) : π.unit (-q) = π.unit q := by
  unfold unit
  rw [abs_neg]

@[simp] theorem round_zero : π.round 0 = 0 := by
  unfold round
  rw [zero_div, ← Int.cast_zero, roundEven_intCast, Int.cast_zero, zero_mul]

theorem round_neg (q : ℚ) : π.round (-q) = -π.round q := by
  unfold round
  rw [unit_neg, neg_div, roundEven_neg, Int.cast_neg, neg_mul]

/-- A value lies within its digits, and reaches the first of them. -/
theorem unit_bounds {q : ℚ} (hq : 0 < q) :
    (π.base : ℚ) ^ (π.digits - 1 : ℕ) ≤ q / π.unit q ∧ q / π.unit q < (π.base : ℚ) ^ π.digits := by
  have hlow := Int.zpow_log_le_self π.one_lt_base hq
  have hhigh := Int.lt_zpow_succ_log_self π.one_lt_base q
  have hne := π.base_pos.ne'
  have hdigits := π.digits_pos
  rw [le_div_iff₀ (π.unit_pos q), div_lt_iff₀ (π.unit_pos q)]
  unfold unit
  rw [abs_of_pos hq, ← zpow_natCast, ← zpow_natCast, ← zpow_add₀ hne, ← zpow_add₀ hne]
  constructor
  · refine le_trans (le_of_eq ?_) hlow
    congr 1
    omega
  · refine lt_of_lt_of_eq hhigh ?_
    congr 1
    omega

theorem round_le_pow {q : ℚ} (hq : 0 < q) :
    (π.base : ℚ) ^ Int.log π.base q ≤ π.round q ∧
      π.round q ≤ (π.base : ℚ) ^ (Int.log π.base q + 1) := by
  obtain ⟨hlow, hhigh⟩ := π.unit_bounds hq
  have hne := π.base_pos.ne'
  have hdigits := π.digits_pos
  have hcast : ∀ n : ℕ, (π.base : ℚ) ^ n = ((π.base ^ n : ℤ) : ℚ) := fun n => by push_cast; rfl
  have hlow' : (π.base : ℤ) ^ (π.digits - 1) ≤ roundEven (q / π.unit q) := by
    rw [← roundEven_intCast (π.base ^ (π.digits - 1)), ← hcast]
    exact roundEven_mono hlow
  have hhigh' : roundEven (q / π.unit q) ≤ (π.base : ℤ) ^ π.digits := by
    rw [← roundEven_intCast (π.base ^ π.digits), ← hcast]
    exact roundEven_mono hhigh.le
  have hunit : π.unit q = (π.base : ℚ) ^ (Int.log π.base q + 1 - π.digits) := by
    unfold unit
    rw [abs_of_pos hq]
  constructor
  · calc (π.base : ℚ) ^ Int.log π.base q
        = (π.base : ℚ) ^ (π.digits - 1) * π.unit q := by
          rw [hunit, ← zpow_natCast, ← zpow_add₀ hne]
          congr 1
          omega
      _ ≤ π.round q := by
          refine mul_le_mul_of_nonneg_right ?_ (π.unit_pos q).le
          rw [hcast]
          exact_mod_cast hlow'
  · calc π.round q ≤ (π.base : ℚ) ^ π.digits * π.unit q := by
          refine mul_le_mul_of_nonneg_right ?_ (π.unit_pos q).le
          rw [hcast]
          exact_mod_cast hhigh'
      _ = (π.base : ℚ) ^ (Int.log π.base q + 1) := by
          rw [hunit, ← zpow_natCast, ← zpow_add₀ hne]
          congr 1
          omega

theorem round_pos {q : ℚ} (hq : 0 < q) : 0 < π.round q :=
  (zpow_pos π.base_pos _).trans_le (π.round_le_pow hq).1

theorem round_nonneg {q : ℚ} (hq : 0 ≤ q) : 0 ≤ π.round q := by
  rcases hq.lt_or_eq with hq | rfl
  · exact (π.round_pos hq).le
  · rw [round_zero]

/-- Values of one size are rounded in order; of two sizes, a power of the base
lies between them. -/
theorem round_le_of_pos {x y : ℚ} (hx : 0 < x) (hxy : x ≤ y) : π.round x ≤ π.round y := by
  have hy := hx.trans_le hxy
  rcases (Int.log_mono_right (b := π.base) hx hxy).lt_or_eq with hlt | heq
  · calc π.round x ≤ (π.base : ℚ) ^ (Int.log π.base x + 1) := (π.round_le_pow hx).2
      _ ≤ (π.base : ℚ) ^ Int.log π.base y := zpow_le_zpow_right₀ π.one_le_base (by omega)
      _ ≤ π.round y := (π.round_le_pow hy).1
  · have hunit : π.unit x = π.unit y := by
      unfold unit
      rw [abs_of_pos hx, abs_of_pos hy, heq]
    unfold round
    rw [hunit]
    refine mul_le_mul_of_nonneg_right ?_ (π.unit_pos y).le
    exact_mod_cast roundEven_mono (div_le_div_of_nonneg_right hxy (π.unit_pos y).le)

theorem round_mono : Monotone π.round := by
  intro x y hxy
  rcases lt_trichotomy x 0 with hx | rfl | hx
  · rcases lt_or_ge y 0 with hy | hy
    · have h := π.round_le_of_pos (neg_pos.mpr hy) (neg_le_neg hxy)
      rw [round_neg, round_neg] at h
      exact neg_le_neg_iff.mp h
    · have h := π.round_nonneg (neg_nonneg.mpr hx.le)
      rw [round_neg] at h
      linarith [π.round_nonneg hy]
  · rw [round_zero]
    exact π.round_nonneg hxy
  · exact π.round_le_of_pos hx hxy

/-- A number of these digits stays as it is. -/
theorem round_of_holds {q : ℚ} (h : π.Holds q) : π.round q = q := by
  obtain ⟨m, k, hm, rfl⟩ := h
  by_cases hzero : m = 0
  · rw [hzero, Int.cast_zero, zero_mul, round_zero]
  have hne := π.base_pos.ne'
  have hpos : (0 : ℚ) < |(m : ℚ)| := abs_pos.mpr (by exact_mod_cast hzero)
  have hdigits := π.digits_pos
  obtain ⟨n, hn⟩ : ∃ n : ℤ, (m : ℚ) * (π.base : ℚ) ^ k / π.unit (m * (π.base : ℚ) ^ k) = n := by
    have hlog : Int.log π.base |(m : ℚ) * (π.base : ℚ) ^ k| = Int.log π.base |(m : ℚ)| + k := by
      have hscaled : 0 < |(m : ℚ)| * (π.base : ℚ) ^ k := mul_pos hpos (zpow_pos π.base_pos k)
      rw [abs_mul, abs_of_pos (zpow_pos π.base_pos k)]
      apply le_antisymm
      · rw [← Int.lt_add_one_iff, ← Int.lt_zpow_iff_log_lt π.one_lt_base hscaled, add_right_comm,
          zpow_add₀ hne _ k]
        exact mul_lt_mul_of_pos_right (Int.lt_zpow_succ_log_self π.one_lt_base _)
          (zpow_pos π.base_pos k)
      · rw [← Int.zpow_le_iff_le_log π.one_lt_base hscaled, zpow_add₀ hne]
        exact mul_le_mul_of_nonneg_right (Int.zpow_log_le_self π.one_lt_base hpos)
          (zpow_pos π.base_pos k).le
    have hquot : (m : ℚ) * (π.base : ℚ) ^ k / π.unit (m * (π.base : ℚ) ^ k) =
        m * (π.base : ℚ) ^ (π.digits - 1 - Int.log π.base |(m : ℚ)|) := by
      unfold unit
      rw [hlog, div_eq_mul_inv, ← zpow_neg, mul_assoc, ← zpow_add₀ hne]
      congr 2
      ring
    rw [hquot]
    by_cases hshort : Int.log π.base |(m : ℚ)| < π.digits
    · refine ⟨m * π.base ^ (π.digits - 1 - Int.log π.base |(m : ℚ)|).toNat, ?_⟩
      push_cast
      rw [← zpow_natCast, Int.toNat_of_nonneg (by omega)]
    · -- the one number of a digit more is the next power of the base
      have hle : |(m : ℚ)| ≤ (π.base : ℚ) ^ (π.digits : ℤ) := by
        rw [zpow_natCast]
        exact_mod_cast hm
      have hge : (π.base : ℚ) ^ (π.digits : ℤ) ≤ |(m : ℚ)| :=
        (Int.zpow_le_iff_le_log π.one_lt_base hpos).mpr (not_lt.mp hshort)
      have heq := le_antisymm hle hge
      have hlast : (π.base : ℚ) ^ (π.digits : ℤ) * (π.base : ℚ) ^ (-1 : ℤ) =
          ((π.base ^ (π.digits - 1) : ℕ) : ℚ) := by
        rw [← zpow_add₀ hne, Nat.cast_pow, ← zpow_natCast]
        congr 1
        omega
      rw [heq, Int.log_zpow π.one_lt_base, show (π.digits : ℤ) - 1 - π.digits = -1 by ring]
      rcases abs_choice (m : ℚ) with hsign | hsign
      · exact ⟨(π.base ^ (π.digits - 1) : ℕ), by rw [← hsign, heq, hlast]; rfl⟩
      · refine ⟨-(π.base ^ (π.digits - 1) : ℕ), ?_⟩
        have hneg : (m : ℚ) = -(π.base : ℚ) ^ (π.digits : ℤ) := by linarith
        rw [hneg, neg_mul, hlast, Int.cast_neg, Int.cast_natCast]
  unfold round
  rw [hn, roundEven_intCast, ← hn, div_mul_cancel₀ _ (π.unit_pos _).ne']

theorem holds_zero : π.Holds 0 := ⟨0, 0, by simp, by simp⟩

theorem holds_neg {q : ℚ} (h : π.Holds q) : π.Holds (-q) := by
  obtain ⟨m, k, hm, rfl⟩ := h
  exact ⟨-m, k, by rwa [abs_neg], by push_cast; ring⟩

theorem round_holds (q : ℚ) : π.Holds (π.round q) := by
  have hpositive : ∀ q : ℚ, 0 < q → π.Holds (π.round q) := by
    intro q hq
    refine ⟨roundEven (q / π.unit q), _, ?_, rfl⟩
    obtain ⟨-, hhigh⟩ := π.unit_bounds hq
    have hle : roundEven (q / π.unit q) ≤ (π.base : ℤ) ^ π.digits := by
      rw [← roundEven_intCast (π.base ^ π.digits)]
      push_cast
      exact roundEven_mono hhigh.le
    have hnonneg : 0 ≤ roundEven (q / π.unit q) := by
      rw [← roundEven_intCast 0, Int.cast_zero]
      exact roundEven_mono (div_pos hq (π.unit_pos q)).le
    rwa [abs_of_nonneg hnonneg]
  rcases lt_trichotomy q 0 with hq | rfl | hq
  · have h := π.holds_neg (hpositive (-q) (neg_pos.mpr hq))
    rwa [round_neg, neg_neg] at h
  · rw [round_zero]
    exact π.holds_zero
  · exact hpositive q hq

/-- Half a unit of the last digit is the most that is lost. -/
theorem abs_round_sub_le (q : ℚ) : |π.round q - q| ≤ π.unit q / 2 := by
  have hunit := π.unit_pos q
  have hsplit : π.round q - q = (roundEven (q / π.unit q) - q / π.unit q) * π.unit q := by
    rw [sub_mul, div_mul_cancel₀ _ hunit.ne']
    rfl
  rw [hsplit, abs_mul, abs_of_pos hunit]
  calc |(roundEven (q / π.unit q) : ℚ) - q / π.unit q| * π.unit q
      ≤ 1 / 2 * π.unit q := mul_le_mul_of_nonneg_right (abs_roundEven_sub_le _) hunit.le
    _ = π.unit q / 2 := by ring

/-- Half a unit of the last digit, of a value below a power of the base. -/
theorem abs_round_sub_le_of_lt {q : ℚ} {n : ℤ} (hq : |q| < (π.base : ℚ) ^ n) :
    |π.round q - q| ≤ (π.base : ℚ) ^ (n - π.digits) / 2 := by
  rcases eq_or_ne q 0 with rfl | hzero
  · rw [round_zero, sub_zero, abs_zero]
    exact (div_pos (zpow_pos π.base_pos _) two_pos).le
  · refine (π.abs_round_sub_le q).trans (div_le_div_of_nonneg_right ?_ two_pos.le)
    have hlog := (Int.lt_zpow_iff_log_lt π.one_lt_base (abs_pos.mpr hzero)).mp hq
    exact zpow_le_zpow_right₀ π.one_le_base (by omega)

def error : ℚ := (π.base : ℚ) ^ (1 - π.digits : ℤ) / 2

theorem error_nonneg : 0 ≤ π.error := (div_pos (zpow_pos π.base_pos _) two_pos).le

theorem abs_round_sub_le_error (q : ℚ) : |π.round q - q| ≤ π.error * |q| := by
  rcases eq_or_ne q 0 with rfl | hzero
  · simp
  · refine (π.abs_round_sub_le q).trans ?_
    have hlow := Int.zpow_log_le_self π.one_lt_base (abs_pos.mpr hzero)
    have hunit : π.unit q = (π.base : ℚ) ^ (1 - π.digits : ℤ) * (π.base : ℚ) ^ Int.log π.base |q| := by
      unfold unit
      rw [← zpow_add₀ π.base_pos.ne']
      congr 1
      ring
    have hscale := mul_le_mul_of_nonneg_left hlow (zpow_pos π.base_pos (1 - π.digits : ℤ)).le
    unfold error
    rw [hunit]
    linarith

end Precision

end EventQuant
