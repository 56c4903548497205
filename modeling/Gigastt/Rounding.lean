import Mathlib.Algebra.Order.Floor.Ring
import Mathlib.Algebra.Order.Round
import Mathlib.Data.Int.Log
import Mathlib.Data.Rat.Floor
import Mathlib.Tactic.FieldSimp
import Mathlib.Tactic.Linarith
import Mathlib.Tactic.Ring
import Mathlib.Tactic.Positivity

/-!
Rounding of rational arithmetic. A rounding is monotone, commutes with doubling and fixes its own
values; an operation of a floating-point format is the exact operation, rounded. Exact arithmetic is
one rounding; the binary formats (ties to even, exponents unbounded) are others.
-/

structure Rounding where
  round : ℚ → ℚ
  monotone : ∀ {x y : ℚ}, x ≤ y → round x ≤ round y
  double : ∀ x, round (2 * x) = 2 * round x
  idem : ∀ x, round (round x) = round x

namespace Rounding

/-- A value of the format. -/
def IsValue (rnd : Rounding) (x : ℚ) : Prop := rnd.round x = x

def add (rnd : Rounding) (x y : ℚ) : ℚ := rnd.round (x + y)

def sub (rnd : Rounding) (x y : ℚ) : ℚ := rnd.round (x - y)

def mul (rnd : Rounding) (x y : ℚ) : ℚ := rnd.round (x * y)

def div (rnd : Rounding) (x y : ℚ) : ℚ := rnd.round (x / y)

variable (rnd : Rounding)

theorem isValue_round (x : ℚ) : rnd.IsValue (rnd.round x) := rnd.idem x

theorem round_zero : rnd.round 0 = 0 := by
  have h := rnd.double 0
  rw [mul_zero] at h
  linarith

/-- The midpoint of two values lies between them. -/
theorem le_midpoint {x y : ℚ} (hx : rnd.IsValue x) (hxy : x ≤ y) :
    x ≤ rnd.div (rnd.add x y) 2 := by
  have hsum : 2 * x ≤ rnd.add x y := by
    calc 2 * x = rnd.round (2 * x) := by rw [rnd.double, hx]
      _ ≤ rnd.round (x + y) := rnd.monotone (by linarith)
  calc x = rnd.round x := hx.symm
    _ ≤ rnd.round (rnd.add x y / 2) := rnd.monotone (by linarith)

theorem midpoint_le {x y : ℚ} (hy : rnd.IsValue y) (hxy : x ≤ y) :
    rnd.div (rnd.add x y) 2 ≤ y := by
  have hsum : rnd.add x y ≤ 2 * y := by
    calc rnd.round (x + y) ≤ rnd.round (2 * y) := rnd.monotone (by linarith)
      _ = 2 * y := by rw [rnd.double, hy]
  calc rnd.round (rnd.add x y / 2) ≤ rnd.round y := rnd.monotone (by linarith)
    _ = y := hy

/-- Exact arithmetic. -/
def exact : Rounding where
  round x := x
  monotone h := h
  double _ := rfl
  idem _ := rfl

/-- The nearest integer, ties to even. -/
def roundEven (x : ℚ) : ℤ :=
  let r := x - ⌊x⌋
  if r < 1 / 2 then ⌊x⌋
  else if 1 / 2 < r then ⌊x⌋ + 1
  else if ⌊x⌋ % 2 = 0 then ⌊x⌋ else ⌊x⌋ + 1

theorem roundEven_intCast (n : ℤ) : roundEven n = n := by
  simp [roundEven]

theorem roundEven_bounds (x : ℚ) : ⌊x⌋ ≤ roundEven x ∧ roundEven x ≤ ⌊x⌋ + 1 := by
  dsimp only [roundEven]
  split_ifs <;> omega

theorem roundEven_mono {x y : ℚ} (h : x ≤ y) : roundEven x ≤ roundEven y := by
  rcases (Int.floor_le_floor h).lt_or_eq with hlt | heq
  · have hx := (roundEven_bounds x).2
    have hy := (roundEven_bounds y).1
    omega
  · -- within one unit the fraction decides, and only a half asks for the parity
    dsimp only [roundEven]
    rw [← heq]
    have hfrac : x - ⌊x⌋ ≤ y - ⌊x⌋ := by linarith
    split_ifs <;> first | omega | linarith

theorem le_roundEven {x : ℚ} {n : ℤ} (h : (n : ℚ) ≤ x) : n ≤ roundEven x := by
  rw [← roundEven_intCast n]
  exact roundEven_mono h

theorem roundEven_le {x : ℚ} {n : ℤ} (h : x ≤ n) : roundEven x ≤ n := by
  rw [← roundEven_intCast n]
  exact roundEven_mono h

/-- The nearest integer is half a unit away at most. -/
theorem roundEven_error (x : ℚ) : |roundEven x - x| ≤ 1 / 2 := by
  have hlow := Int.floor_le x
  have hhigh := Int.lt_floor_add_one x
  rw [abs_le]
  dsimp only [roundEven]
  split_ifs <;> constructor <;> push_cast <;> linarith

/-- No result is off by more than one part in `2 ^ 53`. -/
def Precise (rnd : Rounding) : Prop := ∀ x, |rnd.round x - x| ≤ |x| / 2 ^ 53

theorem Precise.le_round {rnd : Rounding} (h : rnd.Precise) {x : ℚ} (hx : 0 ≤ x) :
    rnd.round x ≤ x * (1 + 1 / 2 ^ 53) := by
  have herror := (abs_le.mp (h x)).2
  rw [abs_of_nonneg hx] at herror
  linarith

section Binary

variable (bits : ℕ)

/-- The unit in the last place of a positive number with `bits` fraction bits. -/
def ulp (x : ℚ) : ℚ := 2 ^ (Int.log 2 x - bits)

theorem ulp_pos (x : ℚ) : 0 < ulp bits x := zpow_pos (by norm_num) _

def magnitude (x : ℚ) : ℚ := roundEven (x / ulp bits x) * ulp bits x

theorem ulp_mul_le {x : ℚ} (hx : 0 < x) : 2 ^ bits * ulp bits x ≤ x := by
  calc (2 : ℚ) ^ bits * ulp bits x = 2 ^ Int.log 2 x := by
        rw [ulp, ← zpow_natCast, ← zpow_add₀ (by norm_num)]
        congr 1
        ring
    _ ≤ x := by exact_mod_cast Int.zpow_log_le_self (R := ℚ) (b := 2) (by norm_num) hx

theorem le_ulp_mul (x : ℚ) : x ≤ 2 ^ (bits + 1) * ulp bits x := by
  calc x ≤ 2 ^ (Int.log 2 x + 1) := by
        exact_mod_cast (Int.lt_zpow_succ_log_self (R := ℚ) (b := 2) (by norm_num) x).le
    _ = 2 ^ (bits + 1) * ulp bits x := by
        rw [ulp, ← zpow_natCast, ← zpow_add₀ (by norm_num)]
        congr 1
        push_cast
        ring

/-- A rounded positive number keeps the unit of the exact one, up to its largest multiple. -/
theorem magnitude_bounds {x : ℚ} (hx : 0 < x) :
    2 ^ bits * ulp bits x ≤ magnitude bits x ∧ magnitude bits x ≤ 2 ^ (bits + 1) * ulp bits x := by
  have hlow : ((2 ^ bits : ℤ) : ℚ) ≤ x / ulp bits x := by
    rw [le_div_iff₀ (ulp_pos bits x)]
    exact_mod_cast ulp_mul_le bits hx
  have hhigh : x / ulp bits x ≤ ((2 ^ (bits + 1) : ℤ) : ℚ) := by
    rw [div_le_iff₀ (ulp_pos bits x)]
    exact_mod_cast le_ulp_mul bits x
  have hcast_low : ((2 ^ bits : ℤ) : ℚ) ≤ roundEven (x / ulp bits x) := by
    exact_mod_cast le_roundEven hlow
  have hcast_high : (roundEven (x / ulp bits x) : ℚ) ≤ ((2 ^ (bits + 1) : ℤ) : ℚ) := by
    exact_mod_cast roundEven_le hhigh
  push_cast at hcast_low hcast_high
  exact ⟨mul_le_mul_of_nonneg_right hcast_low (ulp_pos bits x).le,
    mul_le_mul_of_nonneg_right hcast_high (ulp_pos bits x).le⟩

theorem magnitude_pos {x : ℚ} (hx : 0 < x) : 0 < magnitude bits x :=
  lt_of_lt_of_le (mul_pos (by positivity) (ulp_pos bits x)) (magnitude_bounds bits hx).1

theorem magnitude_zero : magnitude bits 0 = 0 := by
  have hzero : roundEven 0 = 0 := by exact_mod_cast roundEven_intCast 0
  rw [magnitude, zero_div, hzero, Int.cast_zero, zero_mul]

theorem magnitude_nonneg {x : ℚ} (hx : 0 ≤ x) : 0 ≤ magnitude bits x := by
  rcases hx.lt_or_eq with hpos | rfl
  · exact (magnitude_pos bits hpos).le
  · exact (magnitude_zero bits).ge

theorem magnitude_mono {x y : ℚ} (hx : 0 ≤ x) (h : x ≤ y) : magnitude bits x ≤ magnitude bits y := by
  rcases hx.lt_or_eq with hpos | rfl
  · have hlog : Int.log 2 x ≤ Int.log 2 y := Int.log_mono_right hpos h
    rcases hlog.lt_or_eq with hlt | heq
    · -- the largest multiple of the finer unit is the smallest of the coarser one
      calc magnitude bits x ≤ 2 ^ (bits + 1) * ulp bits x := (magnitude_bounds bits hpos).2
        _ = 2 ^ bits * (2 ^ (Int.log 2 x - bits + 1) : ℚ) := by
            rw [ulp, zpow_add_one₀ (by norm_num), pow_succ]
            ring
        _ ≤ 2 ^ bits * ulp bits y := by
            refine mul_le_mul_of_nonneg_left ?_ (by positivity)
            exact zpow_le_zpow_right₀ (by norm_num) (by omega)
        _ ≤ magnitude bits y := (magnitude_bounds bits (lt_of_lt_of_le hpos h)).1
    · have hunit : ulp bits x = ulp bits y := by rw [ulp, ulp, heq]
      rw [magnitude, magnitude, hunit]
      refine mul_le_mul_of_nonneg_right ?_ (ulp_pos bits y).le
      exact_mod_cast roundEven_mono ((div_le_div_iff_of_pos_right (ulp_pos bits y)).mpr h)
  · rw [magnitude_zero]
    exact magnitude_nonneg bits h

theorem log_double {x : ℚ} (hx : 0 < x) : Int.log 2 (2 * x) = Int.log 2 x + 1 := by
  apply eq_of_forall_le_iff
  intro k
  have hpow : ((2 : ℕ) : ℚ) ^ k = 2 * ((2 : ℕ) : ℚ) ^ (k - 1) := by
    rw [Nat.cast_ofNat, ← zpow_one_add₀ two_ne_zero]
    congr 1
    ring
  rw [← Int.zpow_le_iff_le_log (by norm_num) (by linarith), hpow,
    mul_le_mul_iff_right₀ (by norm_num), Int.zpow_le_iff_le_log (by norm_num) hx]
  omega

theorem magnitude_double {x : ℚ} (hx : 0 ≤ x) : magnitude bits (2 * x) = 2 * magnitude bits x := by
  rcases hx.lt_or_eq with hpos | rfl
  · have hunit : ulp bits (2 * x) = 2 * ulp bits x := by
      rw [ulp, ulp, log_double hpos, ← zpow_one_add₀ (by norm_num)]
      congr 1
      ring
    rw [magnitude, magnitude, hunit, mul_div_mul_left _ _ (by norm_num)]
    ring
  · rw [mul_zero, magnitude_zero, mul_zero]

/-- A multiple of a unit with `bits` fraction bits is its own rounding. -/
theorem magnitude_of_multiple {n e : ℤ} (hlow : 2 ^ bits ≤ n) (hhigh : n < 2 ^ (bits + 1)) :
    magnitude bits (n * 2 ^ e) = n * 2 ^ e := by
  have hunit : (0 : ℚ) < 2 ^ e := zpow_pos (by norm_num) e
  have hlow' : (2 : ℚ) ^ bits ≤ n := by exact_mod_cast hlow
  have hhigh' : (n : ℚ) < 2 ^ (bits + 1) := by exact_mod_cast hhigh
  have hpos : (0 : ℚ) < n * 2 ^ e := mul_pos (lt_of_lt_of_le (by positivity) hlow') hunit
  have hsplit : ∀ k : ℕ, ((2 : ℕ) : ℚ) ^ ((k : ℤ) + e) = 2 ^ k * 2 ^ e := by
    intro k
    rw [Nat.cast_ofNat, zpow_add₀ two_ne_zero, zpow_natCast]
  have hlog : Int.log 2 ((n : ℚ) * 2 ^ e) = bits + e := by
    refine le_antisymm (Int.lt_add_one_iff.mp ?_) ?_
    · rw [← Int.lt_zpow_iff_log_lt (by norm_num) hpos]
      calc (n : ℚ) * 2 ^ e < 2 ^ (bits + 1) * 2 ^ e := mul_lt_mul_of_pos_right hhigh' hunit
        _ = ((2 : ℕ) : ℚ) ^ (bits + e + 1) := by
            rw [← hsplit (bits + 1)]
            congr 1
            push_cast
            ring
    · rw [← Int.zpow_le_iff_le_log (by norm_num) hpos, hsplit bits]
      exact mul_le_mul_of_nonneg_right hlow' hunit.le
  have hulp : ulp bits ((n : ℚ) * 2 ^ e) = 2 ^ e := by
    rw [ulp, hlog]
    congr 1
    ring
  rw [magnitude, hulp, mul_div_cancel_right₀ _ hunit.ne', roundEven_intCast]

theorem magnitude_idem {x : ℚ} (hx : 0 ≤ x) :
    magnitude bits (magnitude bits x) = magnitude bits x := by
  rcases hx.lt_or_eq with hpos | rfl
  · obtain ⟨hlow, hhigh⟩ := magnitude_bounds bits hpos
    rw [magnitude, mul_le_mul_iff_left₀ (ulp_pos bits x)] at hlow hhigh
    have hlow' : 2 ^ bits ≤ roundEven (x / ulp bits x) := by exact_mod_cast hlow
    have hhigh' : roundEven (x / ulp bits x) ≤ 2 ^ (bits + 1) := by exact_mod_cast hhigh
    rcases hhigh'.lt_or_eq with hlt | htop
    · exact magnitude_of_multiple bits hlow' hlt
    · -- the top multiple is the smallest one of the next unit
      have hnext : magnitude bits x = ((2 ^ bits : ℤ) : ℚ) * 2 ^ (Int.log 2 x - bits + 1) := by
        rw [magnitude, htop, ulp, zpow_add_one₀ (by norm_num), pow_succ]
        push_cast
        ring
      have hpos : (0 : ℤ) < 2 ^ bits := pow_pos (by norm_num) bits
      rw [hnext, magnitude_of_multiple bits le_rfl (by rw [pow_succ]; linarith)]
  · rw [magnitude_zero, magnitude_zero]

/-- Round to nearest with `bits` fraction bits, ties to even. -/
def binary : Rounding where
  round x := if 0 ≤ x then magnitude bits x else -magnitude bits (-x)
  monotone := by
    intro x y h
    split_ifs with hx hy hy
    · exact magnitude_mono bits hx h
    · exact absurd (hx.trans h) hy
    · have hneg := magnitude_pos bits (neg_pos.mpr (not_le.mp hx))
      have hpos := magnitude_nonneg bits hy
      linarith
    · have hle := magnitude_mono bits (neg_pos.mpr (not_le.mp hy)).le (neg_le_neg h)
      linarith
  double x := by
    by_cases hx : 0 ≤ x
    · rw [if_pos hx, if_pos (by linarith), magnitude_double bits hx]
    · rw [if_neg hx, if_neg (by linarith), ← mul_neg, magnitude_double bits (by linarith), mul_neg]
  idem x := by
    by_cases hx : 0 ≤ x
    · rw [if_pos hx, if_pos (magnitude_nonneg bits hx), magnitude_idem bits hx]
    · have hpos := magnitude_pos bits (neg_pos.mpr (not_le.mp hx))
      rw [if_neg hx, if_neg (by linarith), neg_neg, magnitude_idem bits (by linarith)]

theorem binary_neg (x : ℚ) : (binary bits).round (-x) = -(binary bits).round x := by
  show (if 0 ≤ -x then _ else _) = -(if 0 ≤ x then _ else _)
  rcases lt_trichotomy x 0 with hx | rfl | hx
  · rw [if_pos (by linarith), if_neg (by linarith), neg_neg]
  · simp [magnitude_zero]
  · rw [if_neg (by linarith), if_pos (by linarith), neg_neg]

/-- Natural numbers with few enough bits are values. -/
theorem binary_natCast {n : ℕ} (h : n < 2 ^ (bits + 1)) : (binary bits).round n = n := by
  show (if 0 ≤ (n : ℚ) then magnitude bits n else _) = _
  rw [if_pos (Nat.cast_nonneg n)]
  rcases n.eq_zero_or_pos with rfl | hn
  · rw [Nat.cast_zero, magnitude_zero]
  have hpos : (0 : ℚ) < n := Nat.cast_pos.mpr hn
  have hlog : Int.log 2 (n : ℚ) < bits + 1 := by
    rw [← Int.lt_zpow_iff_log_lt (by norm_num) hpos]
    exact_mod_cast h
  obtain ⟨k, hk⟩ := Int.eq_ofNat_of_zero_le (show 0 ≤ (bits : ℤ) - Int.log 2 (n : ℚ) by omega)
  have hunits : (n : ℚ) / ulp bits n = ((n * 2 ^ k : ℤ) : ℚ) := by
    rw [ulp, ← neg_sub, hk, zpow_neg, div_inv_eq_mul, zpow_natCast]
    push_cast
    rfl
  rw [magnitude, hunits, roundEven_intCast, ← hunits, div_mul_cancel₀ _ (ulp_pos bits _).ne']

theorem magnitude_error {x : ℚ} (hx : 0 ≤ x) : |magnitude bits x - x| ≤ x / 2 ^ (bits + 1) := by
  rcases hx.lt_or_eq with hpos | rfl
  · have hunit := ulp_pos bits x
    calc |magnitude bits x - x| = |roundEven (x / ulp bits x) - x / ulp bits x| * ulp bits x := by
          rw [← abs_of_pos hunit, ← abs_mul, abs_of_pos hunit, sub_mul,
            div_mul_cancel₀ _ hunit.ne', magnitude]
      _ ≤ 1 / 2 * ulp bits x := mul_le_mul_of_nonneg_right (roundEven_error _) hunit.le
      _ ≤ x / 2 ^ (bits + 1) := by
          rw [le_div_iff₀ (by positivity), pow_succ]
          linarith [ulp_mul_le bits hpos]
  · simp [magnitude_zero]

theorem binary_error (x : ℚ) : |(binary bits).round x - x| ≤ |x| / 2 ^ (bits + 1) := by
  show |(if 0 ≤ x then magnitude bits x else -magnitude bits (-x)) - x| ≤ _
  split_ifs with hx
  · rw [abs_of_nonneg hx]
    exact magnitude_error bits hx
  · have hneg : 0 ≤ -x := by linarith
    rw [← neg_add', abs_neg, ← sub_neg_eq_add, abs_of_neg (not_le.mp hx)]
    exact magnitude_error bits hneg

end Binary

def binary64 : Rounding := binary 52

def binary32 : Rounding := binary 23

theorem binary64_precise : binary64.Precise := binary_error 52

end Rounding
