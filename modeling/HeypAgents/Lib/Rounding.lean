import Mathlib.Data.Int.Log
import Mathlib.Data.Rat.Floor
import Mathlib.Tactic.Positivity

/-!
# Rounding of rational numbers

A machine computes with a set of rational numbers, the values of its number format.  The
result of each operation is the exact one, rounded to a value.  `Rounding.ideal` is
arithmetic without rounding, and `Rounding.binary64` rounds to the nearest double, with
ties to even.  The exponents of `binary64` have no upper bound, so that a result beyond the
largest double stays a large number and is not an infinity.
-/

namespace HeypAgents

/-- A set of values that is closed under negation, and a monotone rounding to it. -/
structure Rounding where
  values : Set ℚ
  round : ℚ → ℚ
  round_mem : ∀ x, round x ∈ values
  round_of_mem : ∀ x ∈ values, round x = x
  round_mono : Monotone round
  neg_mem : ∀ x ∈ values, -x ∈ values
  intCast_mem : ∀ n : ℤ, |n| ≤ 2 ^ 53 → (n : ℚ) ∈ values

namespace Rounding

/-- Arithmetic without rounding. -/
def ideal : Rounding where
  values := Set.univ
  round := id
  round_mem _ := trivial
  round_of_mem _ _ := rfl
  round_mono := monotone_id
  neg_mem _ _ := trivial
  intCast_mem _ _ := trivial

@[simp] theorem ideal_round (x : ℚ) : ideal.round x = x := rfl

section Rules

variable (fp : Rounding) {x y : ℚ}

theorem round_intCast {n : ℤ} (h : |n| ≤ 2 ^ 53) : fp.round n = n :=
  fp.round_of_mem n (fp.intCast_mem n h)

theorem zero_mem : (0 : ℚ) ∈ fp.values := by
  exact_mod_cast fp.intCast_mem 0 (by norm_num)

@[simp] theorem round_zero : fp.round 0 = 0 := fp.round_of_mem 0 fp.zero_mem

@[simp] theorem round_one : fp.round 1 = 1 := by
  exact_mod_cast fp.round_intCast (n := 1) (by norm_num)

theorem round_nonneg (h : 0 ≤ x) : 0 ≤ fp.round x := by
  rw [← fp.round_zero]
  exact fp.round_mono h

/-- A value bounds the rounding of everything that it bounds. -/
theorem le_round (hx : x ∈ fp.values) (h : x ≤ y) : x ≤ fp.round y := by
  rw [← fp.round_of_mem x hx]
  exact fp.round_mono h

/-- Whatever is added to a value to reach a number that is not negative, the sum is not negative. -/
theorem add_round_sub_nonneg (hx : x ∈ fp.values) (hy : 0 ≤ y) : 0 ≤ x + fp.round (y - x) := by
  have := fp.le_round (fp.neg_mem x hx) (by linarith : -x ≤ y - x)
  linarith

end Rules

/-- The nearest integer, the even one if there are two. -/
def roundEven (x : ℚ) : ℤ :=
  if x - ⌊x⌋ < 1 / 2 ∨ x - ⌊x⌋ = 1 / 2 ∧ ⌊x⌋ % 2 = 0 then ⌊x⌋ else ⌊x⌋ + 1

theorem abs_roundEven_sub_le (x : ℚ) (n : ℤ) : |(roundEven x : ℚ) - x| ≤ |(n : ℚ) - x| := by
  have hfloor := Int.floor_le x
  have hlt := Int.lt_floor_add_one x
  -- an integer is below the floor or above it, so it is at least as far as one of the two
  have hfar : x - ⌊x⌋ ≤ |(n : ℚ) - x| ∨ ⌊x⌋ + 1 - x ≤ |(n : ℚ) - x| := by
    rcases le_or_gt n ⌊x⌋ with h | h
    · have : (n : ℚ) ≤ ⌊x⌋ := by exact_mod_cast h
      exact .inl (by rw [abs_sub_comm]; exact le_trans (by linarith) (le_abs_self _))
    · have : (⌊x⌋ : ℚ) + 1 ≤ n := by exact_mod_cast h
      exact .inr (le_trans (by linarith) (le_abs_self _))
  unfold roundEven
  split_ifs with h
  · have hhalf : x - ⌊x⌋ ≤ 1 / 2 := h.elim le_of_lt fun h => h.1.le
    rw [abs_sub_comm, abs_of_nonneg (by linarith)]
    rcases hfar with hfar | hfar <;> linarith
  · have hhalf : 1 / 2 ≤ x - ⌊x⌋ := not_lt.mp fun hlt => h (.inl hlt)
    push_cast
    rw [abs_of_nonneg (by linarith)]
    rcases hfar with hfar | hfar <;> linarith

theorem abs_roundEven_le {x : ℚ} {n : ℤ} (h : |x| ≤ n) : |roundEven x| ≤ n := by
  obtain ⟨hlo, hhi⟩ := abs_le.mp h
  have hle := abs_le.mp (abs_roundEven_sub_le x n)
  have hge := abs_le.mp (abs_roundEven_sub_le x (-n))
  rw [abs_of_nonneg (by linarith)] at hle
  rw [abs_of_nonpos (by push_cast; linarith)] at hge
  push_cast at hge
  have hcast : |(roundEven x : ℚ)| ≤ n := abs_le.mpr ⟨by linarith, by linarith⟩
  exact_mod_cast hcast

/-- The finite doubles, without an upper bound on the exponent. -/
def doubles : Set ℚ := {x | ∃ m e : ℤ, |m| ≤ 2 ^ 53 ∧ -1074 ≤ e ∧ x = m * 2 ^ e}

/-- The exponent of the last place of the doubles around `x`. -/
def ulpExp (x : ℚ) : ℤ := max (Int.log 2 |x| - 52) (-1074)

/-- Round to nearest, ties to even. -/
def roundDouble (x : ℚ) : ℚ := roundEven (x / 2 ^ ulpExp x) * 2 ^ ulpExp x

theorem abs_div_ulp_le (x : ℚ) : |x / 2 ^ ulpExp x| ≤ (2 ^ 53 : ℤ) := by
  have hpos : (0 : ℚ) < 2 ^ ulpExp x := zpow_pos (by norm_num) _
  rw [abs_div, abs_of_pos hpos, div_le_iff₀ hpos]
  refine (Int.lt_zpow_succ_log_self (by norm_num : 1 < 2) |x|).le.trans ?_
  have hexp : Int.log 2 |x| + 1 ≤ 53 + ulpExp x := by
    have := le_max_left (Int.log 2 |x| - 52) (-1074)
    simp only [ulpExp]
    omega
  calc ((2 : ℕ) : ℚ) ^ (Int.log 2 |x| + 1) ≤ 2 ^ (53 + ulpExp x) := by
        exact_mod_cast zpow_le_zpow_right₀ (by norm_num : (1 : ℚ) ≤ 2) hexp
    _ = (2 ^ 53 : ℤ) * 2 ^ ulpExp x := by
        rw [zpow_add₀ (by norm_num)]
        norm_num

theorem roundDouble_mem (x : ℚ) : roundDouble x ∈ doubles :=
  ⟨roundEven (x / 2 ^ ulpExp x), ulpExp x, abs_roundEven_le (abs_div_ulp_le x),
    le_max_right _ _, rfl⟩

/-- Multiples of the last place are no nearer than the rounded number. -/
theorem abs_roundDouble_sub_le_mul (x : ℚ) (n : ℤ) :
    |roundDouble x - x| ≤ |n * 2 ^ ulpExp x - x| := by
  have hpos : (0 : ℚ) < 2 ^ ulpExp x := zpow_pos (by norm_num) _
  have hscale : ∀ k : ℤ, |k * 2 ^ ulpExp x - x| = |(k : ℚ) - x / 2 ^ ulpExp x| * 2 ^ ulpExp x := by
    intro k
    rw [← abs_of_pos hpos, ← abs_mul, abs_of_pos hpos, sub_mul, div_mul_cancel₀ _ hpos.ne']
  rw [roundDouble, hscale, hscale]
  exact mul_le_mul_of_nonneg_right (abs_roundEven_sub_le _ n) hpos.le

theorem binade_le_abs {x : ℚ} (hx : x ≠ 0) (hulp : ulpExp x = Int.log 2 |x| - 52) :
    (2 ^ 52 : ℚ) * 2 ^ ulpExp x ≤ |x| := by
  have hself := Int.zpow_log_le_self (by norm_num : 1 < 2) (abs_pos.mpr hx)
  rw [hulp, zpow_sub₀ (by norm_num)]
  have hpow : (2 : ℚ) ^ (52 : ℤ) = 2 ^ 52 := by norm_cast
  rw [hpow, mul_div_cancel₀ _ (by norm_num)]
  exact_mod_cast hself

theorem abs_mul_zpow_le {m e k : ℤ} (hm : |m| ≤ 2 ^ 53) (he : e < k) :
    |(m : ℚ) * 2 ^ e| ≤ 2 ^ 52 * 2 ^ k := by
  have hm' : |(m : ℚ)| ≤ 2 ^ 53 := by exact_mod_cast hm
  rw [abs_mul, abs_of_pos (zpow_pos (by norm_num) e : (0 : ℚ) < 2 ^ e)]
  calc |(m : ℚ)| * 2 ^ e ≤ 2 ^ 53 * 2 ^ (k - 1) :=
        mul_le_mul hm' (zpow_le_zpow_right₀ (by norm_num) (by omega))
          (zpow_nonneg (by norm_num) e) (by norm_num)
    _ = 2 ^ 52 * 2 ^ k := by
        rw [zpow_sub_one₀ (by norm_num)]
        ring

/-- No double is nearer than the rounded number. -/
theorem abs_roundDouble_sub_le {x v : ℚ} (hv : v ∈ doubles) : |roundDouble x - x| ≤ |v - x| := by
  obtain ⟨m, e, hm, he, rfl⟩ := hv
  rcases le_or_gt (ulpExp x) e with hle | hlt
  · -- the double is a multiple of the last place
    obtain ⟨k, rfl⟩ : ∃ k : ℕ, e = k + ulpExp x := ⟨(e - ulpExp x).toNat, by omega⟩
    have heq : (m : ℚ) * 2 ^ ((k : ℤ) + ulpExp x) = ((m * 2 ^ k : ℤ) : ℚ) * 2 ^ ulpExp x := by
      rw [zpow_add₀ (by norm_num), zpow_natCast]
      push_cast
      ring
    rw [heq]
    exact abs_roundDouble_sub_le_mul x _
  · -- the double is below the power of two that starts the binade of `x`
    have hulp : ulpExp x = Int.log 2 |x| - 52 := by
      simp only [ulpExp] at hlt ⊢
      omega
    rcases eq_or_ne x 0 with rfl | hx
    · simpa [roundDouble, roundEven] using abs_nonneg ((m : ℚ) * 2 ^ e)
    have hbinade := binade_le_abs hx hulp
    have hbelow := abs_mul_zpow_le hm hlt
    have htriangle := abs_sub_abs_le_abs_sub x ((m : ℚ) * 2 ^ e)
    rw [abs_sub_comm x] at htriangle
    rcases le_total 0 x with hsign | hsign
    · refine (abs_roundDouble_sub_le_mul x (2 ^ 52)).trans ?_
      rw [abs_of_nonneg hsign] at hbinade htriangle
      push_cast
      rw [abs_of_nonpos (by linarith)]
      linarith
    · refine (abs_roundDouble_sub_le_mul x (-2 ^ 52)).trans ?_
      rw [abs_of_nonpos hsign] at hbinade htriangle
      push_cast
      rw [abs_of_nonneg (by linarith)]
      linarith

theorem roundDouble_of_mem {x : ℚ} (hx : x ∈ doubles) : roundDouble x = x := by
  have h := abs_roundDouble_sub_le (x := x) hx
  rwa [sub_self, abs_zero, abs_nonpos_iff, sub_eq_zero] at h

theorem roundDouble_mono : Monotone roundDouble := by
  intro x y hxy
  by_contra hlt
  rw [not_le] at hlt
  -- both results are nearest, so their midpoint is not above `x` and not below `y`
  have hx := abs_roundDouble_sub_le (x := x) (roundDouble_mem y)
  have hy := abs_roundDouble_sub_le (x := y) (roundDouble_mem x)
  have hmid : roundDouble x + roundDouble y ≤ 2 * x := by
    rcases abs_cases (roundDouble x - x) with ⟨h, hs⟩ | ⟨h, hs⟩ <;>
      rcases abs_cases (roundDouble y - x) with ⟨h', hs'⟩ | ⟨h', hs'⟩ <;> linarith
  have hmid' : 2 * y ≤ roundDouble x + roundDouble y := by
    rcases abs_cases (roundDouble x - y) with ⟨h, hs⟩ | ⟨h, hs⟩ <;>
      rcases abs_cases (roundDouble y - y) with ⟨h', hs'⟩ | ⟨h', hs'⟩ <;> linarith
  obtain rfl : x = y := by linarith
  exact lt_irrefl _ hlt

/-- Arithmetic on doubles. -/
def binary64 : Rounding where
  values := doubles
  round := roundDouble
  round_mem := roundDouble_mem
  round_of_mem _ := roundDouble_of_mem
  round_mono := roundDouble_mono
  neg_mem := by
    rintro _ ⟨m, e, hm, he, rfl⟩
    exact ⟨-m, e, by rwa [abs_neg], he, by push_cast; ring⟩
  intCast_mem n hn := ⟨n, 0, hn, by norm_num, by simp⟩

/-- The first integer that is no double. -/
example : binary64.round (2 ^ 53 + 1) = 2 ^ 53 := by decide +kernel

end Rounding
end HeypAgents
