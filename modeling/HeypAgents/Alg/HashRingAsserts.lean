import HeypAgents.Lib.Runs
import HeypAgents.Alg.HashRingFifo

/-!
# The assertions of `ComputeRangeDiff`

With assertions compiled in, `UpdateFrac` aborts when `ComputeRangeDiff` finds that
the side of the range that should not move has moved.  In whole chunks the start
never moves when the fraction grows.  The end of a shrinking range is compared as a
128-bit sum of a start that is stored modulo `2 ^ 64`, so the comparison fails as soon
as the start passes the end of the ring.

The start moves by what the fraction loses.  A run is therefore free of violations
exactly when all the decreases of the fraction together are less than one.
-/

namespace HeypAgents
namespace HashRing

open Runs

/-- The assertion on the branch of `ComputeRangeDiff` that is taken. -/
def RangeDiffAssertion (oldStart : ℕ) (oldFrac : ℚ) (newStart : ℕ) (newFrac : ℚ) : Prop :=
  if oldFrac = newFrac then oldStart = newStart
  else if oldFrac < newFrac then oldStart = newStart
  else
    uint128Add oldStart (uint128Sub (fracToRing oldFrac) 1) =
      uint128Add newStart (uint128Sub (fracToRing newFrac) 1)
deriving Decidable

/-- `UpdateFrac` with assertions; `none` when one is violated. -/
def assertedUpdateFrac (ring : HashRing) (frac : ℚ) : Option HashRing :=
  if RangeDiffAssertion ring.start ring.frac
      (ring.updateFrac frac).1.start (ring.updateFrac frac).1.frac then
    some (ring.updateFrac frac).1
  else none

def totalDecrease : ℚ → List ℚ → ℚ
  | _, [] => 0
  | cur, frac :: fracs =>
    max 0 (cur - clampFrac frac) + totalDecrease (clampFrac frac) fracs

theorem totalDecrease_nonneg (cur : ℚ) (fracs : List ℚ) : 0 ≤ totalDecrease cur fracs := by
  induction fracs generalizing cur with
  | nil => exact le_rfl
  | cons frac fracs ih => exact add_nonneg (le_max_left _ _) (ih _)

theorem isChunks_clampFrac {frac : ℚ} (h : ∃ k : ℤ, frac = k / 2 ^ 32) :
    IsChunks (clampFrac frac) := by
  unfold clampFrac
  split_ifs with hneg hbig
  · exact ⟨0, by norm_num⟩
  · exact ⟨2 ^ 32, by norm_num⟩
  · obtain ⟨k, rfl⟩ := h
    have hk : 0 ≤ k := by
      by_contra hk
      refine hneg (div_neg_of_neg_of_pos ?_ (by norm_num))
      exact_mod_cast not_le.mp hk
    lift k to ℕ using hk
    exact ⟨k, by push_cast; rfl⟩

section Step

variable {ring : HashRing} {frac : ℚ}

theorem assertedUpdateFrac_of_le (h : ring.frac ≤ clampFrac frac) :
    ring.assertedUpdateFrac frac = some ⟨ring.start, clampFrac frac⟩ := by
  have hstep : (ring.updateFrac frac).1 = ⟨ring.start, clampFrac frac⟩ := by
    simp only [updateFrac, if_neg h.not_gt]
  rw [assertedUpdateFrac, hstep, if_pos]
  unfold RangeDiffAssertion
  split_ifs with heq hlt
  · rfl
  · rfl
  · exact absurd (lt_of_le_of_ne h heq) hlt

theorem lastId_shrink_eq_iff {start m m' : ℕ} (hs : start < 2 ^ 64) (hlt : m' < m)
    (hm : m ≤ 2 ^ 64) :
    lastId start m = lastId ((start + uint128Low64 (m - m')) % 2 ^ 64) m' ↔
      start + (m - m') < 2 ^ 64 := by
  have hmoved : (start + uint128Low64 (m - m')) % 2 ^ 64 = uint128Low64 (start + (m - m')) :=
    Nat.add_mod_mod _ _ _
  rw [hmoved, lastId, if_neg (by omega), lastId]
  rcases uint128_add_cases hs (by omega : m - m' ≤ 2 ^ 64) with ⟨hfits, -, hlow⟩ | ⟨hwraps, -, hlow⟩
  · rw [hlow, if_neg (by omega)]
    omega
  · rw [hlow]
    split_ifs <;> omega

theorem assertedUpdateFrac_of_lt (hw : ring.WellFormed) (hring : IsChunks ring.frac)
    (hnew : IsChunks (clampFrac frac)) (h : clampFrac frac < ring.frac) :
    ring.assertedUpdateFrac frac =
      if ring.start + fracToRing (ring.frac - clampFrac frac) < 2 ^ 64 then
        some ⟨ring.start + fracToRing (ring.frac - clampFrac frac), clampFrac frac⟩
      else none := by
  have hsub := fracToRing_sub_of_isChunks hnew hring h.le hw.frac_le_one
  have hless := fracToRing_lt_of_isChunks hnew hring h hw.frac_le_one
  have hle := fracToRing_le hw.frac_nonneg hw.frac_le_one
  have hassert : RangeDiffAssertion ring.start ring.frac (ring.updateFrac frac).1.start
      (ring.updateFrac frac).1.frac ↔
        ring.start + fracToRing (ring.frac - clampFrac frac) < 2 ^ 64 := by
    simp only [RangeDiffAssertion, updateFrac, if_pos h, if_neg h.ne', if_neg h.not_gt]
    rw [uint128Add_sub_one hw.start_lt hle,
      uint128Add_sub_one (Nat.mod_lt _ (by norm_num)) (hless.le.trans hle), hsub]
    exact lastId_shrink_eq_iff hw.start_lt hless hle
  rw [assertedUpdateFrac]
  simp only [hassert]
  split_ifs with hfits
  · have hlow : uint128Low64 (fracToRing (ring.frac - clampFrac frac)) =
        fracToRing (ring.frac - clampFrac frac) := Nat.mod_eq_of_lt (by omega)
    simp only [updateFrac, if_pos h, hlow, Nat.mod_eq_of_lt hfits]
  · rfl

end Step

theorem exec_assertedUpdateFrac {ring : HashRing} (hw : ring.WellFormed)
    (hring : IsChunks ring.frac) (fracs : List ℚ) (h : ∀ frac ∈ fracs, IsChunks (clampFrac frac)) :
    (exec assertedUpdateFrac ring fracs).isSome ↔
      (ring.start : ℚ) + totalDecrease ring.frac fracs * 2 ^ 64 < 2 ^ 64 := by
  induction fracs generalizing ring with
  | nil =>
    have hs : (ring.start : ℚ) < 2 ^ 64 := by exact_mod_cast hw.start_lt
    simpa [exec, totalDecrease] using hs
  | cons frac fracs ih =>
    obtain ⟨hfrac, hfracs⟩ := List.forall_mem_cons.mp h
    rw [exec, totalDecrease]
    rcases le_or_gt ring.frac (clampFrac frac) with hle | hlt
    · rw [assertedUpdateFrac_of_le hle, max_eq_left (by linarith), zero_add]
      have hw' := wellFormed_updateFrac hw frac
      simp only [updateFrac, if_neg hle.not_gt] at hw'
      exact ih hw' hfrac hfracs
    · rw [assertedUpdateFrac_of_lt hw hring hfrac hlt, max_eq_right (by linarith)]
      -- the start moves by as many ids as the fraction loses
      have hmoved : ((ring.start + fracToRing (ring.frac - clampFrac frac) : ℕ) : ℚ) =
          ring.start + (ring.frac - clampFrac frac) * 2 ^ 64 := by
        rw [Nat.cast_add, fracToRing_sub_of_isChunks hfrac hring hlt.le hw.frac_le_one,
          Nat.cast_sub (fracToRing_lt_of_isChunks hfrac hring hlt hw.frac_le_one).le,
          fracToRing_cast_of_isChunks hring hw.frac_le_one,
          fracToRing_cast_of_isChunks hfrac (clampFrac_le_one frac), sub_mul]
      split_ifs with hfits
      · have hw' : WellFormed
            ⟨ring.start + fracToRing (ring.frac - clampFrac frac), clampFrac frac⟩ :=
          ⟨hfits, clampFrac_nonneg frac, clampFrac_le_one frac⟩
        rw [Option.bind_some, ih hw' hfrac hfracs, hmoved, add_mul, add_assoc]
      · have hwraps : (2 ^ 64 : ℚ) ≤ ring.start + (ring.frac - clampFrac frac) * 2 ^ 64 := by
          rw [← hmoved]
          exact_mod_cast not_lt.mp hfits
        have hrest := totalDecrease_nonneg (clampFrac frac) fracs
        simp only [Option.bind_none, Option.isSome_none, Bool.false_eq_true, false_iff, not_lt]
        linarith

/--
For arguments that are multiples of `2 ^ -32` no assertion is violated iff the decreases of
the fraction add up to less than one.
-/
theorem run_asserts_iff (fracs : List ℚ) (h : ∀ frac ∈ fracs, ∃ k : ℤ, frac = k / 2 ^ 32) :
    (exec assertedUpdateFrac {} fracs).isSome ↔ totalDecrease 0 fracs < 1 := by
  rw [exec_assertedUpdateFrac wellFormed_default ⟨0, by norm_num⟩ fracs
    fun frac hfrac => isChunks_clampFrac (h frac hfrac)]
  norm_num

/-- Three quarters of the ring given up in three steps. -/
theorem run_asserts_three_quarters :
    (∀ frac ∈ [1, 3 / 4, 1 / 4], ∃ k : ℤ, (frac : ℚ) = k / 2 ^ 32) ∧
      (exec assertedUpdateFrac {} [1, 3 / 4, 1 / 4]).isSome := by
  have hchunks : ∀ frac ∈ [1, 3 / 4, 1 / 4], ∃ k : ℤ, (frac : ℚ) = k / 2 ^ 32 := by
    simp only [List.forall_mem_cons]
    exact ⟨⟨2 ^ 32, by norm_num⟩, ⟨3 * 2 ^ 30, by norm_num⟩, ⟨2 ^ 30, by norm_num⟩, by simp⟩
  refine ⟨hchunks, (run_asserts_iff _ hchunks).mpr ?_⟩
  norm_num [totalDecrease, clampFrac]

/-- Giving up the whole ring moves the start once around it. -/
theorem run_asserts_violated :
    ∃ fracs : List ℚ, (∀ frac ∈ fracs, ∃ k : ℤ, frac = k / 2 ^ 32) ∧
      exec assertedUpdateFrac {} fracs = none := by
  refine ⟨[1, 0], ?_, by decide +kernel⟩
  simp only [List.forall_mem_cons]
  exact ⟨⟨2 ^ 32, by norm_num⟩, ⟨0, by norm_num⟩, by simp⟩

end HashRing
end HeypAgents
