import Mathlib.Algebra.Order.Group.Abs
import Mathlib.Algebra.Order.BigOperators.Group.List
import Mathlib.Tactic.Abel

/-!
# The prefix of a list whose sum is nearest to a target

Summands are added one after the other until the first one that would lead beyond the
target; that one is added iff it does not lead further away than the sum before it is.
With nonnegative summands, no prefix of the list is nearer to the target.
-/

namespace HeypAgents
namespace NearestPrefix

variable {G : Type*} [AddCommGroup G] [LinearOrder G]

/-- How many summands are added to `cur`. -/
def count (want : G) : G → List G → ℕ
  | _, [] => 0
  | cur, v :: vs =>
    if want < cur + v then if cur + v - want ≤ want - cur then 1 else 0
    else count want (cur + v) vs + 1

theorem count_le_length (want cur : G) (vs : List G) : count want cur vs ≤ vs.length := by
  induction vs generalizing cur with
  | nil => exact le_refl _
  | cons v vs ih =>
    rw [count, List.length_cons]
    split_ifs
    · exact Nat.succ_le_succ (Nat.zero_le _)
    · exact Nat.zero_le _
    · exact Nat.succ_le_succ (ih _)

variable [IsOrderedAddMonoid G]

theorem sub_le_abs_sub_sum {want cur v : G} {vs : List G} (hnonneg : ∀ v ∈ vs, 0 ≤ v) :
    cur + v - want ≤ |cur + (v + vs.sum) - want| := by
  have hsum : 0 ≤ vs.sum := List.sum_nonneg hnonneg
  calc cur + v - want ≤ cur + v - want + vs.sum := le_add_of_nonneg_right hsum
    _ = cur + (v + vs.sum) - want := by abel
    _ ≤ |cur + (v + vs.sum) - want| := le_abs_self _

/-- The prefix that the loop takes is the nearest one. -/
theorem abs_sub_count_le {want cur : G} {vs : List G} (hcur : cur ≤ want)
    (hnonneg : ∀ v ∈ vs, 0 ≤ v) (k : ℕ) :
    |cur + (vs.take (count want cur vs)).sum - want| ≤ |cur + (vs.take k).sum - want| := by
  induction vs generalizing cur k with
  | nil => simp
  | cons v vs ih =>
    obtain ⟨hv, hvs⟩ := List.forall_mem_cons.mp hnonneg
    have hbefore : |cur + ([] : List G).sum - want| = want - cur := by
      rw [List.sum_nil, add_zero, abs_sub_comm, abs_of_nonneg (sub_nonneg.mpr hcur)]
    rw [count]
    split_ifs with hlt hnear
    · have hafter : |cur + (([v] : List G)).sum - want| = cur + v - want := by
        rw [List.sum_singleton, abs_of_nonneg (sub_nonneg.mpr hlt.le)]
      rw [List.take_succ_cons, List.take_zero, hafter]
      cases k with
      | zero => rwa [List.take_zero, hbefore]
      | succ k =>
        rw [List.take_succ_cons, List.sum_cons]
        exact sub_le_abs_sub_sum fun v' hv' => hvs v' (List.mem_of_mem_take hv')
    · rw [List.take_zero, hbefore]
      cases k with
      | zero => rw [List.take_zero, hbefore]
      | succ k =>
        rw [List.take_succ_cons, List.sum_cons]
        exact (lt_of_not_ge hnear).le.trans
          (sub_le_abs_sub_sum fun v' hv' => hvs v' (List.mem_of_mem_take hv'))
    · have hnext : cur + v ≤ want := not_lt.mp hlt
      rw [List.take_succ_cons, List.sum_cons, ← add_assoc]
      cases k with
      | zero =>
        rw [List.take_zero, hbefore]
        refine (ih hnext hvs 0).trans ?_
        rw [List.take_zero, List.sum_nil, add_zero, abs_sub_comm,
          abs_of_nonneg (sub_nonneg.mpr hnext)]
        exact sub_le_sub_left (le_add_of_nonneg_right hv) want
      | succ k =>
        rw [List.take_succ_cons, List.sum_cons, ← add_assoc]
        exact ih hnext hvs k

end NearestPrefix
end HeypAgents
