import Mathlib.Data.List.Sort
import Mathlib.Data.Multiset.UnionInter

/-!
# Differences of sorted lists

The single pass that subtracts one sorted list from another.  Elements count with
their multiplicity, so the result is the multiset difference, and it is sorted as
the first list is.
-/

namespace HeypAgents
namespace SortedDiff

universe u

variable {α : Type u} [LinearOrder α]

/--
The elements of the first list that are left when each element of the second one
takes away one equal element.
-/
def setDifference : List α → List α → List α
  | [], _ => []
  | a :: as, bs =>
    match bs.dropWhile fun b => decide (b < a) with
    | [] => a :: as
    | b :: bs' =>
      if a < b then a :: setDifference as (b :: bs') else setDifference as bs'

theorem setDifference_sublist (as bs : List α) : (setDifference as bs).Sublist as := by
  induction as generalizing bs with
  | nil => exact List.Sublist.refl []
  | cons a as ih =>
    rw [setDifference]
    split
    · exact List.Sublist.refl _
    · split_ifs
      · exact (ih _).cons_cons a
      · exact (ih _).cons a

theorem count_dropWhile_lt {a x : α} (bs : List α) (hx : a ≤ x) :
    (bs.dropWhile fun b => decide (b < a)).count x = bs.count x := by
  induction bs with
  | nil => rfl
  | cons b bs ih =>
    rw [List.dropWhile_cons]
    split_ifs with hb
    · have hne : b ≠ x := ((of_decide_eq_true hb).trans_le hx).ne
      rw [ih, List.count_cons_of_ne hne]
    · rfl

/-- The pass computes the difference of the multisets. -/
theorem coe_setDifference {as bs : List α} (has : as.Pairwise (· ≤ ·)) (hbs : bs.Pairwise (· ≤ ·)) :
    ((setDifference as bs : List α) : Multiset α) = as - bs := by
  rw [Multiset.ext]
  intro x
  rw [Multiset.count_sub, Multiset.coe_count, Multiset.coe_count, Multiset.coe_count]
  induction as generalizing bs with
  | nil => simp [setDifference]
  | cons a as ih =>
    obtain ⟨hle, has⟩ := List.pairwise_cons.mp has
    have hrest := hbs.sublist (List.dropWhile_sublist fun b => decide (b < a))
    rcases lt_or_ge x a with hx | hx
    · have hzero : (a :: as).count x = 0 := by
        refine List.count_eq_zero.mpr fun hmem => ?_
        rcases List.mem_cons.mp hmem with rfl | hmem
        · exact hx.false
        · exact (hx.trans_le (hle x hmem)).false
      have := (setDifference_sublist (a :: as) bs).count_le x
      omega
    · rw [← count_dropWhile_lt bs hx, setDifference]
      split
      next hnil => rw [hnil, List.count_nil, Nat.sub_zero]
      next b bs' hcons =>
        rw [hcons] at hrest ⊢
        have hb : a ≤ b := by
          have := List.head_dropWhile_not (l := bs) (fun b => decide (b < a)) (by simp [hcons])
          simpa [hcons] using this
        split_ifs with hab
        · have hnot : (b :: bs').count a = 0 := by
            refine List.count_eq_zero.mpr fun hmem => ?_
            rcases List.mem_cons.mp hmem with rfl | hmem
            · exact hab.false
            · exact (hab.trans_le ((List.pairwise_cons.mp hrest).1 a hmem)).false
          by_cases hax : a = x
          · subst hax
            rw [List.count_cons_self, List.count_cons_self, ih has hrest]
            omega
          · rw [List.count_cons_of_ne hax, List.count_cons_of_ne hax, ih has hrest]
        · obtain rfl : a = b := le_antisymm hb (not_lt.mp hab)
          rw [ih has (List.pairwise_cons.mp hrest).2, List.count_cons, List.count_cons]
          omega

end SortedDiff
end HeypAgents
