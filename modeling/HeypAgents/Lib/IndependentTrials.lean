import Mathlib.Algebra.BigOperators.Ring.List
import Mathlib.Tactic.Ring

/-!
# Independent trials

Each item of a list is selected or not, independently of the others and with its own
probability.  There are finitely many outcomes, and the expectation of a quantity is the
sum over all of them.  The expected sum of the values of the selected items is the sum
of their values weighted by the probabilities.
-/

namespace HeypAgents
namespace IndependentTrials

section Outcomes

variable {K : Type*} [CommRing K]

/-- The outcomes of `n` trials. -/
def outcomes : ℕ → List (List Bool)
  | 0 => [[]]
  | n + 1 => (outcomes n).map (true :: ·) ++ (outcomes n).map (false :: ·)

/-- The probability of an outcome. -/
def prob : List K → List Bool → K
  | p :: ps, selected :: outcome => (if selected then p else 1 - p) * prob ps outcome
  | _, _ => 1

def expectation (ps : List K) (f : List Bool → K) : K :=
  ((outcomes ps.length).map fun outcome => prob ps outcome * f outcome).sum

theorem expectation_nil (f : List Bool → K) : expectation [] f = f [] := by
  simp [expectation, outcomes, prob]

theorem expectation_cons (p : K) (ps : List K) (f : List Bool → K) :
    expectation (p :: ps) f =
      p * expectation ps (fun outcome => f (true :: outcome)) +
        (1 - p) * expectation ps fun outcome => f (false :: outcome) := by
  simp only [expectation, List.length_cons, outcomes, List.map_append, List.sum_append,
    List.map_map, Function.comp_def, prob, if_true, Bool.false_eq_true, if_false, mul_assoc,
    List.sum_map_mul_left]

theorem expectation_congr {ps : List K} {f g : List Bool → K}
    (h : ∀ outcome ∈ outcomes ps.length, prob ps outcome ≠ 0 → f outcome = g outcome) :
    expectation ps f = expectation ps g := by
  rw [expectation, expectation]
  congr 1
  refine List.map_congr_left fun outcome houtcome => ?_
  by_cases hzero : prob ps outcome = 0
  · rw [hzero, zero_mul, zero_mul]
  · rw [h outcome houtcome hzero]

theorem expectation_const_add (ps : List K) (c : K) (f : List Bool → K) :
    expectation ps (fun outcome => c + f outcome) = c + expectation ps f := by
  induction ps generalizing f with
  | nil => rw [expectation_nil, expectation_nil]
  | cons p ps ih =>
    rw [expectation_cons, expectation_cons, ih, ih]
    ring

end Outcomes

section Selections

variable {K α : Type*} [CommRing K]

/-- The items that an outcome selects. -/
def selection : List α → List Bool → List α
  | x :: xs, selected :: outcome =>
    if selected then x :: selection xs outcome else selection xs outcome
  | _, _ => []

theorem ne_zero_of_mem_selection {p : α → K} {xs : List α} {outcome : List Bool} {x : α}
    (h : prob (xs.map p) outcome ≠ 0) (hx : x ∈ selection xs outcome) : p x ≠ 0 := by
  induction xs generalizing outcome with
  | nil => cases outcome <;> exact absurd hx List.not_mem_nil
  | cons y ys ih =>
    cases outcome with
    | nil => exact absurd hx List.not_mem_nil
    | cons selected outcome =>
      rw [List.map_cons, prob] at h
      cases selected with
      | false => exact ih (right_ne_zero_of_mul h) hx
      | true =>
        rcases List.mem_cons.mp hx with rfl | hx
        · exact left_ne_zero_of_mul h
        · exact ih (right_ne_zero_of_mul h) hx

/-- The expected sum of the values of the selected items. -/
theorem expectation_sum_selection (p value : α → K) (xs : List α) :
    expectation (xs.map p) (fun outcome => ((selection xs outcome).map value).sum) =
      (xs.map fun x => p x * value x).sum := by
  induction xs with
  | nil => simp [expectation_nil, selection]
  | cons x xs ih =>
    have hyes : expectation (xs.map p)
        (fun outcome => ((selection (x :: xs) (true :: outcome)).map value).sum) =
        value x + expectation (xs.map p) fun outcome => ((selection xs outcome).map value).sum := by
      simp only [selection, if_true, List.map_cons, List.sum_cons]
      exact expectation_const_add _ _ _
    have hno : expectation (xs.map p)
        (fun outcome => ((selection (x :: xs) (false :: outcome)).map value).sum) =
        expectation (xs.map p) fun outcome => ((selection xs outcome).map value).sum := by
      simp only [selection, Bool.false_eq_true, if_false]
    rw [List.map_cons, expectation_cons, hyes, hno, ih, List.map_cons, List.sum_cons]
    ring

end Selections

end IndependentTrials
end HeypAgents
