import HeypAgents.EvalLoss.EventLoop

/-!
# The event heap

The operations of `heap` in `heap.go`.  `Remove` brings the element to the last place and
restores the order of the others, as `Pop` does for the root.  It then cuts the slice one
element too short: a further event is lost, and removing the only event of a heap makes the
bound of the slice negative.
-/

namespace HeypAgents
namespace EvalLoss

variable {T D : Type*} [LinearOrder T]

namespace EventHeap

def push (h : Array (Event T D)) (ev : Event T D) : Array (Event T D) :=
  BinaryHeap.push Event.unixSec h ev

/-- The event at `i`, and the slice `h.h[:n-1]` with `n = len(h.h) - 1`; `none` where indexing
or slicing panics. -/
def remove (h : Array (Event T D)) (i : ℕ) : Option (Event T D × Array (Event T D)) :=
  if hi : i < h.size then
    let v := BinaryHeap.toLast Event.unixSec h i hi
    let n := h.size - 1
    if n = 0 then none else some (v[n], v.toArray.extract 0 (n - 1))
  else none

/-- What `Remove(i)` is for: the event at `i` is returned, exactly the others are left, and
they are in heap order. -/
def RemovesExactly (h : Array (Event T D)) (i : ℕ) : Prop :=
  ∃ ev rest, remove h i = some (ev, rest) ∧ h[i]? = some ev ∧
    (ev :: rest.toList).Perm h.toList ∧ BinaryHeap.IsHeap Event.unixSec rest

theorem remove_cases {h : Array (Event T D)} {i : ℕ} (hi : i < h.size) :
    (h.size = 1 ∧ remove h i = none) ∨
      ∃ ev rest, remove h i = some (ev, rest) ∧ rest.size + 2 = h.size := by
  by_cases hone : h.size - 1 = 0
  · exact Or.inl ⟨by omega, by simp [remove, hi, hone]⟩
  · refine Or.inr ⟨_, _, (dif_pos hi).trans (if_neg hone), ?_⟩
    simp only [Array.size_extract, Vector.size_toArray]
    omega

theorem not_removesExactly_of_size {h rest : Array (Event T D)} {ev : Event T D} {i : ℕ}
    (heq : remove h i = some (ev, rest)) (hsize : rest.size + 1 ≠ h.size) :
    ¬ RemovesExactly h i := by
  rintro ⟨ev', rest', heq', -, hperm, -⟩
  obtain ⟨-, rfl⟩ : ev = ev' ∧ rest = rest' := by simpa [heq] using heq'
  exact hsize (by simpa using hperm.length_eq)

/-- On every slice `Remove` panics or loses another event besides the one that it returns. -/
theorem remove_never_exact {h : Array (Event T D)} {i : ℕ} (hi : i < h.size) :
    ¬ RemovesExactly h i ∧
      ((h.size = 1 ∧ remove h i = none) ∨
        ∃ ev rest, remove h i = some (ev, rest) ∧ rest.size + 2 = h.size) := by
  have hcases := remove_cases hi
  refine ⟨?_, hcases⟩
  rcases hcases with ⟨-, hnone⟩ | ⟨ev, rest, heq, hsize⟩
  · rintro ⟨ev, rest, heq, -⟩
    rw [hnone] at heq
    cases heq
  · exact not_removesExactly_of_size heq (by omega)

def threeEvents : Array (Event ℕ Unit) := push (push (push #[] ⟨3, ()⟩) ⟨1, ()⟩) ⟨2, ()⟩

/-- Removing the event at time 2 from the three also loses the one at time 3. -/
theorem remove_loses_event :
    threeEvents = #[⟨1, ()⟩, ⟨3, ()⟩, ⟨2, ()⟩] ∧
      remove threeEvents 2 = some (⟨2, ()⟩, #[⟨1, ()⟩]) ∧ ¬ RemovesExactly threeEvents 2 := by
  have hremove : remove threeEvents 2 = some (⟨2, ()⟩, #[⟨1, ()⟩]) := by decide
  exact ⟨by decide, hremove, not_removesExactly_of_size hremove (by decide)⟩

theorem remove_never_exact_threeEvents : ¬ RemovesExactly threeEvents 2 :=
  (remove_never_exact (by decide)).1

end EventHeap
end EvalLoss
end HeypAgents
