import Mathlib.Data.List.Infix
import Mathlib.Algebra.Order.Ring.Nat

/-!
# Merging queues

Numbered queues are merged by taking a smallest head, of the first queue that has it.  A
merge that goes on with the same queue while its head is below all heads *before* it
overtakes the heads after it.
-/

namespace HeypAgents
namespace QueueMerge

variable {α : Type*} [LinearOrder α] {Q : ℕ → List α} {m : ℕ} {x y : α} {ys : List α}

/-- The merge takes `y` from queue `m`. -/
structure IsNext (Q : ℕ → List α) (m : ℕ) (y : α) (ys : List α) : Prop where
  queue : Q m = y :: ys
  le : ∀ j, ∀ v ∈ Q j, y ≤ v
  lt : ∀ j < m, ∀ v ∈ Q j, y < v

/-- After `y`, `x` is below everything before queue `m` but not below everything after it. -/
structure Overtakes (Q : ℕ → List α) (m : ℕ) (y x : α) : Prop where
  before : ∃ j < m, ∃ w ∈ Q j, x < w
  gap : ∀ j < m, ∀ v ∈ Q j, y < v → x < v
  after : ∃ k, m < k ∧ ∃ z ∈ Q k, y ≤ z ∧ z < x

def HasOvertaking (Q : ℕ → List α) : Prop :=
  ∃ m y x, [y, x] <:+: Q m ∧ Overtakes Q m y x

theorem IsNext.mem_update (h : IsNext Q m y ys) {j : ℕ} {v : α} (hv : v ∈ Q j) :
    v ∈ Function.update Q m ys j ∨ j = m ∧ v = y := by
  by_cases hj : j = m
  · subst hj
    rw [h.queue, List.mem_cons] at hv
    rw [Function.update_self]
    exact hv.symm.imp_right fun hv => ⟨rfl, hv⟩
  · exact .inl (by rwa [Function.update_of_ne hj])

theorem IsNext.mem_of_update (h : IsNext Q m y ys) {j : ℕ} {v : α}
    (hv : v ∈ Function.update Q m ys j) : v ∈ Q j := by
  by_cases hj : j = m
  · subst hj
    rw [Function.update_self] at hv
    exact h.queue ▸ List.mem_cons_of_mem y hv
  · rwa [Function.update_of_ne hj] at hv

theorem IsNext.overtakes_update (h : IsNext Q m y ys) {m' : ℕ} {y' x' : α} (hy : y' ∈ Q m')
    (hx : x' ∈ Q m') : Overtakes (Function.update Q m ys) m' y' x' ↔ Overtakes Q m' y' x' := by
  constructor
  · rintro ⟨⟨j, hj, w, hw, hxw⟩, hgap, k, hk, z, hz, hyz, hzx⟩
    refine ⟨⟨j, hj, w, h.mem_of_update hw, hxw⟩, fun i hi v hv hlt => ?_,
      k, hk, z, h.mem_of_update hz, hyz, hzx⟩
    rcases h.mem_update hv with hv | ⟨-, rfl⟩
    · exact hgap i hi v hv hlt
    · exact absurd (h.le m' y' hy) (not_le.mpr hlt)
  · rintro ⟨⟨j, hj, w, hw, hxw⟩, hgap, k, hk, z, hz, hyz, hzx⟩
    refine ⟨⟨j, hj, w, ?_, hxw⟩, fun i hi v hv => hgap i hi v (h.mem_of_update hv),
      k, hk, z, ?_, hyz, hzx⟩
    · exact (h.mem_update hw).resolve_right fun heq =>
        absurd (h.le m' x' hx) (not_le.mpr (heq.2 ▸ hxw))
    · refine (h.mem_update hz).resolve_right fun heq => ?_
      obtain ⟨rfl, rfl⟩ := heq
      exact absurd (h.lt m' hk y' hy) (not_lt.mpr hyz)

/-- An element overtakes now, or later. -/
theorem IsNext.hasOvertaking_iff (h : IsNext Q m y ys) :
    HasOvertaking Q ↔
      (∃ x, ys.head? = some x ∧ Overtakes Q m y x) ∨ HasOvertaking (Function.update Q m ys) := by
  constructor
  · rintro ⟨m', y', x', hpair, hover⟩
    have hlater : [y', x'] <:+: Function.update Q m ys m' →
        HasOvertaking (Function.update Q m ys) := fun hpair' =>
      ⟨m', y', x', hpair', (h.overtakes_update (hpair.subset (by simp))
        (hpair.subset (by simp))).mpr hover⟩
    by_cases hm : m' = m
    · subst hm
      rw [h.queue, List.infix_cons_iff, List.cons_prefix_cons] at hpair
      rcases hpair with ⟨rfl, t, rfl⟩ | hpair
      · exact .inl ⟨x', rfl, hover⟩
      · exact .inr (hlater (by rwa [Function.update_self]))
    · exact .inr (hlater (by rwa [Function.update_of_ne hm]))
  · rintro (⟨x, hx, hover⟩ | ⟨m', y', x', hpair, hover⟩)
    · obtain ⟨t, rfl⟩ := List.head?_eq_some_iff.mp hx
      exact ⟨m, y, x, h.queue ▸ (List.prefix_append [y, x] t).isInfix, hover⟩
    · have hpair' : [y', x'] <:+: Q m' := by
        by_cases hm : m' = m
        · subst hm
          rw [Function.update_self] at hpair
          exact h.queue ▸ hpair.trans (List.suffix_cons y ys).isInfix
        · rwa [Function.update_of_ne hm] at hpair
      exact ⟨m', y', x', hpair', (h.overtakes_update (hpair'.subset (by simp))
        (hpair'.subset (by simp))).mp hover⟩

theorem IsNext.overtakes_iff (h : IsNext Q m y ys) :
    Overtakes Q m y x ↔ (∃ j < m, Q j ≠ []) ∧ (∀ j < m, ∀ v ∈ Q j, x < v) ∧
      ∃ k, m < k ∧ ∃ z ∈ Q k, z < x := by
  constructor
  · rintro ⟨⟨j, hj, w, hw, -⟩, hgap, k, hk, z, hz, -, hzx⟩
    exact ⟨⟨j, hj, List.ne_nil_of_mem hw⟩, fun i hi v hv => hgap i hi v hv (h.lt i hi v hv),
      k, hk, z, hz, hzx⟩
  · rintro ⟨⟨j, hj, hne⟩, hbelow, k, hk, z, hz, hzx⟩
    obtain ⟨w, hw⟩ := List.exists_mem_of_ne_nil _ hne
    exact ⟨⟨j, hj, w, hw, hbelow j hj w hw⟩, fun i hi v hv _ => hbelow i hi v hv,
      k, hk, z, hz, h.le k z hz, hzx⟩

end QueueMerge
end HeypAgents
