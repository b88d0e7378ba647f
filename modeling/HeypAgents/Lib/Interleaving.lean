import Mathlib.Data.List.Basic

/-!
# Interleavings of tasks

A schedule of a group of tasks is a list of actions, each with the index of its task,
in which every task's actions stand in the order of the task.
-/

namespace HeypAgents

variable {α : Type*}

def IsInterleaving (tasks : List (List α)) (schedule : List (ℕ × α)) : Prop :=
  (∀ x ∈ schedule, x.1 < tasks.length) ∧
    ∀ i (h : i < tasks.length), (schedule.filter fun x => x.1 = i).map (·.2) = tasks.get ⟨i, h⟩

instance [DecidableEq α] (tasks : List (List α)) (schedule : List (ℕ × α)) :
    Decidable (IsInterleaving tasks schedule) :=
  inferInstanceAs (Decidable (_ ∧ _))

theorem IsInterleaving.mem_iff {tasks : List (List α)} {schedule : List (ℕ × α)}
    (h : IsInterleaving tasks schedule) {a : α} :
    a ∈ schedule.map (·.2) ↔ ∃ task ∈ tasks, a ∈ task := by
  constructor
  · intro ha
    obtain ⟨⟨i, a⟩, hx, rfl⟩ := List.mem_map.mp ha
    refine ⟨tasks.get ⟨i, h.1 _ hx⟩, List.get_mem _ _, ?_⟩
    rw [← h.2 i (h.1 _ hx)]
    exact List.mem_map.mpr ⟨(i, a), List.mem_filter.mpr ⟨hx, by simp⟩, rfl⟩
  · rintro ⟨task, htask, ha⟩
    obtain ⟨⟨i, hi⟩, rfl⟩ := List.mem_iff_get.mp htask
    rw [← h.2 i hi] at ha
    obtain ⟨x, hx, rfl⟩ := List.mem_map.mp ha
    exact List.mem_map.mpr ⟨x, (List.mem_filter.mp hx).1, rfl⟩

end HeypAgents
