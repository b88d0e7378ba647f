import Mathlib.Algebra.BigOperators.Group.List.Basic
import HeypAgents.Lib.MapValues

/-!
# Folding entries into groups

A pass over a list that folds each entry into the value of its group, where the
values are in an association list and a missing one is an initial value.  The
value of a group is the fold over the entries of the group.
-/

namespace HeypAgents
namespace GroupFold

open MapValues

universe u v w

variable {κ : Type u} {ε : Type v} {β : Type w} [DecidableEq κ]

/-- The pass over the entries. -/
def groupFold (key : ε → κ) (init : β) (add : β → ε → β)
    (groups : AList fun _ : κ => β) (entries : List ε) : AList fun _ : κ => β :=
  entries.foldl (fun groups e =>
    groups.insert (key e) (add ((groups.lookup (key e)).getD init) e)) groups

variable {key : ε → κ} {init : β} {add : β → ε → β} {groups : AList fun _ : κ => β}

theorem groupFold_cons (e : ε) (entries : List ε) :
    groupFold key init add groups (e :: entries) =
      groupFold key init add
        (groups.insert (key e) (add ((groups.lookup (key e)).getD init) e)) entries :=
  rfl

/-- The value of a group is the fold over its entries. -/
theorem getD_lookup_groupFold (entries : List ε) (g : κ) :
    ((groupFold key init add groups entries).lookup g).getD init =
      (entries.filter fun e => key e = g).foldl add ((groups.lookup g).getD init) := by
  induction entries generalizing groups with
  | nil => rfl
  | cons e entries ih =>
    rw [groupFold_cons, ih]
    by_cases hkey : key e = g
    · subst hkey
      simp
    · rw [AList.lookup_insert_ne (Ne.symm hkey), List.filter_cons_of_neg (by simpa using hkey)]

theorem mem_groupFold (entries : List ε) (g : κ) :
    g ∈ groupFold key init add groups entries ↔ g ∈ groups ∨ ∃ e ∈ entries, key e = g := by
  induction entries generalizing groups with
  | nil => simp [groupFold]
  | cons e entries ih =>
    rw [groupFold_cons, ih, AList.mem_insert, List.exists_mem_cons_iff, or_assoc, or_left_comm,
      eq_comm]

/-- The groups together have the measure of all entries. -/
theorem sum_entries_groupFold {M : Type*} [AddCommMonoid M] {measure : κ → β → M} {weight : ε → M}
    (hinit : ∀ g, measure g init = 0)
    (hadd : ∀ b e, measure (key e) (add b e) = measure (key e) b + weight e) (entries : List ε) :
    ((groupFold key init add groups entries).entries.map fun g => measure g.1 g.2).sum =
      (groups.entries.map fun g => measure g.1 g.2).sum + (entries.map weight).sum := by
  induction entries generalizing groups with
  | nil => simp [groupFold]
  | cons e entries ih =>
    have hstep : ((groups.insert (key e)
        (add ((groups.lookup (key e)).getD init) e)).entries.map fun g => measure g.1 g.2).sum =
        (groups.entries.map fun g => measure g.1 g.2).sum + weight e := by
      rw [AList.entries_insert, List.map_cons, List.sum_cons, hadd]
      cases hlookup : groups.lookup (key e) with
      | none =>
        have hsame : List.kerase (key e) groups.entries = groups.entries :=
          entries_erase_of_none hlookup
        rw [hsame, Option.getD_none, hinit, zero_add, add_comm]
      | some b =>
        have hsum := ((entries_erase_of_some hlookup).map fun g => measure g.1 g.2).sum_eq
        rw [List.map_cons, List.sum_cons] at hsum
        rw [Option.getD_some, ← hsum, add_right_comm]
        rfl
    rw [groupFold_cons, ih, hstep, List.map_cons, List.sum_cons, add_assoc]

end GroupFold
end HeypAgents
