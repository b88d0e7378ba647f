import Mathlib.Algebra.Order.Group.Multiset

/-!
# Edit scripts of an ordered table

A table is a list of entries that is walked from its head.  A script deletes
entries by value, inserts entries at the head and appends them at the end, and is
applied as a whole or not at all: it fails when a deletion finds no entry.
-/

namespace HeypAgents
namespace EditScript

universe u

inductive Edit (α : Type u) where
  | delete (a : α)
  | insert (a : α)
  | append (a : α)
deriving DecidableEq, Repr

namespace Edit

variable {α : Type u}

def inserted? : Edit α → Option α
  | .insert a => some a
  | _ => none

def appended? : Edit α → Option α
  | .append a => some a
  | _ => none

/-- The entry that is added. -/
def added? : Edit α → Option α
  | .delete _ => none
  | .insert a => some a
  | .append a => some a

theorem coe_added (script : List (Edit α)) :
    ((script.filterMap added? : List α) : Multiset α) =
      (script.filterMap inserted? : List α) + (script.filterMap appended? : List α) := by
  induction script with
  | nil => rfl
  | cons e script ih =>
    cases e <;>
      simp only [List.filterMap_cons, added?, inserted?, appended?,
        ← Multiset.cons_coe, ih, Multiset.cons_add, Multiset.add_cons]

end Edit

variable {α : Type u} [DecidableEq α]

def Edit.apply (table : List α) : Edit α → Option (List α)
  | .delete a => if a ∈ table then some (table.erase a) else none
  | .insert a => some (a :: table)
  | .append a => some (table ++ [a])

def applyAll (table : List α) (script : List (Edit α)) : Option (List α) :=
  script.foldlM Edit.apply table

@[simp] theorem applyAll_nil (table : List α) : applyAll table [] = some table := rfl

@[simp] theorem applyAll_cons (table : List α) (e : Edit α) (script : List (Edit α)) :
    applyAll table (e :: script) = (e.apply table).bind fun table' => applyAll table' script := rfl

theorem applyAll_append (table : List α) (script script' : List (Edit α)) :
    applyAll table (script ++ script') =
      (applyAll table script).bind fun table' => applyAll table' script' := by
  simp [applyAll, List.foldlM_append]

theorem applyAll_deletes (table entries : List α) :
    applyAll table (entries.map .delete) =
      if (entries : Multiset α) ≤ table then some (table.diff entries) else none := by
  induction entries generalizing table with
  | nil =>
    rw [List.map_nil, applyAll_nil, Multiset.coe_nil, if_pos (Multiset.zero_le _), List.diff_nil]
  | cons a entries ih =>
    rw [List.map_cons, applyAll_cons, Edit.apply]
    by_cases ha : a ∈ table
    · have hle : ((a :: entries : List α) : Multiset α) ≤ table ↔
          (entries : Multiset α) ≤ (table.erase a : List α) := by
        have hmem : a ∈ (table : Multiset α) := by simpa using ha
        rw [← Multiset.cons_coe, ← Multiset.coe_erase, ← Multiset.cons_erase hmem,
          Multiset.cons_le_cons_iff, Multiset.erase_cons_head]
      simp only [if_pos ha, Option.bind_some, ih, hle, List.diff_cons]
    · have hle : ¬ ((a :: entries : List α) : Multiset α) ≤ table := fun h =>
        ha (by simpa using Multiset.mem_of_le h (a := a) (by simp))
      rw [if_neg ha, if_neg hle]
      rfl

theorem applyAll_additions (table : List α) {script : List (Edit α)}
    (hadds : ∀ e ∈ script, e.added?.isSome) :
    applyAll table script =
      some ((script.filterMap Edit.inserted?).reverse ++
        (table ++ script.filterMap Edit.appended?)) := by
  induction script generalizing table with
  | nil => simp
  | cons e script ih =>
    have hrest := fun table' => ih table' fun x hx => hadds x (List.mem_cons_of_mem e hx)
    cases e with
    | delete a => simpa [Edit.added?] using hadds (.delete a) (by simp)
    | insert a => simp [Edit.apply, Edit.inserted?, Edit.appended?, List.filterMap_cons, hrest]
    | append a => simp [Edit.apply, Edit.inserted?, Edit.appended?, List.filterMap_cons, hrest]

/--
A script of deletions followed by additions succeeds iff the table holds the deleted
entries, and then replaces them by the added ones.
-/
theorem applyAll_deletes_additions (table entries : List α) {script : List (Edit α)}
    (hadds : ∀ e ∈ script, e.added?.isSome) :
    if (entries : Multiset α) ≤ table then
      ∃ table', applyAll table (entries.map .delete ++ script) = some table' ∧
        (table' : Multiset α) = table - entries + (script.filterMap Edit.added? : List α)
    else applyAll table (entries.map .delete ++ script) = none := by
  rw [applyAll_append, applyAll_deletes]
  split_ifs with hle
  · refine ⟨_, applyAll_additions _ hadds, ?_⟩
    rw [Edit.coe_added, Multiset.coe_sub, ← Multiset.coe_add, ← Multiset.coe_add,
      ← Multiset.coe_reverse (script.filterMap Edit.inserted?)]
    rw [add_left_comm]
  · rfl

end EditScript
end HeypAgents
