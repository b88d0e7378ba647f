import Mathlib.Data.List.Range
import Mathlib.Data.List.Sort

/-!
# Merging runs of equal keys

In a list sorted by a key the elements of one key stand together.  `mergeRuns` joins each
run into one element, from left to right.  `compactStep` is the same in place: a write index
moves behind the read index, and an element is written over the last merged one, or behind
it, in slots that have been read already.

After a stable sort the run of a key is the list of the elements with this key in their
original order.
-/

namespace HeypAgents
namespace SortedRuns

variable {β K : Type*} [LinearOrder K] (key : β → K) (join : β → β → β)

/-- Merge the following elements into `last` as long as they have its key. -/
def mergeFrom : β → List β → List β
  | last, [] => [last]
  | last, x :: xs =>
    if key x = key last then mergeFrom (join last x) xs else last :: mergeFrom x xs

def mergeRuns : List β → List β
  | [] => []
  | x :: xs => mergeFrom key join x xs

/-- One iteration in place, with the index of the last merged element; `none` where an index
is out of range. -/
def compactStep (s : List β × ℕ) (i : ℕ) : Option (List β × ℕ) := do
  let next ← s.1[i]?
  let last ← s.1[s.2]?
  if key next = key last then
    return (s.1.set s.2 (join last next), s.2)
  else
    let _ ← s.1[s.2 + 1]?
    return (s.1.set (s.2 + 1) next, s.2 + 1)

variable {key join}

theorem compactStep_foldlM (n : ℕ) {xs : List β} {last i : ℕ} {x : β} (hlast : last < i)
    (hx : xs[last]? = some x) (hn : i + n = xs.length) :
    ∃ ys last', (List.range' i n).foldlM (compactStep key join) (xs, last) = some (ys, last') ∧
      ys.take (last' + 1) = xs.take last ++ mergeFrom key join x (xs.drop i) := by
  induction n generalizing xs last i x with
  | zero =>
    refine ⟨xs, last, rfl, ?_⟩
    rw [List.drop_eq_nil_of_le (by omega), List.take_add_one, hx]
    rfl
  | succ n ih =>
    have hi : i < xs.length := by omega
    have hdrop : xs.drop i = xs[i] :: xs.drop (i + 1) := List.drop_eq_getElem_cons hi
    have hbound : last < xs.length := by omega
    rw [List.range'_succ, List.foldlM_cons, hdrop, mergeFrom]
    by_cases hkey : key xs[i] = key x
    · have hstep : compactStep key join (xs, last) i =
          some (xs.set last (join x xs[i]), last) := by
        simp [compactStep, hx, hi, hkey]
      obtain ⟨ys, last', hrest, htake⟩ := @ih (xs.set last (join x xs[i])) last (i + 1)
        (join x xs[i]) (by omega) (by simp [hbound]) (by rw [List.length_set]; omega)
      refine ⟨ys, last', by rw [hstep]; exact hrest, ?_⟩
      rw [htake, if_pos hkey, List.take_set_of_le le_rfl, List.drop_set_of_lt (by omega)]
    · have hstep : compactStep key join (xs, last) i =
          some (xs.set (last + 1) xs[i], last + 1) := by
        have hnext : last + 1 < xs.length := by omega
        simp [compactStep, hx, hi, hkey, hnext]
      obtain ⟨ys, last', hrest, htake⟩ := @ih (xs.set (last + 1) xs[i]) (last + 1) (i + 1) xs[i]
        (by omega) (by rw [List.getElem?_set_self (by omega)]) (by rw [List.length_set]; omega)
      refine ⟨ys, last', by rw [hstep]; exact hrest, ?_⟩
      rw [htake, if_neg hkey, List.take_set_of_le le_rfl, List.drop_set_of_lt (by omega),
        List.take_add_one, hx]
      simp

/-- The pass in place merges the runs. -/
theorem compact_eq (xs : List β) (hne : xs ≠ []) :
    ∃ ys last, (List.range' 1 (xs.length - 1)).foldlM (compactStep key join) (xs, 0) =
        some (ys, last) ∧ ys.take (last + 1) = mergeRuns key join xs := by
  obtain ⟨x, rest, rfl⟩ := List.exists_cons_of_ne_nil hne
  obtain ⟨ys, last, hrun, htake⟩ := @compactStep_foldlM _ _ _ key join rest.length
    (x :: rest) 0 1 x Nat.zero_lt_one rfl (by simp [Nat.add_comm])
  exact ⟨ys, last, hrun, htake⟩

theorem mergeFrom_ne_nil (x : β) (xs : List β) : mergeFrom key join x xs ≠ [] := by
  induction xs generalizing x with
  | nil => exact List.cons_ne_nil x []
  | cons y xs ih =>
    rw [mergeFrom]
    split_ifs
    · exact ih _
    · exact List.cons_ne_nil x _

/-- The last merged element of a block opens the next one. -/
theorem mergeFrom_append {x z : β} {xs zs : List β} (ys : List β)
    (h : mergeFrom key join x xs = zs ++ [z]) :
    mergeFrom key join x (xs ++ ys) = zs ++ mergeFrom key join z ys := by
  induction xs generalizing x zs with
  | nil =>
    obtain ⟨rfl, hx⟩ := List.append_inj' (show [] ++ [x] = zs ++ [z] from h) rfl
    obtain rfl := List.singleton_inj.mp hx
    rfl
  | cons y xs ih =>
    rw [mergeFrom] at h
    rw [List.cons_append, mergeFrom]
    split_ifs with hkey
    · rw [if_pos hkey] at h
      exact ih h
    · rw [if_neg hkey] at h
      cases zs with
      | nil => exact absurd (List.cons.inj h).2 (mergeFrom_ne_nil y xs)
      | cons z' zs =>
        obtain ⟨rfl, hrest⟩ := List.cons.inj h
        rw [ih hrest]
        rfl

theorem getLast?_filter_mergeFrom (p : K → Bool) (x : β) (xs : List β) :
    ((mergeFrom key (fun _ y => y) x xs).filter fun y => p (key y)).getLast? =
      ((x :: xs).filter fun y => p (key y)).getLast? := by
  induction xs generalizing x with
  | nil => rfl
  | cons y xs ih =>
    rw [mergeFrom]
    split_ifs with hkey
    · rw [ih]
      simp only [List.filter_cons, hkey]
      split_ifs
      · rw [List.getLast?_cons_cons]
      · rfl
    · rw [List.filter_cons, List.filter_cons]
      split_ifs
      · rw [List.getLast?_cons, List.getLast?_cons, ih]
      · exact ih y

section Groups

/-- The elements of one key. -/
def group (key : β → K) (k : K) (xs : List β) : List β := xs.filter fun x => key x = k

def IsFold (join : β → β → β) (xs : List β) (y : β) : Prop :=
  ∃ x rest, xs = x :: rest ∧ y = rest.foldl join x

variable {x y last : β} {xs : List β}

/-- Sorted by the key. -/
abbrev ByKey (key : β → K) (xs : List β) : Prop := xs.Pairwise fun a b => key a ≤ key b

theorem byKey_join (hkey : key (join last x) = key last) (h : ByKey key (last :: x :: xs)) :
    ByKey key (join last x :: xs) := by
  obtain ⟨hlast, hrest⟩ := List.pairwise_cons.mp h
  refine List.pairwise_cons.mpr ⟨fun b hb => ?_, hrest.of_cons⟩
  rw [hkey]
  exact hlast b (List.mem_cons_of_mem x hb)

theorem le_of_mem_mergeFrom (hjoin : ∀ a b, key b = key a → key (join a b) = key a)
    (hsorted : ByKey key (last :: xs)) (hy : y ∈ mergeFrom key join last xs) :
    key last ≤ key y := by
  induction xs generalizing last with
  | nil =>
    obtain rfl := List.mem_singleton.mp hy
    exact le_rfl
  | cons x xs ih =>
    rw [mergeFrom] at hy
    split_ifs at hy with hkey
    · rw [← hjoin last x hkey]
      exact ih (byKey_join (hjoin last x hkey) hsorted) hy
    · rcases List.mem_cons.mp hy with rfl | hy
      · exact le_rfl
      · exact ((List.pairwise_cons.mp hsorted).1 x List.mem_cons_self).trans
          (ih hsorted.of_cons hy)

/-- One element per key, in ascending order. -/
theorem keys_mergeFrom (hjoin : ∀ a b, key b = key a → key (join a b) = key a)
    (hsorted : ByKey key (last :: xs)) :
    ((mergeFrom key join last xs).map key).Pairwise (· < ·) ∧
      ∀ k, k ∈ (mergeFrom key join last xs).map key ↔ k ∈ (last :: xs).map key := by
  induction xs generalizing last with
  | nil => simp [mergeFrom]
  | cons x xs ih =>
    rw [mergeFrom]
    split_ifs with hkey
    · obtain ⟨hpairwise, hmem⟩ := ih (byKey_join (hjoin last x hkey) hsorted)
      refine ⟨hpairwise, fun k => ?_⟩
      rw [hmem]
      simp [hjoin last x hkey, hkey]
    · obtain ⟨hpairwise, hmem⟩ := ih hsorted.of_cons
      have hle : key last ≤ key x := (List.pairwise_cons.mp hsorted).1 x List.mem_cons_self
      have hlt : key last < key x := lt_of_le_of_ne hle (Ne.symm hkey)
      refine ⟨List.pairwise_cons.mpr ⟨fun k hk => ?_, hpairwise⟩, fun k => ?_⟩
      · obtain ⟨y, hy, rfl⟩ := List.mem_map.mp hk
        exact hlt.trans_le (le_of_mem_mergeFrom hjoin hsorted.of_cons hy)
      · rw [List.map_cons, List.mem_cons, hmem]
        simp

theorem group_cons_of_eq {k : K} (h : key x = k) : group key k (x :: xs) = x :: group key k xs := by
  simp [group, h]

theorem group_cons_of_ne {k : K} (h : key x ≠ k) : group key k (x :: xs) = group key k xs := by
  simp [group, h]

/-- Each element is the fold of those with its key. -/
theorem isFold_of_mem_mergeFrom (hjoin : ∀ a b, key b = key a → key (join a b) = key a)
    (hsorted : ByKey key (last :: xs)) (hy : y ∈ mergeFrom key join last xs) :
    IsFold join (group key (key y) (last :: xs)) y := by
  induction xs generalizing last with
  | nil =>
    obtain rfl := List.mem_singleton.mp hy
    exact ⟨y, [], group_cons_of_eq rfl, rfl⟩
  | cons x xs ih =>
    rw [mergeFrom] at hy
    split_ifs at hy with hkey
    · obtain ⟨z, rest, hgroup, hfold⟩ := ih (byKey_join (hjoin last x hkey) hsorted) hy
      by_cases hk : key last = key y
      · rw [group_cons_of_eq ((hjoin last x hkey).trans hk)] at hgroup
        obtain ⟨rfl, rfl⟩ := List.cons.inj hgroup
        refine ⟨last, x :: group key (key y) xs, ?_, hfold⟩
        rw [group_cons_of_eq hk, group_cons_of_eq (hkey.trans hk)]
      · rw [group_cons_of_ne (fun h => hk ((hjoin last x hkey).symm.trans h))] at hgroup
        refine ⟨z, rest, ?_, hfold⟩
        rw [group_cons_of_ne hk, group_cons_of_ne (fun h => hk (hkey.symm.trans h)), hgroup]
    · have hle : key last ≤ key x := (List.pairwise_cons.mp hsorted).1 x List.mem_cons_self
      have hlt : key last < key x := lt_of_le_of_ne hle (Ne.symm hkey)
      rcases List.mem_cons.mp hy with rfl | hy
      · refine ⟨y, [], ?_, rfl⟩
        rw [group_cons_of_eq rfl, group, List.filter_eq_nil_iff.mpr]
        intro z hz
        have hxz : key x ≤ key z := by
          rcases List.mem_cons.mp hz with rfl | hz
          · exact le_rfl
          · exact (List.pairwise_cons.mp hsorted.of_cons).1 z hz
        simpa using (hlt.trans_le hxz).ne'
      · have hxy := le_of_mem_mergeFrom hjoin hsorted.of_cons hy
        rw [group_cons_of_ne (hlt.trans_le hxy).ne]
        exact ih hsorted.of_cons hy

theorem group_orderedInsert (k : K) (x : β) (xs : List β) :
    group key k (xs.orderedInsert (fun a b => key a ≤ key b) x) = group key k (x :: xs) := by
  induction xs with
  | nil => rfl
  | cons y xs ih =>
    rw [List.orderedInsert_cons]
    split_ifs with hle
    · rfl
    · have hne : key x = k → key y ≠ k := by
        rintro rfl hy
        exact hle hy.ge
      by_cases hx : key x = k
      · rw [group_cons_of_ne (hne hx), ih, group_cons_of_eq hx, group_cons_of_eq hx,
          group_cons_of_ne (hne hx)]
      · rw [group_cons_of_ne hx] at ih
        rw [group_cons_of_ne hx]
        by_cases hy : key y = k
        · rw [group_cons_of_eq hy, group_cons_of_eq hy, ih]
        · rw [group_cons_of_ne hy, group_cons_of_ne hy, ih]

/-- Sorting does not change the order of the elements of one key. -/
theorem group_insertionSort (k : K) (xs : List β) :
    group key k (xs.insertionSort fun a b => key a ≤ key b) = group key k xs := by
  induction xs with
  | nil => rfl
  | cons x xs ih =>
    rw [List.insertionSort_cons, group_orderedInsert]
    by_cases hx : key x = k
    · rw [group_cons_of_eq hx, group_cons_of_eq hx, ih]
    · rw [group_cons_of_ne hx, group_cons_of_ne hx, ih]

/--
Merging after a stable sort gives one element per key in ascending order, each the fold of
the elements with its key in their original order.
-/
theorem mergeRuns_insertionSort (hjoin : ∀ a b, key b = key a → key (join a b) = key a)
    (xs : List β) {ys : List β} (hys : ys = mergeRuns key join (xs.insertionSort fun a b => key a ≤ key b)) :
    (ys.map key).Pairwise (· < ·) ∧ (∀ k, k ∈ ys.map key ↔ k ∈ xs.map key) ∧
      ∀ y ∈ ys, IsFold join (group key (key y) xs) y := by
  have hperm := List.perm_insertionSort (fun a b => key a ≤ key b) xs
  have hsorted : ByKey key (xs.insertionSort fun a b => key a ≤ key b) :=
    have : Std.Total fun a b : β => key a ≤ key b := ⟨fun a b => le_total (key a) (key b)⟩
    have : IsTrans β fun a b => key a ≤ key b := ⟨fun _ _ _ => le_trans⟩
    List.pairwise_insertionSort _ xs
  have hgroup : ∀ k, group key k (xs.insertionSort fun a b => key a ≤ key b) = group key k xs :=
    fun k => group_insertionSort k xs
  have hkeys : ∀ k, k ∈ (xs.insertionSort fun a b => key a ≤ key b).map key ↔ k ∈ xs.map key :=
    fun k => (hperm.map key).mem_iff
  cases hcase : xs.insertionSort fun a b => key a ≤ key b with
  | nil =>
    rw [hcase] at hkeys hys
    subst hys
    exact ⟨List.Pairwise.nil, hkeys, by simp [mergeRuns]⟩
  | cons x rest =>
    rw [hcase] at hkeys hys hgroup hsorted
    subst hys
    obtain ⟨hpairwise, hmem⟩ := keys_mergeFrom hjoin hsorted
    refine ⟨hpairwise, fun k => (hmem k).trans (hkeys k), fun y hy => ?_⟩
    rw [← hgroup]
    exact isFold_of_mem_mergeFrom hjoin hsorted hy

end Groups

end SortedRuns
end HeypAgents
