import Mathlib.Data.List.AList

/-!
# The values of an association list

The values up to their order, as keys are inserted and erased.
-/

namespace HeypAgents
namespace MapValues

universe u v

variable {κ : Type u} {ν : Type v}

def values (m : AList fun _ : κ => ν) : List ν := m.entries.map Sigma.snd

variable [DecidableEq κ] {m : AList fun _ : κ => ν} {k : κ} {v : ν}

theorem values_insert : values (m.insert k v) = v :: values (m.erase k) := rfl

theorem entries_erase_of_none (h : m.lookup k = none) : (m.erase k).entries = m.entries :=
  List.kerase_of_notMem_keys (AList.lookup_eq_none.mp h)

theorem entries_erase_of_some (h : m.lookup k = some v) :
    ((⟨k, v⟩ : Sigma fun _ : κ => ν) :: (m.erase k).entries).Perm m.entries := by
  have hk : k ∈ m.entries.keys := AList.lookup_isSome.mp (by rw [h]; rfl)
  obtain ⟨v', l₁, l₂, -, hentries, herase⟩ := List.exists_of_kerase hk
  have hv : m.lookup k = some v' := AList.mem_lookup_iff.mpr (by rw [hentries]; simp)
  obtain rfl : v = v' := Option.some.inj (h.symm.trans hv)
  have hrest : (m.erase k).entries = l₁ ++ l₂ := herase
  rw [hrest, hentries]
  exact List.perm_middle.symm

theorem values_erase_of_none (h : m.lookup k = none) : values (m.erase k) = values m := by
  rw [values, entries_erase_of_none h, values]

theorem values_erase_of_some (h : m.lookup k = some v) :
    (v :: values (m.erase k)).Perm (values m) := by
  have hperm := (entries_erase_of_some h).map fun e => e.2
  exact hperm

theorem map_filter_entries {l : List (Sigma fun _ : κ => ν)} (h : l.NodupKeys) (k : κ) :
    (l.filter fun e => e.1 = k).map Sigma.snd = (l.dlookup k).toList := by
  induction l with
  | nil => rfl
  | cons e l ih =>
    obtain ⟨hnew, hl⟩ := List.nodupKeys_cons.mp h
    obtain ⟨k', v⟩ := e
    by_cases hk : k' = k
    · subst hk
      have hnone : l.dlookup k' = none := List.dlookup_eq_none.mpr hnew
      have hrest := ih hl
      rw [hnone] at hrest
      rw [List.filter_cons_of_pos (by simp), List.map_cons, hrest, List.dlookup_cons_eq]
      rfl
    · have hskip : (⟨k', v⟩ :: l : List (Sigma fun _ : κ => ν)).dlookup k = l.dlookup k :=
        List.dlookup_cons_ne l _ (Ne.symm hk)
      rw [List.filter_cons_of_neg (by simpa using hk), ih hl, hskip]

theorem filter_values {keyOf : ν → κ} (h : ∀ k v, m.lookup k = some v → keyOf v = k) (k : κ) :
    (values m).filter (fun v => keyOf v = k) = (m.lookup k).toList := by
  have hkey : ∀ e ∈ m.entries, keyOf e.2 = e.1 :=
    fun e he => h e.1 e.2 (AList.mem_lookup_iff.mpr he)
  have hfilter : m.entries.filter (fun e => keyOf e.2 = k) = m.entries.filter fun e => e.1 = k :=
    List.filter_congr fun e he => by rw [hkey e he]
  have hentries := map_filter_entries m.nodupKeys k
  rw [← hfilter] at hentries
  rw [values, List.filter_map]
  exact hentries

end MapValues
end HeypAgents
