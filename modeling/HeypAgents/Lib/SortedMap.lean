import Mathlib.Data.List.Basic

/-!
# Sorted maps

A map kept as a list of entries in increasing order of the ranks of their keys, with
insertion, lookup and the scan of a range of ranks.
-/

namespace HeypAgents

section Scans

variable {α : Type*} {p : α → Bool} {xs : List α} {x : α}

theorem mem_takeWhile_iff (h : xs.Pairwise fun a b => p b = true → p a = true) :
    x ∈ xs.takeWhile p ↔ x ∈ xs ∧ p x = true := by
  induction xs with
  | nil => simp
  | cons y xs ih =>
    obtain ⟨hhead, htail⟩ := List.pairwise_cons.mp h
    cases hy : p y with
    | true =>
      rw [List.takeWhile_cons_of_pos hy, List.mem_cons, ih htail, List.mem_cons]
      constructor
      · rintro (rfl | hx)
        · exact ⟨.inl rfl, hy⟩
        · exact ⟨.inr hx.1, hx.2⟩
      · rintro ⟨rfl | hx, hp⟩
        · exact .inl rfl
        · exact .inr ⟨hx, hp⟩
    | false =>
      rw [List.takeWhile_cons_of_neg (by simp [hy])]
      refine ⟨fun hx => absurd hx (by simp), ?_⟩
      rintro ⟨hx, hp⟩
      rcases List.mem_cons.mp hx with rfl | hx
      · simp [hy] at hp
      · simp [hy] at hhead
        simp [hhead x hx] at hp

theorem mem_dropWhile_iff (h : xs.Pairwise fun a b => p b = true → p a = true) :
    x ∈ xs.dropWhile p ↔ x ∈ xs ∧ ¬ p x = true := by
  induction xs with
  | nil => simp
  | cons y xs ih =>
    obtain ⟨hhead, htail⟩ := List.pairwise_cons.mp h
    cases hy : p y with
    | true =>
      rw [List.dropWhile_cons_of_pos hy, ih htail, List.mem_cons]
      refine ⟨fun hx => ⟨.inr hx.1, hx.2⟩, ?_⟩
      rintro ⟨rfl | hx, hp⟩
      · exact absurd hy hp
      · exact ⟨hx, hp⟩
    | false =>
      rw [List.dropWhile_cons_of_neg (by simp [hy])]
      refine ⟨fun hx => ⟨hx, fun hp => ?_⟩, fun hx => hx.1⟩
      rcases List.mem_cons.mp hx with rfl | hx
      · simp [hy] at hp
      · simp [hhead x hx hp] at hy

end Scans

structure SortedMap (K V : Type*) (rank : K → ℕ) where
  entries : List (K × V) := []
  sorted : entries.Pairwise fun a b => rank a.1 < rank b.1 := by simp

namespace SortedMap

variable {K V : Type*} {rank : K → ℕ}

section Entries

variable (rank)

/-- An entry with the same rank is replaced. -/
def insertEntry (k : K) (v : V) : List (K × V) → List (K × V)
  | [] => [(k, v)]
  | e :: es =>
    if rank k < rank e.1 then (k, v) :: e :: es
    else if rank e.1 < rank k then e :: insertEntry k v es
    else (k, v) :: es

variable {rank}

theorem mem_insertEntry {k : K} {v : V} {es : List (K × V)}
    (h : es.Pairwise fun a b => rank a.1 < rank b.1) {x : K × V} :
    x ∈ insertEntry rank k v es ↔ x = (k, v) ∨ (rank x.1 ≠ rank k ∧ x ∈ es) := by
  induction es with
  | nil => simp [insertEntry]
  | cons e es ih =>
    obtain ⟨hhead, htail⟩ := List.pairwise_cons.mp h
    rw [insertEntry]
    split_ifs with hlt hgt
    · have hne : x ∈ e :: es → rank x.1 ≠ rank k := by
        intro hx
        rcases List.mem_cons.mp hx with rfl | hx
        · omega
        · have := hhead x hx
          omega
      rw [List.mem_cons]
      exact or_congr_right ⟨fun hx => ⟨hne hx, hx⟩, fun hx => hx.2⟩
    · rw [List.mem_cons, ih htail, List.mem_cons]
      constructor
      · rintro (rfl | rfl | ⟨hne, hx⟩)
        · exact .inr ⟨by omega, .inl rfl⟩
        · exact .inl rfl
        · exact .inr ⟨hne, .inr hx⟩
      · rintro (rfl | ⟨hne, rfl | hx⟩)
        · exact .inr (.inl rfl)
        · exact .inl rfl
        · exact .inr (.inr ⟨hne, hx⟩)
    · have hk : rank e.1 = rank k := by omega
      rw [List.mem_cons, List.mem_cons]
      constructor
      · rintro (rfl | hx)
        · exact .inl rfl
        · have := hhead x hx
          exact .inr ⟨by omega, .inr hx⟩
      · rintro (rfl | ⟨hne, rfl | hx⟩)
        · exact .inl rfl
        · exact absurd hk hne
        · exact .inr hx

theorem sorted_insertEntry {k : K} {v : V} {es : List (K × V)}
    (h : es.Pairwise fun a b => rank a.1 < rank b.1) :
    (insertEntry rank k v es).Pairwise fun a b => rank a.1 < rank b.1 := by
  induction es with
  | nil => simp [insertEntry]
  | cons e es ih =>
    obtain ⟨hhead, htail⟩ := List.pairwise_cons.mp h
    rw [insertEntry]
    split_ifs with hlt hgt
    · refine List.pairwise_cons.mpr ⟨fun x hx => ?_, h⟩
      rcases List.mem_cons.mp hx with rfl | hx
      · exact hlt
      · exact Nat.lt_trans hlt (hhead x hx)
    · refine List.pairwise_cons.mpr ⟨fun x hx => ?_, ih htail⟩
      rcases (mem_insertEntry htail).mp hx with rfl | ⟨-, hx⟩
      · exact hgt
      · exact hhead x hx
    · refine List.pairwise_cons.mpr ⟨fun x hx => ?_, htail⟩
      have := hhead x hx
      have hk : rank e.1 = rank k := by omega
      show rank k < rank x.1
      omega

end Entries

def insert (m : SortedMap K V rank) (k : K) (v : V) : SortedMap K V rank where
  entries := insertEntry rank k v m.entries
  sorted := sorted_insertEntry m.sorted

def find (m : SortedMap K V rank) (k : K) : Option V :=
  (m.entries.find? fun e => rank e.1 = rank k).map (·.2)

/-- The entries from the first one with a rank of at least `lo` to the last up to `hi`. -/
def range (m : SortedMap K V rank) (lo hi : ℕ) : List (K × V) :=
  (m.entries.dropWhile fun e => rank e.1 < lo).takeWhile fun e => rank e.1 ≤ hi

theorem mem_insert (m : SortedMap K V rank) {k : K} {v : V} {x : K × V} :
    x ∈ (m.insert k v).entries ↔ x = (k, v) ∨ (rank x.1 ≠ rank k ∧ x ∈ m.entries) :=
  mem_insertEntry m.sorted

theorem eq_of_rank_eq
    (m : SortedMap K V rank) {x y : K × V} (hx : x ∈ m.entries) (hy : y ∈ m.entries)
    (hxy : rank x.1 = rank y.1) : x = y := by
  obtain ⟨es, h⟩ := m
  induction es with
  | nil => cases hx
  | cons e es ih =>
    obtain ⟨hhead, htail⟩ := List.pairwise_cons.mp h
    rcases List.mem_cons.mp hx with rfl | hx'
    · rcases List.mem_cons.mp hy with rfl | hy'
      · rfl
      · have := hhead y hy'
        omega
    · rcases List.mem_cons.mp hy with rfl | hy'
      · have := hhead x hx'
        omega
      · exact ih htail hx' hy'

theorem find?_entries_eq_some_iff (m : SortedMap K V rank) {r : ℕ} {x : K × V} :
    (m.entries.find? fun e => rank e.1 = r) = some x ↔ x ∈ m.entries ∧ rank x.1 = r := by
  constructor
  · intro hfind
    exact ⟨List.mem_of_find?_eq_some hfind, by simpa using List.find?_some hfind⟩
  · rintro ⟨hx, hr⟩
    cases hfind : m.entries.find? fun e => rank e.1 = r with
    | none =>
      have := List.find?_eq_none.mp hfind x hx
      simp [hr] at this
    | some e =>
      have hk : rank e.1 = r := by simpa using List.find?_some hfind
      rw [m.eq_of_rank_eq (List.mem_of_find?_eq_some hfind) hx (hk.trans hr.symm)]

theorem find_eq_some_iff
    (hrank : Function.Injective rank) (m : SortedMap K V rank) {k : K} {v : V} :
    m.find k = some v ↔ (k, v) ∈ m.entries := by
  rw [find, Option.map_eq_some_iff]
  constructor
  · rintro ⟨⟨k', v'⟩, hfind, rfl⟩
    obtain ⟨hmem, hk⟩ := m.find?_entries_eq_some_iff.mp hfind
    rwa [← hrank hk]
  · intro hmem
    exact ⟨(k, v), m.find?_entries_eq_some_iff.mpr ⟨hmem, rfl⟩, rfl⟩

theorem mem_range (m : SortedMap K V rank) {lo hi : ℕ} {x : K × V} :
    x ∈ m.range lo hi ↔ x ∈ m.entries ∧ lo ≤ rank x.1 ∧ rank x.1 ≤ hi := by
  have hdrop : m.entries.Pairwise fun a b =>
      decide (rank b.1 < lo) = true → decide (rank a.1 < lo) = true :=
    m.sorted.imp fun hab => by simpa using fun hb => Nat.lt_trans hab hb
  have htake : m.entries.Pairwise fun a b =>
      decide (rank b.1 ≤ hi) = true → decide (rank a.1 ≤ hi) = true :=
    m.sorted.imp fun hab => by simpa using fun hb => Nat.le_trans (Nat.le_of_lt hab) hb
  rw [range, mem_takeWhile_iff (htake.sublist (List.dropWhile_sublist _)),
    mem_dropWhile_iff hdrop, and_assoc]
  simp

end SortedMap
end HeypAgents
