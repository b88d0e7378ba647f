import Mathlib.Order.Lattice

/-!
# Binary heaps in an array

The children of the place `i` are the places `2 * i + 1` and `2 * i + 2`, and no element
has a larger key than those below it.  An element that is out of place moves up past
larger parents or down past smaller children.  The rules say which order each move needs
and keeps, that a push keeps a root which is not larger than the new element, and that a
pop takes the root away and nothing else.
-/

namespace HeypAgents
namespace BinaryHeap

variable {α K : Type*} [LinearOrder K] {n m : ℕ}

section Algorithms

variable (key : α → K)

/-- Move the element at `j` up past parents with larger keys. -/
def up : ℕ → Vector α n → (j : ℕ) → j < n → Vector α n
  | 0, v, _, _ => v
  | fuel + 1, v, j, hj =>
    have hi : (j - 1) / 2 < n := by omega
    if (j - 1) / 2 = j ∨ ¬ key v[j] < key v[(j - 1) / 2] then v
    else up fuel (v.swap ((j - 1) / 2) j hi hj) ((j - 1) / 2) hi

/-- The child of `i` with the smaller key; the second one if both are equal. -/
def child (v : Vector α n) (m : ℕ) (hm : m ≤ n) (i : ℕ) (hi : 2 * i + 1 < m) : Fin n :=
  if h : 2 * i + 2 < m then
    if key v[2 * i + 2] ≤ key v[2 * i + 1] then ⟨2 * i + 2, by omega⟩ else ⟨2 * i + 1, by omega⟩
  else ⟨2 * i + 1, by omega⟩

/-- Move the element at `i` down past children with smaller keys, among the first `m`. -/
def down (m : ℕ) (hm : m ≤ n) : ℕ → Vector α n → (i : ℕ) → i < n → Vector α n
  | 0, v, _, _ => v
  | fuel + 1, v, i, hi =>
    if h : 2 * i + 1 < m then
      if key v[child key v m hm i h] < key v[i] then
        down m hm fuel (v.swap i (child key v m hm i h) hi (child key v m hm i h).isLt)
          (child key v m hm i h) (child key v m hm i h).isLt
      else v
    else v

/-- The place where the element that moves down from `i` ends. -/
def downEnd (m : ℕ) (hm : m ≤ n) : ℕ → Vector α n → (i : ℕ) → i < n → ℕ
  | 0, _, i, _ => i
  | fuel + 1, v, i, hi =>
    if h : 2 * i + 1 < m then
      if key v[child key v m hm i h] < key v[i] then
        downEnd m hm fuel (v.swap i (child key v m hm i h) hi (child key v m hm i h).isLt)
          (child key v m hm i h) (child key v m hm i h).isLt
      else i
    else i

def push (h : Array α) (x : α) : Array α :=
  (up key (h.size + 1) (h.toVector.push x) h.size (by omega)).toArray

def pop (h : Array α) (hne : 0 < h.size) : Array α :=
  have hlast : h.size - 1 < h.size := by omega
  (down key (h.size - 1) hlast.le h.size
    (h.toVector.swap 0 (h.size - 1) hne hlast) 0 hne).pop.toArray

/-- The last element takes the place of the one at `i`, and then moves up if it has not
moved down. -/
def resettle (h : Array α) (i : ℕ) (hi : i < h.size) : Vector α h.size :=
  have hlast : h.size - 1 < h.size := by omega
  let v := h.toVector.swap i (h.size - 1) hi hlast
  let w := down key (h.size - 1) hlast.le h.size v i hi
  if i < downEnd key (h.size - 1) hlast.le h.size v i hi then w else up key h.size w i hi

/-- The element at `i` in the last place, after the others. -/
def toLast (h : Array α) (i : ℕ) (hi : i < h.size) : Vector α h.size :=
  if i = h.size - 1 then h.toVector else resettle key h i hi

end Algorithms

section Order

variable {key : α → K} {v : Vector α n}

def IsChild (p c : ℕ) : Prop := c = 2 * p + 1 ∨ c = 2 * p + 2

/-- The first `m` places are in heap order. -/
def Ordered (key : α → K) (v : Vector α n) (m : ℕ) : Prop :=
  ∀ p c (hp : p < n) (hc : c < n), IsChild p c → c < m → key v[p] ≤ key v[c]

/-- The root has the smallest key. -/
theorem Ordered.root_le (h : Ordered key v m) (hn : 0 < n) (hm : m ≤ n) {k : ℕ} (hk : k < m) :
    key v[0] ≤ key v[k] := by
  induction k using Nat.strongRecOn with
  | ind k ih =>
    rcases Nat.eq_zero_or_pos k with rfl | hpos
    · exact le_rfl
    · have hp : (k - 1) / 2 < k := by omega
      have hchild : IsChild ((k - 1) / 2) k := by unfold IsChild; omega
      exact (ih _ hp (hp.trans hk)).trans (h _ _ (by omega) (by omega) hchild hk)

/-- All places but `j` are in order with their parents, and its children also with its
own parent. -/
structure UpReady (key : α → K) (v : Vector α n) (j : ℕ) : Prop where
  except : ∀ p c (hp : p < n) (hc : c < n), IsChild p c → c ≠ j → key v[p] ≤ key v[c]
  grand : ∀ p c (hp : p < n) (hc : c < n), IsChild p j → IsChild j c → key v[p] ≤ key v[c]

theorem UpReady.finish {j : ℕ} (h : UpReady key v j) (hj : j < n)
    (hstop : (j - 1) / 2 = j ∨ ¬ key v[j] < key v[(j - 1) / 2]) : Ordered key v n := by
  intro p c hp hc hpc _
  by_cases hcj : c = j
  · subst hcj
    obtain rfl : (c - 1) / 2 = p := by unfold IsChild at hpc; omega
    rcases hstop with hroot | hle
    · unfold IsChild at hpc
      omega
    · exact not_lt.mp hle
  · exact h.except p c hp hc hpc hcj

theorem UpReady.move {i j : ℕ} (h : UpReady key v j) (hi : i < n) (hj : j < n)
    (hij : IsChild i j) (hlt : key v[j] < key v[i]) : UpReady key (v.swap i j hi hj) i := by
  have hne : i ≠ j := by unfold IsChild at hij; omega
  constructor
  · intro p c hp hc hpc hci
    rw [Vector.getElem_swap, Vector.getElem_swap, if_neg hci]
    by_cases hcj : c = j
    · obtain rfl : p = i := by unfold IsChild at hpc hij; omega
      rw [if_pos rfl, if_pos hcj]
      exact hlt.le
    · rw [if_neg hcj]
      by_cases hpi : p = i
      · subst hpi
        rw [if_pos rfl]
        exact hlt.le.trans (h.except p c hp hc hpc hcj)
      · rw [if_neg hpi]
        by_cases hpj : p = j
        · subst hpj
          rw [if_pos rfl]
          exact h.grand i c hi hc hij hpc
        · rw [if_neg hpj]
          exact h.except p c hp hc hpc hcj
  · intro p c hp hc hpi hic
    have hpi' : p ≠ i := by unfold IsChild at hpi; omega
    have hpj : p ≠ j := by unfold IsChild at hpi hij; omega
    have hci : c ≠ i := by unfold IsChild at hic; omega
    have hle := h.except p i hp hi hpi hne
    rw [Vector.getElem_swap, Vector.getElem_swap, if_neg hpi', if_neg hpj, if_neg hci]
    by_cases hcj : c = j
    · rw [if_pos hcj]
      exact hle
    · rw [if_neg hcj]
      exact hle.trans (h.except i c hi hc hic hcj)

theorem up_ordered {fuel j : ℕ} (hfuel : j < fuel) (hj : j < n) (h : UpReady key v j) :
    Ordered key (up key fuel v j hj) n := by
  induction fuel generalizing v j with
  | zero => omega
  | succ fuel ih =>
    rw [up]
    split_ifs with hstop
    · exact h.finish hj hstop
    · push Not at hstop
      have hij : IsChild ((j - 1) / 2) j := by unfold IsChild; omega
      exact ih (by omega) (by omega) (h.move (by omega) hj hij hstop.2)

/-- All places but `i` are in order with their children, and its parent also with the
children of `i`. -/
structure DownReady (key : α → K) (v : Vector α n) (m i : ℕ) : Prop where
  except : ∀ p c (hp : p < n) (hc : c < n), IsChild p c → c < m → p ≠ i → key v[p] ≤ key v[c]
  grand : ∀ p c (hp : p < n) (hc : c < n), IsChild p i → IsChild i c → c < m → key v[p] ≤ key v[c]

theorem isChild_child (v : Vector α n) (hm : m ≤ n) {i : ℕ} (hi : 2 * i + 1 < m) :
    IsChild i (child key v m hm i hi) ∧ (child key v m hm i hi : ℕ) < m := by
  unfold IsChild child
  split_ifs with hsecond
  · exact ⟨Or.inr rfl, hsecond⟩
  · exact ⟨Or.inl rfl, hi⟩
  · exact ⟨Or.inl rfl, hi⟩

theorem child_le (hm : m ≤ n) {i c : ℕ} (hi : 2 * i + 1 < m) (hc : c < n) (hcm : c < m)
    (hic : IsChild i c) : key v[child key v m hm i hi] ≤ key v[c] := by
  unfold child
  rcases hic with rfl | rfl
  · split_ifs with hsecond hle
    · exact hle
    · exact le_rfl
    · exact le_rfl
  · split_ifs with hle
    · exact le_rfl
    · exact (not_le.mp hle).le

theorem DownReady.finish {i : ℕ} (h : DownReady key v m i)
    (hstop : ∀ c (hi : i < n) (hc : c < n), IsChild i c → c < m → key v[i] ≤ key v[c]) :
    Ordered key v m := by
  intro p c hp hc hpc hcm
  by_cases hpi : p = i
  · subst hpi
    exact hstop c hp hc hpc hcm
  · exact h.except p c hp hc hpc hcm hpi

theorem DownReady.move {i j : ℕ} (h : DownReady key v m i) (hi : i < n) (hj : j < n) (hjm : j < m)
    (hij : IsChild i j) (hlt : key v[j] < key v[i])
    (hmin : ∀ c (hc : c < n), IsChild i c → c < m → key v[j] ≤ key v[c]) :
    DownReady key (v.swap i j hi hj) m j := by
  have hne : j ≠ i := by unfold IsChild at hij; omega
  constructor
  · intro p c hp hc hpc hcm hpj
    rw [Vector.getElem_swap, Vector.getElem_swap]
    by_cases hpi : p = i
    · subst hpi
      have hci : c ≠ p := by unfold IsChild at hpc; omega
      rw [if_pos rfl, if_neg hci]
      by_cases hcj : c = j
      · rw [if_pos hcj]
        exact hlt.le
      · rw [if_neg hcj]
        exact hmin c hc hpc hcm
    · have hcj : c ≠ j := by unfold IsChild at hpc hij; omega
      rw [if_neg hpi, if_neg hpj]
      by_cases hci : c = i
      · subst hci
        rw [if_pos rfl]
        exact h.grand p j hp hj hpc hij hjm
      · rw [if_neg hci, if_neg hcj]
        exact h.except p c hp hc hpc hcm hpi
  · intro p c hp hc hpj hjc hcm
    obtain rfl : p = i := by unfold IsChild at hpj hij; omega
    have hcp : c ≠ p := by unfold IsChild at hjc hij; omega
    have hcj : c ≠ j := by unfold IsChild at hjc; omega
    rw [Vector.getElem_swap, Vector.getElem_swap, if_pos rfl, if_neg hcp, if_neg hcj]
    exact h.except j c hj hc hjc hcm hne

theorem down_ordered (hm : m ≤ n) {fuel i : ℕ} (hfuel : m ≤ fuel + i) (hi : i < n)
    (h : DownReady key v m i) : Ordered key (down key m hm fuel v i hi) m := by
  induction fuel generalizing v i with
  | zero =>
    refine h.finish fun c hi hc hic hcm => ?_
    unfold IsChild at hic
    omega
  | succ fuel ih =>
    rw [down]
    split_ifs with hchild hlt
    · obtain ⟨hij, hjm⟩ := @isChild_child _ _ _ _ _ key v hm _ hchild
      refine ih ?_ _ (h.move hi _ hjm hij hlt fun c hc hic hcm =>
        child_le hm hchild hc hcm hic)
      unfold IsChild at hij
      omega
    · exact h.finish fun c _ hc hic hcm =>
        (not_lt.mp hlt).trans (child_le hm hchild hc hcm hic)
    · refine h.finish fun c _ hc hic hcm => ?_
      unfold IsChild at hic
      omega

end Order

section Contents

variable {key : α → K} {v : Vector α n}

theorem up_perm (fuel j : ℕ) (hj : j < n) : (up key fuel v j hj).Perm v := by
  induction fuel generalizing v j with
  | zero => exact .refl _
  | succ fuel ih =>
    rw [up]
    split_ifs
    · exact .refl _
    · exact (ih _ _).trans (Vector.swap_perm _ _)

theorem down_perm (hm : m ≤ n) (fuel i : ℕ) (hi : i < n) : (down key m hm fuel v i hi).Perm v := by
  induction fuel generalizing v i with
  | zero => exact .refl _
  | succ fuel ih =>
    rw [down]
    split_ifs
    · exact (ih _ _).trans (Vector.swap_perm _ _)
    · exact .refl _
    · exact .refl _

theorem up_root (hn : 0 < n) (fuel : ℕ) {j : ℕ} (hj : j < n) (hle : key v[0] ≤ key v[j]) :
    (up key fuel v j hj)[0] = v[0] := by
  induction fuel generalizing v j with
  | zero => rfl
  | succ fuel ih =>
    rw [up]
    split_ifs with hstop
    · rfl
    · push Not at hstop
      have hpos : 0 ≠ (j - 1) / 2 := by
        intro hzero
        have hlt := hstop.2
        simp only [← hzero] at hlt
        exact absurd hle (not_le.mpr hlt)
      have hzero : (v.swap ((j - 1) / 2) j (by omega) hj)[0] = v[0] := by
        rw [Vector.getElem_swap, if_neg hpos, if_neg (by omega)]
      have hmoved : (v.swap ((j - 1) / 2) j (by omega) hj)[(j - 1) / 2] = v[j] := by
        rw [Vector.getElem_swap, if_pos rfl]
      rw [ih (by omega) (by rw [hzero, hmoved]; exact hle), hzero]

theorem down_getElem_of_le (hm : m ≤ n) (fuel : ℕ) {i k : ℕ} (hi : i < n) (hk : k < n)
    (hmk : m ≤ k) : (down key m hm fuel v i hi)[k] = v[k] := by
  induction fuel generalizing v i with
  | zero => rfl
  | succ fuel ih =>
    rw [down]
    split_ifs with hchild hlt
    · obtain ⟨-, hjm⟩ := @isChild_child _ _ _ _ _ key v hm _ hchild
      rw [ih, Vector.getElem_swap, if_neg (by omega), if_neg (by omega)]
    · rfl
    · rfl

end Contents

section Heaps

variable {key : α → K} {h : Array α}

def IsHeap (key : α → K) (h : Array α) : Prop :=
  ∀ p c (hp : p < h.size) (hc : c < h.size), IsChild p c → key h[p] ≤ key h[c]

theorem isHeap_toArray {v : Vector α n} (hv : Ordered key v n) : IsHeap key v.toArray := by
  intro p c hp hc hpc
  rw [Vector.getElem_toArray, Vector.getElem_toArray]
  exact hv p c _ _ hpc (by simpa using hc)

theorem IsHeap.root_le (hh : IsHeap key h) (hne : 0 < h.size) {x : α} (hx : x ∈ h) :
    key h[0] ≤ key x := by
  obtain ⟨k, hk, rfl⟩ := Array.mem_iff_getElem.mp hx
  have hv : Ordered key h.toVector h.size := fun p c hp hc hpc _ => hh p c hp hc hpc
  exact hv.root_le hne le_rfl hk

/-- A push adds the element. -/
theorem push_perm (h : Array α) (x : α) : (push key h x).toList.Perm (h.toList ++ [x]) := by
  have hperm := Vector.perm_iff_toList_perm.mp
    (@up_perm _ _ _ _ key (h.toVector.push x) (h.size + 1) h.size (by omega))
  have hpush : (h.toVector.push x).toList = h.toList ++ [x] := by simp
  rw [hpush] at hperm
  exact hperm

theorem push_isHeap (hh : IsHeap key h) (x : α) : IsHeap key (push key h x) := by
  refine isHeap_toArray (up_ordered (by omega) _ ⟨?_, ?_⟩)
  · intro p c hp hc hpc hne
    have hc' : c < h.size := by omega
    have hp' : p < h.size := by unfold IsChild at hpc; omega
    rw [Vector.getElem_push_lt hc', Vector.getElem_push_lt hp']
    exact hh p c hp' hc' hpc
  · intro p c hp hc _ hjc
    unfold IsChild at hjc
    omega

/-- A push keeps the root if the new element is not smaller. -/
theorem push_root (hne : 0 < h.size) {x : α} (hle : key h[0] ≤ key x) :
    (push key h x)[0]? = some h[0] := by
  have hzero : (h.toVector.push x)[0] = h[0] := by
    rw [Vector.getElem_push_lt hne]
    rfl
  have hlast : (h.toVector.push x)[h.size] = x := Vector.getElem_push_eq
  have hroot : (up key (h.size + 1) (h.toVector.push x) h.size (Nat.lt_succ_self h.size))[0] =
      (h.toVector.push x)[0] :=
    up_root (Nat.succ_pos h.size) _ _ (by rw [hzero, hlast]; exact hle)
  rw [hzero] at hroot
  rw [push, Vector.getElem?_toArray, Vector.getElem?_eq_getElem (Nat.succ_pos h.size), hroot]

theorem down_swap_last (hne : 0 < h.size) (hlast : h.size - 1 < h.size) :
    (down key (h.size - 1) hlast.le h.size
      (h.toVector.swap 0 (h.size - 1) hne hlast) 0 hne)[h.size - 1] = h[0] := by
  rw [down_getElem_of_le hlast.le _ hne hlast le_rfl, Vector.getElem_swap]
  split_ifs with hzero
  · simp [hzero]
  · rfl
  · exact absurd rfl ‹_›

/-- A pop takes the root away. -/
theorem pop_perm (hne : 0 < h.size) : (h[0] :: (pop key h hne).toList).Perm h.toList := by
  have hlast : h.size - 1 < h.size := by omega
  have hroot := @down_swap_last _ _ _ key h hne hlast
  rw [pop]
  generalize hw : down key (h.size - 1) hlast.le h.size
    (h.toVector.swap 0 (h.size - 1) hne hlast) 0 hne = w at hroot
  have hperm : w.toList.Perm h.toList := by
    rw [← hw]
    exact Vector.perm_iff_toList_perm.mp ((down_perm _ _ _ _).trans (Vector.swap_perm hne hlast))
  have hne' : w.toList ≠ [] := by
    rw [← List.length_pos_iff]
    simpa using hne
  have hsplit : w.toList = w.pop.toList ++ [h[0]] := by
    rw [← List.dropLast_concat_getLast hne', ← hroot]
    congr 2
    simp [List.getLast_eq_getElem]
  rw [hsplit] at hperm
  exact (List.perm_append_singleton _ _).symm.trans hperm

theorem pop_isHeap (hh : IsHeap key h) (hne : 0 < h.size) : IsHeap key (pop key h hne) := by
  have hlast : h.size - 1 < h.size := by omega
  have hready : DownReady key (h.toVector.swap 0 (h.size - 1) hne hlast) (h.size - 1) 0 := by
    constructor
    · intro p c hp hc hpc hcm hp0
      have hc0 : c ≠ 0 := by unfold IsChild at hpc; omega
      have hpl : p ≠ h.size - 1 := by unfold IsChild at hpc; omega
      rw [Vector.getElem_swap, Vector.getElem_swap, if_neg hp0, if_neg hpl, if_neg hc0,
        if_neg (by omega)]
      exact hh p c hp hc hpc
    · intro p c hp hc hp0
      unfold IsChild at hp0
      omega
  have hordered := down_ordered hlast.le (Nat.le_add_right_of_le hlast.le) hne hready
  refine isHeap_toArray fun p c hp hc hpc hcm => ?_
  rw [Vector.getElem_pop, Vector.getElem_pop]
  exact hordered p c (by omega) (by omega) hpc hc

end Heaps

end BinaryHeap
end HeypAgents
