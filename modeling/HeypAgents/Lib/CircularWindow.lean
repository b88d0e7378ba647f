import Mathlib.Data.Int.CardIntervalMod
import Mathlib.Tactic

/-!
# Windows on a ring of positions

A ring has `n` positions.  A window is a run of `k ≤ n` consecutive positions
beginning at some `s < n` and wrapping past the last position.

The second half of the file is the queue behind such a window: two counters
`head ≤ tail ≤ head + n` that only ever move forward, so that the window holds
the absolute positions `head, ..., tail - 1` reduced modulo `n`.  Growing moves
the tail and shrinking moves the head.  Since both counters sweep the ring in
order, the number of times that a position has been swept is the same for all
positions up to one.
-/

namespace HeypAgents
namespace CircularWindow

/-- Distance from `s` forward to `x` on a ring of `n` positions. -/
def offset (n s x : ℕ) : ℕ := (x + (n - s)) % n

/-- The position `x` lies in the window of `k` positions beginning at `s`. -/
def InWindow (n s k x : ℕ) : Prop := offset n s x < k
deriving Decidable

section Windows

variable {n s x : ℕ}

theorem offset_eq (hs : s < n) (hx : x < n) :
    offset n s x = if s ≤ x then x - s else x + n - s := by
  unfold offset
  split_ifs with h
  · have hsplit : x + (n - s) = x - s + n := by omega
    rw [hsplit, Nat.add_mod_right, Nat.mod_eq_of_lt (by omega)]
  · have hsplit : x + (n - s) = x + n - s := by omega
    rw [hsplit, Nat.mod_eq_of_lt (by omega)]

theorem inWindow_iff (hs : s < n) (hx : x < n) (k : ℕ) :
    InWindow n s k x ↔ (s ≤ x ∧ x < s + k) ∨ (x < s ∧ x + n < s + k) := by
  unfold InWindow
  rw [offset_eq hs hx]
  split_ifs <;> omega

@[simp] theorem not_inWindow_zero : ¬ InWindow n s 0 x := by
  simp [InWindow]

theorem add_mod_eq (hs : s < n) {j : ℕ} (hj : j ≤ n) :
    (s + j) % n = if s + j < n then s + j else s + j - n := by
  split_ifs with h
  · exact Nat.mod_eq_of_lt h
  · have hsplit : s + j = s + j - n + n := by omega
    rw [hsplit, Nat.add_mod_right, Nat.mod_eq_of_lt (by omega)]
    omega

theorem inWindow_add (hs : s < n) (hx : x < n) {j k : ℕ} (hjk : j + k ≤ n) :
    InWindow n s (j + k) x ↔ InWindow n s j x ∨ InWindow n ((s + j) % n) k x := by
  have hs' : (s + j) % n < n := Nat.mod_lt _ (by omega)
  rw [inWindow_iff hs hx, inWindow_iff hs hx, inWindow_iff hs' hx, add_mod_eq hs (by omega)]
  split_ifs <;> omega

theorem inWindow_disjoint (hs : s < n) (hx : x < n) {j k : ℕ} (hjk : j + k ≤ n)
    (h : InWindow n s j x) : ¬ InWindow n ((s + j) % n) k x := by
  have hs' : (s + j) % n < n := Nat.mod_lt _ (by omega)
  rw [inWindow_iff hs hx] at h
  rw [inWindow_iff hs' hx, add_mod_eq hs (by omega)]
  split_ifs <;> omega

end Windows

/-- How often a counter that ran from `0` to `t` has passed the position `x`. -/
def visits (n t x : ℕ) : ℕ := Nat.count (fun j => j ≡ x [MOD n]) t

@[simp] theorem visits_zero (n x : ℕ) : visits n 0 x = 0 := by
  simp [visits]

section Visits

variable {n x : ℕ}

theorem visits_eq (hx : x < n) (t : ℕ) : visits n t x = t / n + if x < t % n then 1 else 0 := by
  unfold visits
  rw [Nat.count_modEq_card t (by omega : 0 < n) x, Nat.mod_eq_of_lt hx]

theorem visits_add (hx : x < n) (t : ℕ) {k : ℕ} (hk : k ≤ n) :
    visits n (t + k) x = visits n t x + if InWindow n (t % n) k x then 1 else 0 := by
  have hn : 0 < n := by omega
  have hr : t % n < n := Nat.mod_lt _ hn
  rw [visits_eq hx, visits_eq hx]
  have hdecomp : t + k = t % n + k + n * (t / n) := by
    have := Nat.mod_add_div t n
    omega
  have hdiv : (t + k) / n = (t % n + k) / n + t / n := by
    rw [hdecomp, Nat.add_mul_div_left _ _ hn]
  have hmod : (t + k) % n = (t % n + k) % n := by
    rw [hdecomp, Nat.add_mul_mod_self_left]
  rw [hdiv, hmod, add_mod_eq hr hk, if_congr (inWindow_iff hr hx k) rfl rfl]
  by_cases hwrap : t % n + k < n
  · rw [Nat.div_eq_of_lt hwrap]
    split_ifs <;> omega
  · have hone : (t % n + k) / n = 1 := Nat.div_eq_of_lt_le (by omega) (by omega)
    rw [hone]
    split_ifs <;> omega

theorem visits_le_succ {y : ℕ} (hx : x < n) (hy : y < n) (t : ℕ) :
    visits n t x ≤ visits n t y + 1 := by
  rw [visits_eq hx, visits_eq hy]
  split_ifs <;> omega

end Visits

structure WindowQueue (n : ℕ) where
  head : ℕ
  tail : ℕ
  head_le : head ≤ tail
  tail_le : tail ≤ head + n

namespace WindowQueue

variable {n : ℕ}

/-- The queue before its first operation. -/
def empty : WindowQueue n where
  head := 0
  tail := 0
  head_le := le_rfl
  tail_le := Nat.zero_le _

/-- Number of positions held. -/
def size (q : WindowQueue n) : ℕ := q.tail - q.head

/-- The position `x` is currently held. -/
def Holds (q : WindowQueue n) (x : ℕ) : Prop := InWindow n (q.head % n) q.size x

/-- Append the next `k` positions. -/
def grow (q : WindowQueue n) (k : ℕ) (hk : q.size + k ≤ n) : WindowQueue n where
  head := q.head
  tail := q.tail + k
  head_le := by
    have := q.head_le
    omega
  tail_le := by
    have := q.head_le
    unfold size at hk
    omega

/-- Drop the `k` oldest positions. -/
def shrink (q : WindowQueue n) (k : ℕ) (hk : k ≤ q.size) : WindowQueue n where
  head := q.head + k
  tail := q.tail
  head_le := by
    have := q.head_le
    unfold size at hk
    omega
  tail_le := by
    have := q.tail_le
    omega

@[simp] theorem size_grow (q : WindowQueue n) (k : ℕ) (hk : q.size + k ≤ n) :
    (q.grow k hk).size = q.size + k := by
  have := q.head_le
  simp only [grow, size]
  omega

@[simp] theorem size_shrink (q : WindowQueue n) (k : ℕ) (hk : k ≤ q.size) :
    (q.shrink k hk).size = q.size - k := by
  simp only [shrink, size]
  omega

theorem tail_mod (q : WindowQueue n) : q.tail % n = (q.head % n + q.size) % n := by
  have hsum : q.tail = q.head + q.size := by
    have := q.head_le
    unfold size
    omega
  rw [hsum, Nat.mod_add_mod]

end WindowQueue

end CircularWindow
end HeypAgents
