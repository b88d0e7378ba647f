import Mathlib.Data.Int.Range
import Mathlib.Tactic.Ring

/-!
# Counting loops

`forLoop body i stop` runs the body for `i`, `i + 1`, and so on, as long as the counter
is below `stop`.  An iteration may fail, and then the loop fails.

A loop is compared with another one whose counter it advances by a block in each
iteration: two nested loops with the single loop over all the places that they visit.
-/

namespace HeypAgents
namespace CountingLoop

variable {ε α β : Type}

/-- The given number of iterations. -/
def iterations (body : ℤ → α → Except ε α) : ℕ → ℤ → α → Except ε α
  | 0, _, a => .ok a
  | n + 1, i, a => (body i a).bind (iterations body n (i + 1))

/-- `for (; i < stop; ++i) a = body i a`. -/
def forLoop (body : ℤ → α → Except ε α) (i stop : ℤ) (a : α) : Except ε α :=
  iterations body (stop - i).toNat i a

section Rules

variable {body : ℤ → α → Except ε α} {i j stop : ℤ} {a : α}

theorem forLoop_of_le (h : stop ≤ i) : forLoop body i stop a = .ok a := by
  rw [forLoop, Int.toNat_of_nonpos (by omega)]
  rfl

theorem forLoop_of_lt (h : i < stop) :
    forLoop body i stop a = (body i a).bind (forLoop body (i + 1) stop) := by
  have hn : (stop - i).toNat = (stop - (i + 1)).toNat + 1 := by omega
  rw [forLoop, hn]
  rfl

theorem forLoop_succ (h : stop = i + 1) : forLoop body i stop a = body i a := by
  subst h
  rw [forLoop_of_lt (by omega)]
  cases body i a with
  | error e => rfl
  | ok b => exact forLoop_of_le (le_refl _)

theorem forLoop_append (hij : i ≤ j) (hjs : j ≤ stop) :
    forLoop body i stop a = (forLoop body i j a).bind (forLoop body j stop) := by
  obtain ⟨n, rfl⟩ := Int.le.dest hij
  clear hij
  induction n generalizing i a with
  | zero =>
    have hzero : i + ((0 : ℕ) : ℤ) = i := by omega
    have hnone : forLoop body i i a = .ok a := forLoop_of_le (le_refl i)
    rw [hzero, hnone]
    rfl
  | succ n ih =>
    have hshift : i + ((n + 1 : ℕ) : ℤ) = i + 1 + (n : ℕ) := by omega
    rw [hshift] at hjs ⊢
    have hlt : i < i + 1 + (n : ℕ) := by omega
    rw [forLoop_of_lt (by omega), forLoop_of_lt hlt]
    cases body i a with
    | error e => rfl
    | ok b => exact ih hjs

theorem forLoop_eq_foldlM (body : ℤ → α → Except ε α) (i stop : ℤ) (a : α) :
    forLoop body i stop a = (Int.range i stop).foldlM (fun a i => body i a) a := by
  rw [forLoop, Int.range]
  generalize (stop - i).toNat = n
  induction n generalizing i a with
  | zero => rfl
  | succ n ih =>
    rw [iterations, List.range_succ_eq_map, List.map_cons, List.foldlM_cons, List.map_map,
      Int.natCast_zero, add_zero]
    congr 1
    funext b
    rw [ih (i + 1) b]
    congr 1
    refine List.map_congr_left fun k _ => ?_
    simp only [Function.comp_apply]
    omega

end Rules

section Blocks

variable {body : ℤ → α → Except ε α} {body' : ℤ → β → Except ε β} {lo hi : ℤ}

/--
Two loops return related results when every iteration `i` of the first one does what the
second one does from `pos i` to `pos (i + 1)`.
-/
theorem exists_forLoop_blocks (R : ℤ → α → β → Prop) (pos : ℤ → ℤ)
    (hpos : ∀ i, lo ≤ i → i < hi → pos i ≤ pos (i + 1))
    (hstep : ∀ i a b, lo ≤ i → i < hi → R i a b →
      ∃ a' b', body i a = .ok a' ∧ forLoop body' (pos i) (pos (i + 1)) b = .ok b' ∧ R (i + 1) a' b')
    (hle : lo ≤ hi) {a : α} {b : β} (h : R lo a b) :
    pos lo ≤ pos hi ∧ ∃ a' b', forLoop body lo hi a = .ok a' ∧
      forLoop body' (pos lo) (pos hi) b = .ok b' ∧ R hi a' b' := by
  obtain ⟨n, rfl⟩ := Int.le.dest hle
  clear hle
  induction n with
  | zero =>
    have hzero : lo + ((0 : ℕ) : ℤ) = lo := by omega
    rw [hzero]
    exact ⟨le_refl _, a, b, forLoop_of_le (le_refl _), forLoop_of_le (le_refl _), h⟩
  | succ n ih =>
    obtain ⟨hmono, a₁, b₁, ha, hb, hrel⟩ :=
      ih (fun i hlo hhi => hpos i hlo (by omega)) fun i a b hlo hhi => hstep i a b hlo (by omega)
    have hlast := hpos (lo + n) (by omega) (by omega)
    obtain ⟨a₂, b₂, ha', hb', hrel'⟩ := hstep (lo + n) a₁ b₁ (by omega) (by omega) hrel
    have hsucc : lo + ((n + 1 : ℕ) : ℤ) = lo + n + 1 := by omega
    rw [hsucc]
    refine ⟨hmono.trans hlast, a₂, b₂, ?_, ?_, hrel'⟩
    · rw [forLoop_append (j := lo + n) (by omega) (by omega), ha]
      exact (forLoop_succ rfl).trans ha'
    · rw [forLoop_append hmono hlast, hb]
      exact hb'

end Blocks

end CountingLoop
end HeypAgents
