import Mathlib.Algebra.Order.BigOperators.Group.List
import Mathlib.Algebra.BigOperators.Ring.List
import Mathlib.Tactic.Linarith
import Mathlib.Tactic.Ring

/-!
# Water filling

The max-min fair level of a capacity shared by integer demands: raise a common
level as long as what the demands take up to it fits.  The rules say how an
algorithm may settle demands that fit below the level, and when the level that it
stops at is the fair one.
-/

namespace HeypAgents
namespace WaterFilling

/-- What the demands take when each gets at most `x`. -/
def served (D : List ℤ) (x : ℤ) : ℤ := (D.map fun d => min d x).sum

@[simp] theorem served_nil (x : ℤ) : served [] x = 0 := rfl

@[simp] theorem served_cons (d : ℤ) (D : List ℤ) (x : ℤ) :
    served (d :: D) x = min d x + served D x := by
  simp [served]

@[simp] theorem served_append (D E : List ℤ) (x : ℤ) :
    served (D ++ E) x = served D x + served E x := by
  simp [served]

theorem served_perm {D E : List ℤ} (h : D.Perm E) (x : ℤ) : served D x = served E x :=
  (h.map _).sum_eq

theorem served_mono (D : List ℤ) {x y : ℤ} (h : x ≤ y) : served D x ≤ served D y :=
  List.sum_le_sum fun d _ => min_le_min_left d h

theorem served_le_sum (D : List ℤ) (x : ℤ) : served D x ≤ D.sum := by
  induction D with
  | nil => simp
  | cons d D ih =>
    rw [served_cons, List.sum_cons]
    exact add_le_add (min_le_left d x) ih

theorem served_le_length_mul (D : List ℤ) (x : ℤ) : served D x ≤ D.length * x := by
  induction D with
  | nil => simp
  | cons d D ih =>
    have := min_le_right d x
    rw [served_cons, List.length_cons]
    push_cast
    linarith

theorem served_of_le {D : List ℤ} {x : ℤ} (h : ∀ d ∈ D, d ≤ x) : served D x = D.sum := by
  induction D with
  | nil => rfl
  | cons d D ih =>
    rw [served_cons, List.sum_cons, min_eq_left (h d (by simp)),
      ih fun e he => h e (List.mem_cons_of_mem d he)]

theorem served_of_ge {D : List ℤ} {x : ℤ} (h : ∀ d ∈ D, x ≤ d) : served D x = D.length * x := by
  induction D with
  | nil => simp
  | cons d D ih =>
    rw [served_cons, List.length_cons, min_eq_right (h d (by simp)),
      ih fun e he => h e (List.mem_cons_of_mem d he)]
    push_cast
    ring

theorem served_add_le (D : List ℤ) (x : ℤ) {b : ℤ} (hb : 0 ≤ b) :
    served D (x + b) ≤ served D x + D.length * b := by
  induction D with
  | nil => simp
  | cons d D ih =>
    have : min d (x + b) ≤ min d x + b := by omega
    rw [served_cons, served_cons, List.length_cons]
    push_cast
    linarith

/-- The largest demand, and 0 without demands. -/
def peak (D : List ℤ) : ℤ := D.foldr max 0

theorem le_peak {D : List ℤ} {d : ℤ} (h : d ∈ D) : d ≤ peak D := by
  induction D with
  | nil => simp at h
  | cons e D ih =>
    rcases List.mem_cons.mp h with rfl | h
    · exact le_max_left _ _
    · exact (ih h).trans (le_max_right _ _)

theorem peak_le {D : List ℤ} {x : ℤ} (hx : 0 ≤ x) (h : ∀ d ∈ D, d ≤ x) : peak D ≤ x := by
  induction D with
  | nil => exact hx
  | cons e D ih =>
    exact max_le (h e (by simp)) (ih fun d hd => h d (List.mem_cons_of_mem e hd))

theorem peak_nonneg (D : List ℤ) : 0 ≤ peak D := by
  induction D with
  | nil => exact le_rfl
  | cons d D ih => exact ih.trans (le_max_right d _)

theorem peak_mem (D : List ℤ) : peak D = 0 ∨ peak D ∈ D := by
  induction D with
  | nil => exact .inl rfl
  | cons d D ih =>
    have hcons : peak (d :: D) = max d (peak D) := rfl
    rcases max_choice d (peak D) with hmax | hmax
    · exact .inr (by rw [hcons, hmax]; exact List.mem_cons_self)
    · rw [hcons, hmax]
      exact ih.imp_right (List.mem_cons_of_mem d)

/-- The max-min fair level of the demands. -/
structure IsWaterlevel (capacity : ℤ) (D : List ℤ) (w : ℤ) : Prop where
  feasible : served D w ≤ capacity
  satisfied : D.sum ≤ capacity → w = peak D
  tight : capacity < D.sum → capacity < served D (w + 1)

theorem IsWaterlevel.unique {capacity v w : ℤ} {D : List ℤ}
    (hv : IsWaterlevel capacity D v) (hw : IsWaterlevel capacity D w) : v = w := by
  rcases le_or_gt D.sum capacity with hfit | hover
  · rw [hv.satisfied hfit, hw.satisfied hfit]
  · have hvw : ¬ v < w := fun h => by
      have := served_mono D (show v + 1 ≤ w by omega)
      linarith [hv.tight hover, hw.feasible]
    have hwv : ¬ w < v := fun h => by
      have := served_mono D (show w + 1 ≤ v by omega)
      linarith [hw.tight hover, hv.feasible]
    omega

/--
The books of a filling, for whatever demands have been settled: they are paid in
full, and the pending ones have been paid `level` each.
-/
structure Accounts (capacity : ℤ) (settled pending : List ℤ) (level residual : ℤ) : Prop where
  balance : settled.sum + pending.length * level + residual = capacity
  residual_nonneg : 0 ≤ residual

section Books

variable {capacity level residual : ℤ} {settled pending : List ℤ}

theorem Accounts.settle (h : Accounts capacity settled pending level residual)
    {A B : List ℤ} {x : ℤ} (hAB : (A ++ B).Perm pending)
    (hask : A.sum - A.length * level + (x - level) * B.length ≤ residual) :
    Accounts capacity (settled ++ A) B x
      (residual - (A.sum - A.length * level + (x - level) * B.length)) := by
  have hlen : (pending.length : ℤ) = A.length + B.length := by
    rw [← hAB.length_eq]
    simp
  have hbalance := h.balance
  rw [hlen] at hbalance
  refine ⟨?_, sub_nonneg.mpr hask⟩
  rw [List.sum_append]
  linarith

theorem Accounts.divide (h : Accounts capacity settled pending level residual) :
    settled.sum + pending.length * (level + residual / pending.length) ≤ capacity := by
  have hdiv : (pending.length : ℤ) * (residual / pending.length) ≤ residual := by
    rcases eq_or_ne (pending.length : ℤ) 0 with hzero | hne
    · rw [hzero, zero_mul]
      exact h.residual_nonneg
    · exact Int.mul_ediv_self_le hne
  linarith [h.balance]

theorem served_le_settled_add (settled pending : List ℤ) (x : ℤ) :
    served (settled ++ pending) x ≤ settled.sum + pending.length * x := by
  rw [served_append]
  exact add_le_add (served_le_sum settled x) (served_le_length_mul pending x)

end Books

/--
A filling in progress: the settled demands are served in full, the pending ones
have got `level` so far, and `residual` is left to raise the level.
-/
structure Filling (capacity : ℤ) (D settled pending : List ℤ) (level residual : ℤ) : Prop where
  perm : (settled ++ pending).Perm D
  settled_le : ∀ d ∈ settled, d ≤ level
  le_pending : ∀ d ∈ pending, level ≤ d
  level_mem : (settled = [] ∧ level = 0) ∨ level ∈ settled
  level_nonneg : 0 ≤ level
  accounted : settled.sum + pending.length * level + residual = capacity
  residual_nonneg : 0 ≤ residual

section Rules

variable {capacity level residual : ℤ} {D settled pending : List ℤ}

theorem Filling.accounts (h : Filling capacity D settled pending level residual) :
    Accounts capacity settled pending level residual :=
  ⟨h.accounted, h.residual_nonneg⟩

theorem Filling.accounts_pending (h : Filling capacity D settled pending level residual) :
    Accounts (capacity - settled.sum) [] pending level residual := by
  refine ⟨?_, h.residual_nonneg⟩
  rw [List.sum_nil]
  linarith [h.accounted]

theorem Filling.reorder (h : Filling capacity D settled pending level residual)
    {A : List ℤ} (hA : A.Perm pending) :
    Filling capacity D settled A level residual where
  perm := (hA.append_left settled).trans h.perm
  settled_le := h.settled_le
  le_pending := fun d hd => h.le_pending d (hA.mem_iff.mp hd)
  level_mem := h.level_mem
  level_nonneg := h.level_nonneg
  accounted := by
    rw [hA.length_eq]
    exact h.accounted
  residual_nonneg := h.residual_nonneg

theorem Filling.ask_le_iff (h : Filling capacity D settled pending level residual)
    {A B : List ℤ} {x : ℤ} (hAB : (A ++ B).Perm pending) (hx : x ∈ A)
    (hA : ∀ a ∈ A, a ≤ x) (hB : ∀ b ∈ B, x ≤ b) :
    A.sum - A.length * level + (x - level) * B.length ≤ residual ↔ served D x ≤ capacity := by
  have hlevel : level ≤ x := h.le_pending x (hAB.mem_iff.mp (List.mem_append_left B hx))
  have hlen : (pending.length : ℤ) = A.length + B.length := by
    rw [← hAB.length_eq]
    simp
  have hserved : served D x = settled.sum + (A.sum + B.length * x) := by
    rw [← served_perm h.perm, served_append, ← served_perm hAB, served_append,
      served_of_le (fun d hd => (h.settled_le d hd).trans hlevel), served_of_le hA,
      served_of_ge hB]
  have hacc := h.accounted
  rw [hlen] at hacc
  rw [hserved]
  constructor <;> intro hle <;> nlinarith

theorem Filling.settle (h : Filling capacity D settled pending level residual)
    {A B : List ℤ} {x : ℤ} (hAB : (A ++ B).Perm pending) (hx : x ∈ A)
    (hA : ∀ a ∈ A, a ≤ x) (hB : ∀ b ∈ B, x ≤ b)
    (hask : A.sum - A.length * level + (x - level) * B.length ≤ residual) :
    Filling capacity D (settled ++ A) B x
      (residual - (A.sum - A.length * level + (x - level) * B.length)) := by
  have hlevel : level ≤ x := h.le_pending x (hAB.mem_iff.mp (List.mem_append_left B hx))
  refine ⟨?_, ?_, hB, .inr (List.mem_append_right _ hx), h.level_nonneg.trans hlevel, ?_, ?_⟩
  · rw [List.append_assoc]
    exact (hAB.append_left settled).trans h.perm
  · intro d hd
    rcases List.mem_append.mp hd with hd | hd
    · exact (h.settled_le d hd).trans hlevel
    · exact hA d hd
  · exact (h.accounts.settle hAB hask).balance
  · exact (h.accounts.settle hAB hask).residual_nonneg

theorem Filling.finish (h : Filling capacity D settled [] level residual) :
    IsWaterlevel capacity D level := by
  have hperm : settled.Perm D := by simpa using h.perm
  have hle : ∀ d ∈ D, d ≤ level := fun d hd => h.settled_le d (hperm.mem_iff.mpr hd)
  have hfit : D.sum ≤ capacity := by
    have hacc := h.accounted
    simp only [List.length_nil, Nat.cast_zero, zero_mul, add_zero] at hacc
    rw [← hperm.sum_eq]
    linarith [h.residual_nonneg]
  refine ⟨by rwa [served_of_le hle], fun _ => ?_, fun hover => absurd hover (by omega)⟩
  refine le_antisymm ?_ (peak_le h.level_nonneg hle)
  rcases h.level_mem with ⟨hnil, rfl⟩ | hmem
  · obtain rfl : D = [] := by simpa [hnil] using hperm.symm
    rfl
  · exact le_peak (hperm.mem_iff.mp hmem)

theorem Filling.stuck (h : Filling capacity D settled pending level residual) (hne : pending ≠ [])
    (hover : ∀ d ∈ pending, capacity < served D d) :
    IsWaterlevel capacity D (level + residual / pending.length) := by
  have hpos : (0 : ℤ) < pending.length := by
    exact_mod_cast List.length_pos_iff.mpr hne
  have hmod : residual < pending.length * (residual / pending.length) + pending.length :=
    Int.lt_mul_ediv_self_add hpos
  have hdiv_nonneg : 0 ≤ residual / pending.length := Int.ediv_nonneg h.residual_nonneg hpos.le
  have hacc := h.accounted
  have hbound : ∀ x, served D x ≤ settled.sum + pending.length * x := by
    intro x
    rw [← served_perm h.perm]
    exact served_le_settled_add settled pending x
  have hroom : ∀ d ∈ pending, level + residual / pending.length + 1 ≤ d := by
    intro d hd
    have hd' := (hover d hd).trans_le (hbound d)
    have hlt : residual / pending.length < d - level := by
      refine (Int.ediv_lt_iff_lt_mul hpos).mpr ?_
      linarith
    omega
  refine ⟨?_, ?_, ?_⟩
  · exact (hbound _).trans h.accounts.divide
  · intro hfit
    obtain ⟨d, hd⟩ := List.exists_mem_of_ne_nil pending hne
    have := (hover d hd).trans_le (served_le_sum D d)
    omega
  · intro _
    rw [← served_perm h.perm, served_append, served_of_ge hroom,
      served_of_le fun d hd => (h.settled_le d hd).trans (by omega)]
    linarith

end Rules

end WaterFilling
end HeypAgents
