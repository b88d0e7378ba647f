import Mathlib.Algebra.Order.BigOperators.Group.List
import Mathlib.Algebra.BigOperators.Ring.List
import Mathlib.Algebra.Order.Field.Basic
import Mathlib.Tactic.Linarith
import Mathlib.Tactic.Ring
import Mathlib.Tactic.FieldSimp

/-!
# Weighted water filling

A capacity is shared by loads over an ordered field.  A load stands for as many equal
demands as its weight says, which need not be a whole number.  The fair level is the one
up to which the loads take the whole capacity, or the largest demand if the capacity
covers them all.

A filling raises the level step by step.  The rules say which loads it may settle, and
when the level that it stops at is the fair one.
-/

namespace HeypAgents
namespace WeightedFilling

variable {α K : Type*} [Field K] {demand weight : α → K} {L M : List α} {a : α}

section Sums

/-- The sum of the weights. -/
def total (weight : α → K) (L : List α) : K := (L.map weight).sum

/-- What the loads ask for. -/
def volume (demand weight : α → K) (L : List α) : K := (L.map fun a => weight a * demand a).sum

@[simp] theorem total_cons : total weight (a :: L) = weight a + total weight L := by
  simp [total]

@[simp] theorem total_append : total weight (L ++ M) = total weight L + total weight M := by
  simp [total]

theorem total_perm (h : L.Perm M) : total weight L = total weight M := (h.map _).sum_eq

@[simp] theorem volume_cons :
    volume demand weight (a :: L) = weight a * demand a + volume demand weight L := by
  simp [volume]

@[simp] theorem volume_append :
    volume demand weight (L ++ M) = volume demand weight L + volume demand weight M := by
  simp [volume]

theorem volume_perm (h : L.Perm M) : volume demand weight L = volume demand weight M :=
  (h.map _).sum_eq

/-- What it takes to settle the loads of `A` and to raise the level of `B` to `x`. -/
def ask (demand weight : α → K) (level : K) (A : List α) (x : K) (B : List α) : K :=
  volume demand weight A - total weight A * level + (x - level) * total weight B

variable [LinearOrder K]

/-- What the loads take when each of their demands gets at most `x`. -/
def served (demand weight : α → K) (L : List α) (x : K) : K :=
  (L.map fun a => weight a * min (demand a) x).sum

variable {x y : K}

@[simp] theorem served_append :
    served demand weight (L ++ M) x = served demand weight L x + served demand weight M x := by
  simp [served]

theorem served_perm (h : L.Perm M) : served demand weight L x = served demand weight M x :=
  (h.map _).sum_eq

theorem served_of_le (h : ∀ a ∈ L, demand a ≤ x) :
    served demand weight L x = volume demand weight L := by
  refine congrArg List.sum (List.map_congr_left fun a ha => ?_)
  rw [min_eq_left (h a ha)]

theorem served_of_ge (h : ∀ a ∈ L, x ≤ demand a) :
    served demand weight L x = total weight L * x := by
  rw [total, ← List.sum_map_mul_right]
  refine congrArg List.sum (List.map_congr_left fun a ha => ?_)
  rw [min_eq_right (h a ha)]

variable [IsStrictOrderedRing K]

theorem total_pos (hw : ∀ a ∈ L, 0 < weight a) (hne : L ≠ []) : 0 < total weight L :=
  List.sum_pos _ (by simpa using hw) (by simpa using hne)

theorem served_mono (hw : ∀ a ∈ L, 0 < weight a) (h : x ≤ y) :
    served demand weight L x ≤ served demand weight L y :=
  List.sum_le_sum fun a ha => mul_le_mul_of_nonneg_left (min_le_min_left _ h) (hw a ha).le

theorem served_le_volume (hw : ∀ a ∈ L, 0 < weight a) :
    served demand weight L x ≤ volume demand weight L :=
  List.sum_le_sum fun a ha => mul_le_mul_of_nonneg_left (min_le_left _ _) (hw a ha).le

theorem served_le_total_mul (hw : ∀ a ∈ L, 0 < weight a) :
    served demand weight L x ≤ total weight L * x := by
  rw [total, ← List.sum_map_mul_right]
  exact List.sum_le_sum fun a ha => mul_le_mul_of_nonneg_left (min_le_right _ _) (hw a ha).le

theorem served_lt_volume (hw : ∀ a ∈ L, 0 < weight a) (ha : a ∈ L) (hx : x < demand a) :
    served demand weight L x < volume demand weight L := by
  refine List.sum_lt_sum _ _ (fun b hb => ?_) ⟨a, ha, ?_⟩
  · exact mul_le_mul_of_nonneg_left (min_le_left _ _) (hw b hb).le
  · rw [min_eq_right hx.le]
    exact mul_lt_mul_of_pos_left hx (hw a ha)

theorem served_lt_served (hw : ∀ a ∈ L, 0 < weight a) (ha : a ∈ L) (hx : x < demand a)
    (hxy : x < y) : served demand weight L x < served demand weight L y := by
  refine List.sum_lt_sum _ _ (fun b hb => ?_) ⟨a, ha, ?_⟩
  · exact mul_le_mul_of_nonneg_left (min_le_min_left _ hxy.le) (hw b hb).le
  · rw [min_eq_right hx.le]
    exact mul_lt_mul_of_pos_left (lt_min hx hxy) (hw a ha)

theorem eq_of_served_eq (hw : ∀ a ∈ L, 0 < weight a)
    (heq : served demand weight L x = served demand weight L y)
    (hlt : served demand weight L x < volume demand weight L) : x = y := by
  have hnot : ∀ x' y', served demand weight L x' = served demand weight L y' →
      served demand weight L x' < volume demand weight L → ¬ x' < y' := by
    intro x' y' heq hlt hxy
    obtain ⟨a, ha, hx⟩ : ∃ a ∈ L, x' < demand a := by
      by_contra hall
      refine hlt.ne (served_of_le fun a ha => ?_)
      exact not_lt.mp fun hx => hall ⟨a, ha, hx⟩
    exact (served_lt_served hw ha hx hxy).ne heq
  rcases lt_trichotomy x y with h | h | h
  · exact absurd h (hnot x y heq hlt)
  · exact h
  · exact absurd h (hnot y x heq.symm (heq ▸ hlt))

end Sums

section Level

variable [LinearOrder K]

/-- The max-min fair level of the loads. -/
structure IsLevel (demand weight : α → K) (capacity : K) (L : List α) (w : K) : Prop where
  served_eq : served demand weight L w = min capacity (volume demand weight L)
  covered : volume demand weight L ≤ capacity →
    (∀ a ∈ L, demand a ≤ w) ∧ (L ≠ [] → ∃ a ∈ L, demand a = w)

variable [IsStrictOrderedRing K] {capacity capacity' w w' : K}

/-- Levels of two capacities are equal iff the loads can take the same of both. -/
theorem IsLevel.eq_iff (hw : ∀ a ∈ L, 0 < weight a) (hne : L ≠ [])
    (h : IsLevel demand weight capacity L w) (h' : IsLevel demand weight capacity' L w') :
    w = w' ↔ min capacity (volume demand weight L) = min capacity' (volume demand weight L) := by
  constructor
  · rintro rfl
    rw [← h.served_eq, h'.served_eq]
  · intro hmin
    rcases le_or_gt (volume demand weight L) capacity with hcov | hshort
    · have hcov' : volume demand weight L ≤ capacity' := by
        rw [min_eq_right hcov] at hmin
        exact min_eq_right_iff.mp hmin.symm
      obtain ⟨hle, hmax⟩ := h.covered hcov
      obtain ⟨hle', hmax'⟩ := h'.covered hcov'
      obtain ⟨a, ha, rfl⟩ := hmax hne
      obtain ⟨b, hb, rfl⟩ := hmax' hne
      exact le_antisymm (hle' a ha) (hle b hb)
    · refine eq_of_served_eq hw (h.served_eq.trans (hmin.trans h'.served_eq.symm)) ?_
      rw [h.served_eq, min_eq_left hshort.le]
      exact hshort

theorem IsLevel.unique (hw : ∀ a ∈ L, 0 < weight a) (hne : L ≠ [])
    (h : IsLevel demand weight capacity L w) (h' : IsLevel demand weight capacity L w') : w = w' :=
  (h.eq_iff hw hne h').mpr rfl

theorem IsLevel.eq_iff_of_lt (hw : ∀ a ∈ L, 0 < weight a)
    (h : IsLevel demand weight capacity L w) (ha : a ∈ L) (hlt : w' < demand a) :
    w' = w ↔ served demand weight L w' = capacity := by
  have hshort := served_lt_volume hw ha hlt
  constructor
  · rintro rfl
    have hserved := h.served_eq
    rw [min_def] at hserved
    split_ifs at hserved with hle
    · exact hserved
    · exact absurd hserved hshort.ne
  · rintro rfl
    refine eq_of_served_eq hw ?_ hshort
    rw [h.served_eq, min_eq_left hshort.le]

end Level

section Filling

variable [LinearOrder K]

/--
A filling in progress: the settled loads are served in full, the pending ones have got
`level` for each demand so far, and `residual` is left to raise the level.
-/
structure Filling (demand weight : α → K) (capacity : K) (D settled pending : List α)
    (level residual : K) : Prop where
  perm : (settled ++ pending).Perm D
  positive : ∀ a ∈ D, 0 < weight a
  settled_le : ∀ a ∈ settled, demand a ≤ level
  le_pending : ∀ a ∈ pending, level ≤ demand a
  level_mem : settled ≠ [] → ∃ a ∈ settled, demand a = level
  accounted : volume demand weight settled + total weight pending * level + residual = capacity
  residual_nonneg : 0 ≤ residual

variable {capacity level residual : K} {D settled pending A B : List α}

theorem Filling.pending_pos (h : Filling demand weight capacity D settled pending level residual) :
    ∀ a ∈ pending, 0 < weight a :=
  fun a ha => h.positive a (h.perm.mem_iff.mp (List.mem_append_right _ ha))

theorem Filling.settled_pos (h : Filling demand weight capacity D settled pending level residual) :
    ∀ a ∈ settled, 0 < weight a :=
  fun a ha => h.positive a (h.perm.mem_iff.mp (List.mem_append_left _ ha))

theorem Filling.start (hcapacity : 0 ≤ capacity) (hdemand : ∀ a ∈ D, 0 ≤ demand a)
    (hweight : ∀ a ∈ D, 0 < weight a) : Filling demand weight capacity D [] D 0 capacity where
  perm := .refl _
  positive := hweight
  settled_le := fun a ha => absurd ha List.not_mem_nil
  le_pending := hdemand
  level_mem := fun hne => absurd rfl hne
  accounted := by simp [volume]
  residual_nonneg := hcapacity

theorem Filling.reorder (h : Filling demand weight capacity D settled pending level residual)
    (hAB : A.Perm pending) : Filling demand weight capacity D settled A level residual where
  perm := (hAB.append_left settled).trans h.perm
  positive := h.positive
  settled_le := h.settled_le
  le_pending := fun a ha => h.le_pending a (hAB.mem_iff.mp ha)
  level_mem := h.level_mem
  accounted := by
    rw [total_perm hAB]
    exact h.accounted
  residual_nonneg := h.residual_nonneg

variable [IsStrictOrderedRing K]

namespace Filling

theorem ask_le_iff (h : Filling demand weight capacity D settled pending level residual)
    (hAB : (A ++ B).Perm pending) (ha : a ∈ A) (hA : ∀ b ∈ A, demand b ≤ demand a)
    (hB : ∀ b ∈ B, demand a ≤ demand b) :
    ask demand weight level A (demand a) B ≤ residual ↔
      served demand weight D (demand a) ≤ capacity := by
  have hlevel : level ≤ demand a := h.le_pending a (hAB.mem_iff.mp (List.mem_append_left B ha))
  have hserved : served demand weight D (demand a) =
      volume demand weight settled + (volume demand weight A + total weight B * demand a) := by
    rw [← served_perm h.perm, served_append, ← served_perm hAB, served_append,
      served_of_le (fun b hb => (h.settled_le b hb).trans hlevel), served_of_le hA,
      served_of_ge hB]
  have hacc := h.accounted
  rw [← total_perm hAB, total_append] at hacc
  rw [hserved, ask]
  constructor <;> intro hle <;> linarith

theorem settle (h : Filling demand weight capacity D settled pending level residual)
    (hAB : (A ++ B).Perm pending) (ha : a ∈ A) (hA : ∀ b ∈ A, demand b ≤ demand a)
    (hB : ∀ b ∈ B, demand a ≤ demand b) (hask : ask demand weight level A (demand a) B ≤ residual) :
    Filling demand weight capacity D (settled ++ A) B (demand a)
      (residual - ask demand weight level A (demand a) B) := by
  have hlevel : level ≤ demand a := h.le_pending a (hAB.mem_iff.mp (List.mem_append_left B ha))
  refine ⟨?_, h.positive, ?_, hB, fun _ => ⟨a, List.mem_append_right _ ha, rfl⟩, ?_,
    sub_nonneg.mpr hask⟩
  · rw [List.append_assoc]
    exact (hAB.append_left settled).trans h.perm
  · intro b hb
    rcases List.mem_append.mp hb with hb | hb
    · exact (h.settled_le b hb).trans hlevel
    · exact hA b hb
  · have hacc := h.accounted
    rw [← total_perm hAB, total_append] at hacc
    rw [volume_append, ask]
    linarith

theorem finish (h : Filling demand weight capacity D settled [] level residual) :
    IsLevel demand weight capacity D level := by
  have hperm : settled.Perm D := by simpa using h.perm
  have hle : ∀ a ∈ D, demand a ≤ level := fun a ha => h.settled_le a (hperm.mem_iff.mpr ha)
  have hacc := h.accounted
  have hnone : total weight ([] : List α) = 0 := rfl
  rw [hnone, zero_mul, add_zero, volume_perm hperm] at hacc
  refine ⟨?_, fun _ => ⟨hle, fun hne => ?_⟩⟩
  · rw [served_of_le hle, min_eq_right (by linarith [h.residual_nonneg])]
  · obtain ⟨a, ha, hlevel⟩ := h.level_mem fun hnil => hne (by simpa [hnil] using hperm.symm)
    exact ⟨a, hperm.mem_iff.mp ha, hlevel⟩

theorem stuck (h : Filling demand weight capacity D settled pending level residual)
    (hne : pending ≠ []) (hshort : ∀ a ∈ pending, capacity < served demand weight D (demand a)) :
    IsLevel demand weight capacity D (level + residual / total weight pending) := by
  have hpos := total_pos h.pending_pos hne
  have hacc := h.accounted
  have hdiv : total weight pending * (residual / total weight pending) = residual :=
    mul_div_cancel₀ residual hpos.ne'
  have hraised : level ≤ level + residual / total weight pending :=
    le_add_of_nonneg_right (div_nonneg h.residual_nonneg hpos.le)
  have hroom : ∀ a ∈ pending, level + residual / total weight pending ≤ demand a := by
    intro a ha
    have hserved := hshort a ha
    rw [← served_perm h.perm, served_append] at hserved
    have hle := @served_le_volume _ _ _ demand weight settled _ (demand a) _ h.settled_pos
    have hle' := @served_le_total_mul _ _ _ demand weight pending _ (demand a) _ h.pending_pos
    have hlt : residual / total weight pending < demand a - level := by
      rw [div_lt_iff₀ hpos]
      linarith
    linarith
  obtain ⟨a, ha⟩ := List.exists_mem_of_ne_nil pending hne
  have hover := (hshort a ha).trans_le (served_le_volume h.positive)
  refine ⟨?_, fun hcov => absurd hcov (not_le.mpr hover)⟩
  rw [min_eq_left hover.le, ← served_perm h.perm, served_append, served_of_ge hroom,
    served_of_le fun b hb => (h.settled_le b hb).trans hraised, mul_add, hdiv]
  linarith

omit [IsStrictOrderedRing K] in
variable (demand weight) in
def fill (residual level : K) : List α → K
  | [] => level
  | a :: rest =>
    if (demand a - level) * total weight (a :: rest) ≤ residual then
      fill (residual - (demand a - level) * total weight (a :: rest)) (demand a) rest
    else level + residual / total weight (a :: rest)

/-- Settling loads in order as long as they fit ends with the fair level. -/
theorem fill_isLevel (h : Filling demand weight capacity D settled pending level residual)
    (hsorted : pending.Pairwise fun a b => demand a ≤ demand b) :
    IsLevel demand weight capacity D (fill demand weight residual level pending) := by
  induction pending generalizing settled level residual with
  | nil => exact h.finish
  | cons d rest ih =>
    obtain ⟨hle, hrest⟩ := List.pairwise_cons.mp hsorted
    have hask : (demand d - level) * total weight (d :: rest) =
        ask demand weight level [d] (demand d) rest := by
      simp only [ask, total, volume, List.map_cons, List.map_nil, List.sum_cons, List.sum_nil]
      ring
    have hiff := h.ask_le_iff (A := [d]) (.refl _) (by simp) (by simp) hle
    rw [fill, hask]
    split_ifs with hfits
    · exact ih (h.settle (A := [d]) (.refl _) (by simp) (by simp) hle hfits) hrest
    · refine h.stuck (by simp) fun p hp => ?_
      have hover := lt_of_not_ge (mt hiff.mpr hfits)
      rcases List.mem_cons.mp hp with rfl | hp
      · exact hover
      · exact hover.trans_le (served_mono h.positive (hle p hp))

end Filling

end Filling

end WeightedFilling
end HeypAgents
