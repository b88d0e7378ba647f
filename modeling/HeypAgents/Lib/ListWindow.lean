import Mathlib.Data.List.Basic
import Mathlib.Data.Int.Notation

/-!
# Windows of an array

A search that narrows the window `[lower, upper]` of an array.  The limits are signed, so
that an empty window at the start of the array has an upper limit of -1.  The window is
cut at a point; the part up to this point is left behind, or the part after it is.
-/

namespace HeypAgents
namespace ListWindow

variable {α : Type*}

structure Window (xs : List α) (lower upper : ℤ) (below area above : List α) : Prop where
  array : xs = below ++ (area ++ above)
  lower_eq : lower = below.length
  upper_eq : upper + 1 = below.length + area.length

theorem exists_split_at {ys : List α} {i : ℕ} (h : i < ys.length) :
    ∃ as v bs, ys = as ++ v :: bs ∧ as.length = i := by
  refine ⟨ys.take i, ys[i], ys.drop (i + 1), ?_, ?_⟩
  · rw [← List.drop_eq_getElem_cons h, List.take_append_drop]
  · rw [List.length_take]
    omega

variable {xs below area above : List α} {lower upper : ℤ}

theorem length_replace {ys : List α} (hle : lower ≤ upper)
    (hys : ys.length = ((xs.take (upper + 1).toNat).drop lower.toNat).length) :
    (xs.take lower.toNat ++ (ys ++ xs.drop (upper + 1).toNat)).length = xs.length := by
  rw [List.length_append, List.length_append, hys]
  simp only [List.length_take, List.length_drop]
  omega

namespace Window

theorem take_lower (h : Window xs lower upper below area above) : xs.take lower.toNat = below := by
  rw [h.array, h.lower_eq, Int.toNat_natCast, List.take_left]

theorem take_upper (h : Window xs lower upper below area above) :
    xs.take (upper + 1).toNat = below ++ area := by
  have hupper : (upper + 1).toNat = (below ++ area).length := by
    rw [h.upper_eq, List.length_append]
    omega
  rw [hupper, h.array, ← List.append_assoc, List.take_left]

theorem drop_upper (h : Window xs lower upper below area above) :
    xs.drop (upper + 1).toNat = above := by
  have hupper : (upper + 1).toNat = (below ++ area).length := by
    rw [h.upper_eq, List.length_append]
    omega
  rw [hupper, h.array, ← List.append_assoc, List.drop_left]

theorem area_eq (h : Window xs lower upper below area above) :
    (xs.take (upper + 1).toNat).drop lower.toNat = area := by
  rw [h.take_upper, h.lower_eq, Int.toNat_natCast, List.drop_left]

theorem mid_lt (h : Window xs lower upper below area above) (hle : lower ≤ upper) :
    (lower + (upper - lower) / 2 - lower).toNat < area.length ∧
      lower + (upper - lower) / 2 = below.length + (lower + (upper - lower) / 2 - lower).toNat := by
  have hlower := h.lower_eq
  have hupper := h.upper_eq
  omega

theorem eq_nil (h : Window xs lower upper below area above) (hlt : upper < lower) : area = [] := by
  have hlower := h.lower_eq
  have hupper := h.upper_eq
  rw [← List.length_eq_zero_iff]
  omega

theorem length_sub_lower (h : Window xs lower upper below area above) :
    (xs.length : ℤ) - lower = (area ++ above).length := by
  rw [h.array, h.lower_eq, List.length_append]
  omega

section Cut

variable {A B : List α} {p : ℤ}

theorem behind (h : Window xs lower upper below area above)
    (hlen : (A ++ B).length = area.length) (hp : p + 1 = below.length + A.length) :
    Window (below ++ A ++ (B ++ above)) (p + 1) upper (below ++ A) B above := by
  have hupper := h.upper_eq
  rw [List.length_append] at hlen
  refine ⟨rfl, ?_, ?_⟩ <;> rw [List.length_append] <;> omega

theorem ahead (h : Window xs lower upper below area above) (hp : p + 1 = below.length + A.length) :
    Window (below ++ A ++ (B ++ above)) lower p below A (B ++ above) :=
  ⟨List.append_assoc _ _ _, h.lower_eq, hp⟩

theorem closed (h : Window xs lower upper below area above) :
    Window (below ++ A ++ (B ++ above)) lower (lower - 1) below [] (A ++ (B ++ above)) := by
  have hlower := h.lower_eq
  refine ⟨List.append_assoc _ _ _, hlower, ?_⟩
  rw [List.length_nil]
  omega

theorem lowerPart (h : Window xs lower upper below area above)
    (hp : p + 1 = below.length + A.length) :
    ((below ++ A ++ (B ++ above)).take (p + 1).toNat).drop lower.toNat = A :=
  (h.ahead hp).area_eq

theorem rest (h : Window xs lower upper below area above) (hp : p + 1 = below.length + A.length) :
    (below ++ A ++ (B ++ above)).drop (p + 1).toNat = B ++ above :=
  (h.ahead hp).drop_upper

end Cut

end Window

end ListWindow
end HeypAgents
