import Mathlib.Data.List.Basic
import Mathlib.Order.Lattice

/-!
# Strict weak orders and selection

A comparison function in the sense of the C++ algorithms library, and the
postcondition of selection: the element at a position is the one that sorting
would put there.
-/

namespace HeypAgents

structure WeakOrder (α : Type*) where
  lt : α → α → Bool
  asymm : ∀ a b, lt a b = true → lt b a = false
  negTrans : ∀ a b c, lt a c = true → lt a b = true ∨ lt b c = true

namespace WeakOrder

/-- The order of a linearly ordered type. -/
def ofLinearOrder (α : Type*) [LinearOrder α] : WeakOrder α where
  lt a b := decide (a < b)
  asymm a b h := by
    simp only [decide_eq_true_eq, decide_eq_false_iff_not] at h ⊢
    exact h.asymm
  negTrans a b c h := by
    simp only [decide_eq_true_eq] at h ⊢
    exact (lt_or_ge a b).imp_right fun hb => hb.trans_lt h

variable {α : Type*} (o : WeakOrder α)

/-- `a` may stand before `b`. -/
def le (a b : α) : Prop := o.lt b a = false

@[simp] theorem ofLinearOrder_le [LinearOrder α] {a b : α} : (ofLinearOrder α).le a b ↔ a ≤ b := by
  simp [le, ofLinearOrder]

variable {o}

theorem le_of_lt {a b : α} (h : o.lt a b = true) : o.le a b := o.asymm a b h

theorem le_refl (a : α) : o.le a a := by
  cases h : o.lt a a with
  | false => exact h
  | true => exact o.asymm a a h

theorem le_trans {a b c : α} (hab : o.le a b) (hbc : o.le b c) : o.le a c := by
  cases h : o.lt c a with
  | false => exact h
  | true =>
    rcases o.negTrans c b a h with hcb | hba
    · exact absurd hcb (by simp [show o.lt c b = false from hbc])
    · exact absurd hba (by simp [show o.lt b a = false from hab])

def Below (o : WeakOrder α) (as bs : List α) : Prop := ∀ a ∈ as, ∀ b ∈ bs, o.le a b

theorem below_of_pivot {as bs : List α} {p : α}
    (ha : ∀ a ∈ as, o.le a p) (hb : ∀ b ∈ bs, o.le p b) : o.Below as bs :=
  fun a hamem b hbmem => le_trans (ha a hamem) (hb b hbmem)

theorem below_append_left {as bs cs : List α} :
    o.Below (as ++ bs) cs ↔ o.Below as cs ∧ o.Below bs cs :=
  List.forall_mem_append

theorem below_append_right {as bs cs : List α} :
    o.Below as (bs ++ cs) ↔ o.Below as bs ∧ o.Below as cs := by
  simp only [Below, List.forall_mem_append, forall_and]

theorem Below.mono {as as' bs bs' : List α} (h : o.Below as bs) (ha : as' ⊆ as) (hb : bs' ⊆ bs) :
    o.Below as' bs' :=
  fun a hamem b hbmem => h a (ha hamem) b (hb hbmem)

/-- The element at position `k` is the one that sorting would put there. -/
def Selected (o : WeakOrder α) (xs : List α) (k : ℕ) : Prop :=
  ∃ as v bs, xs = as ++ v :: bs ∧ as.length = k ∧ (∀ a ∈ as, o.le a v) ∧ ∀ b ∈ bs, o.le v b

theorem Selected.lt_length {xs : List α} {k : ℕ} (h : o.Selected xs k) : k < xs.length := by
  obtain ⟨as, v, bs, rfl, rfl, -, -⟩ := h
  simp

theorem selected_middle {as bs : List α} {v : α}
    (ha : ∀ a ∈ as, o.le a v) (hb : ∀ b ∈ bs, o.le v b) : o.Selected (as ++ v :: bs) as.length :=
  ⟨as, v, bs, rfl, rfl, ha, hb⟩

theorem selected_head {v : α} {bs : List α} (hb : ∀ b ∈ bs, o.le v b) : o.Selected (v :: bs) 0 :=
  ⟨[], v, bs, rfl, rfl, by simp, hb⟩

theorem Selected.append_right {xs ys : List α} {k : ℕ} (h : o.Selected xs k) (hle : o.Below xs ys) :
    o.Selected (xs ++ ys) k := by
  obtain ⟨as, v, bs, rfl, hlen, ha, hb⟩ := h
  refine ⟨as, v, bs ++ ys, by simp, hlen, ha, ?_⟩
  intro b hmem
  rcases List.mem_append.mp hmem with hmem | hmem
  · exact hb b hmem
  · exact hle v (by simp) b hmem

theorem Selected.append_left {xs ys : List α} {k : ℕ} (h : o.Selected ys k) (hle : o.Below xs ys) :
    o.Selected (xs ++ ys) (xs.length + k) := by
  obtain ⟨as, v, bs, rfl, hlen, ha, hb⟩ := h
  refine ⟨xs ++ as, v, bs, by simp, by simp [hlen], ?_, hb⟩
  intro a hmem
  rcases List.mem_append.mp hmem with hmem | hmem
  · exact hle a hmem v (by simp)
  · exact ha a hmem

theorem selected_of_pairwise {xs : List α} {k : ℕ} (h : xs.Pairwise o.le) (hk : k < xs.length) :
    o.Selected xs k := by
  have hsplit : xs = xs.take k ++ xs[k] :: xs.drop (k + 1) := by simp
  have hpair := hsplit ▸ h
  obtain ⟨-, hcons, hcross⟩ := List.pairwise_append.mp hpair
  refine ⟨xs.take k, xs[k], xs.drop (k + 1), hsplit, ?_, ?_, ?_⟩
  · rw [List.length_take]
    omega
  · exact fun a ha => hcross a ha _ List.mem_cons_self
  · exact (List.pairwise_cons.mp hcons).1

end WeakOrder
end HeypAgents
