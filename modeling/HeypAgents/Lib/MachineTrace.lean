import Mathlib.Data.Int.ModEq
import Mathlib.Tactic.Linarith
import HeypAgents.Lib.While

/-!
# Traces of machine arithmetic

A program over integers that logs what it computes.  It is written once and read twice,
with exact results and with results that wrap around, so that "no value overflows" is the
equality of the two runs: their logs are the same, and so are their results.
-/

namespace HeypAgents
namespace MachineTrace

/-- A result with the events on the way to it. -/
structure Traced (ε α : Type) where
  log : List ε
  value : α
deriving DecidableEq

namespace Traced

variable {ε α β σ : Type}

instance : Monad (Traced ε) where
  pure a := ⟨[], a⟩
  bind t f := ⟨t.log ++ (f t.value).log, (f t.value).value⟩

@[simp] theorem pure_value (a : α) : (pure a : Traced ε α).value = a := rfl

@[simp] theorem bind_value (t : Traced ε α) (f : α → Traced ε β) :
    (t >>= f).value = (f t.value).value := rfl

def tell (e : ε) : Traced ε Unit := ⟨[e], ()⟩

/-- A while loop whose iterations log events. -/
def loop (cond : σ → Bool) (body : σ → Traced ε σ) : ℕ → σ → Traced ε σ
  | 0, s => pure s
  | fuel + 1, s => if cond s then body s >>= loop cond body fuel else pure s

theorem loop_value {cond : σ → Bool} {body : σ → Traced ε σ} {step : σ → σ}
    (hbody : ∀ s, (body s).value = step s) (fuel : ℕ) (s : σ) :
    (loop cond body fuel s).value = While.loop cond step fuel s := by
  induction fuel generalizing s with
  | zero => rfl
  | succ fuel ih =>
    rw [loop, While.loop]
    split_ifs with hcond
    · rw [bind_value, ih, hbody]
    · rfl

theorem foldlM_value {body : σ → α → Traced ε σ} {step : σ → α → σ}
    (hbody : ∀ s a, (body s a).value = step s a) (xs : List α) (s : σ) :
    (xs.foldlM body s).value = xs.foldl step s := by
  induction xs generalizing s with
  | nil => rfl
  | cons a xs ih => rw [List.foldlM_cons, bind_value, ih, hbody, List.foldl_cons]

theorem bind_congr {t t' : Traced ε α} {f g : α → Traced ε β} (ht : t = t')
    (h : f t'.value = g t'.value) : t >>= f = t' >>= g := by
  subst ht
  exact congrArg (fun r : Traced ε β => (⟨t.log ++ r.log, r.value⟩ : Traced ε β)) h

theorem loop_congr {cond : σ → Bool} {body body' : σ → Traced ε σ} {I : σ → Prop}
    (hbody : ∀ s, I s → cond s = true → body s = body' s)
    (hI : ∀ s, I s → cond s = true → I (body' s).value) (fuel : ℕ) {s : σ} (h : I s) :
    loop cond body fuel s = loop cond body' fuel s := by
  induction fuel generalizing s with
  | zero => rfl
  | succ fuel ih =>
    rw [loop, loop]
    split_ifs with hcond
    · exact bind_congr (hbody s h hcond) (ih (hI s h hcond))
    · rfl

/-- Every logged event satisfies `P`. -/
def Emits (P : ε → Prop) (t : Traced ε α) : Prop := ∀ e ∈ t.log, P e

section Emits

variable {P : ε → Prop}

@[simp] theorem emits_pure (a : α) : Emits P (pure a : Traced ε α) :=
  fun _ h => absurd h List.not_mem_nil

@[simp] theorem emits_tell (e : ε) : Emits P (tell e) ↔ P e := by
  simp [Emits, tell]

@[simp] theorem emits_bind (t : Traced ε α) (f : α → Traced ε β) :
    Emits P (t >>= f) ↔ Emits P t ∧ Emits P (f t.value) :=
  List.forall_mem_append

theorem emits_loop {cond : σ → Bool} {body : σ → Traced ε σ} (h : ∀ s, Emits P (body s))
    (fuel : ℕ) (s : σ) : Emits P (loop cond body fuel s) := by
  induction fuel generalizing s with
  | zero => exact emits_pure s
  | succ fuel ih =>
    rw [loop]
    split_ifs
    · exact (emits_bind _ _).mpr ⟨h s, ih _⟩
    · exact emits_pure s

theorem emits_foldlM {body : σ → α → Traced ε σ} (h : ∀ s a, Emits P (body s a))
    (xs : List α) (s : σ) : Emits P (xs.foldlM body s) := by
  induction xs generalizing s with
  | nil => exact emits_pure s
  | cons a xs ih =>
    rw [List.foldlM_cons]
    exact (emits_bind _ _).mpr ⟨h s a, ih _⟩

end Emits

end Traced

structure Arith where
  int64 : ℤ → ℤ
  uint64 : ℤ → ℤ
  uint32 : ℕ → ℕ

namespace Arith

/-- Every value is kept. -/
def exact : Arith where
  int64 := id
  uint64 := id
  uint32 := id

/-- Two's complement. -/
def wrapped : Arith where
  int64 x := x.bmod (2 ^ 64)
  uint64 x := x % 2 ^ 64
  uint32 n := n % 2 ^ 32

variable (m : Arith)

/-- `x + u` with an unsigned operand: both are unsigned, and so is the sum. -/
def addU (x u : ℤ) : ℤ := m.uint64 (m.uint64 x + u)

def subU (x u : ℤ) : ℤ := m.uint64 (m.uint64 x - u)

def mulU (x u : ℤ) : ℤ := m.uint64 (m.uint64 x * u)

def divU (x u : ℤ) : ℤ := (m.uint64 x).tdiv u

/-- An assignment to a signed variable. -/
def assign {ε : Type} (tag : ℤ → ε) (x : ℤ) : Traced ε ℤ := ⟨[tag (m.int64 x)], m.int64 x⟩

end Arith

@[simp] theorem exact_assign_bind_value {ε α : Type} (tag : ℤ → ε) (x : ℤ)
    (f : ℤ → Traced ε α) : (Arith.exact.assign tag x >>= f).value = (f x).value := rfl

@[simp] theorem emits_assign {ε : Type} {P : ε → Prop} (m : Arith) (tag : ℤ → ε) (x : ℤ) :
    Traced.Emits P (m.assign tag x) ↔ P (tag (m.int64 x)) :=
  Traced.emits_tell (tag (m.int64 x))

/-- The values of a signed 64-bit integer. -/
def InRange (x : ℤ) : Prop := -2 ^ 63 ≤ x ∧ x < 2 ^ 63

theorem inRange_of_abs_le {x b : ℤ} (hb : b < 2 ^ 63) (hx : |x| ≤ b) : InRange x := by
  obtain ⟨hlo, hhi⟩ := abs_le.mp hx
  exact ⟨by linarith, by linarith⟩

section Exactness

open Arith

variable {ε α : Type} {x y u : ℤ}

theorem int64_of_inRange (h : InRange x) : wrapped.int64 x = x := by
  obtain ⟨hlo, hhi⟩ := h
  exact Int.bmod_eq_of_le (by omega) (by omega)

theorem int64_uint64 (x : ℤ) : wrapped.int64 (wrapped.uint64 x) = wrapped.int64 x :=
  Int.emod_bmod x (2 ^ 64)

theorem mulU_modEq (y u : ℤ) : Int.ModEq (2 ^ 64) (wrapped.mulU y u) (y * u) :=
  (Int.mod_modEq _ _).trans ((Int.mod_modEq y _).mul_right u)

theorem int64_addU_mulU (h : InRange (x + y * u)) :
    wrapped.int64 (wrapped.addU x (wrapped.mulU y u)) = x + y * u := by
  have hrepr : wrapped.addU x (wrapped.mulU y u) = wrapped.uint64 (x + y * u) :=
    (Int.mod_modEq x _).add (mulU_modEq y u)
  rw [hrepr, int64_uint64, int64_of_inRange h]

theorem int64_subU_mulU (h : InRange (x - y * u)) :
    wrapped.int64 (wrapped.subU x (wrapped.mulU y u)) = x - y * u := by
  have hrepr : wrapped.subU x (wrapped.mulU y u) = wrapped.uint64 (x - y * u) :=
    (Int.mod_modEq x _).sub (mulU_modEq y u)
  rw [hrepr, int64_uint64, int64_of_inRange h]

theorem int64_addU_divU (hy : 0 ≤ y) (hy' : InRange y) (h : InRange (x + y.tdiv u)) :
    wrapped.int64 (wrapped.addU x (wrapped.divU y u)) = x + y.tdiv u := by
  have hdividend : wrapped.divU y u = y.tdiv u := by
    have hmod : y % 2 ^ 64 = y := Int.emod_eq_of_lt hy (by have := hy'.2; omega)
    exact congrArg (fun z : ℤ => z.tdiv u) hmod
  have hrepr : wrapped.addU x (wrapped.divU y u) = wrapped.uint64 (x + y.tdiv u) := by
    rw [hdividend]
    exact Int.emod_add_emod x (2 ^ 64) (y.tdiv u)
  rw [hrepr, int64_uint64, int64_of_inRange h]

variable {tag : ℤ → ε} {f g : ℤ → Traced ε α}

theorem assign_congr {v v' : ℤ} (hv : wrapped.int64 v = v') :
    wrapped.assign tag v = exact.assign tag v' := by
  simp only [assign, hv]
  rfl

theorem assign_bind_congr {v v' : ℤ} (hv : wrapped.int64 v = v') (h : f v' = g v') :
    wrapped.assign tag v >>= f = exact.assign tag v' >>= g :=
  Traced.bind_congr (assign_congr hv) h

end Exactness

end MachineTrace
end HeypAgents
