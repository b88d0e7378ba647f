import Mathlib.Data.List.Basic

/-!
# Programs whose memory accesses are checked

A program returns a value or an error of its own, unless an access to memory goes wrong,
which ends it with a fault.  `Ensures` is the total correctness of such a program: there
is no fault, and the value that it returns, if any, satisfies the postcondition.
-/

namespace HeypAgents
namespace MemoryFaults

universe u

inductive Fault where
  | outOfRange
  | nullPointer
deriving DecidableEq, Repr

/-- A program with errors `ε`. -/
abbrev Checked (ε α : Type u) := ExceptT ε (Except Fault) α

variable {ε α β σ : Type u}

/-- The program ends with a fault. -/
def fault (f : Fault) : Checked ε α := ExceptT.mk (.error f)

def index (xs : List α) (i : ℕ) : Checked ε α :=
  match xs[i]? with
  | some x => pure x
  | none => fault .outOfRange

def Ensures (x : Checked ε α) (post : α → Prop) : Prop :=
  ∃ r, x.run = .ok r ∧ ∀ a, r = .ok a → post a

/-- The program returns a value or an error. -/
def Returns (x : Checked ε α) : Prop := Ensures x fun _ => True

section Rules

variable {x : Checked ε α} {f : α → Checked ε β} {post post' : α → Prop} {a : α}

theorem ensures_pure (h : post a) : Ensures (pure a : Checked ε α) post :=
  ⟨.ok a, rfl, by rintro _ ⟨⟩; exact h⟩

theorem ensures_throw (e : ε) : Ensures (throw e : Checked ε α) post :=
  ⟨.error e, rfl, by rintro _ ⟨⟩⟩

theorem run_pure_eq_iff {b : α} : (pure a : Checked ε α).run = .ok (.ok b) ↔ a = b := by
  constructor
  · rintro ⟨⟩
    rfl
  · rintro rfl
    rfl

theorem run_throw_ne (e : ε) : (throw e : Checked ε α).run ≠ .ok (.ok a) := by
  rintro ⟨⟩

theorem not_ensures_fault (flt : Fault) : ¬ Ensures (fault flt : Checked ε α) post := by
  rintro ⟨r, hr, -⟩
  cases hr

theorem Ensures.mono (h : Ensures x post) (himp : ∀ a, post a → post' a) : Ensures x post' := by
  obtain ⟨r, hr, hpost⟩ := h
  exact ⟨r, hr, fun a ha => himp a (hpost a ha)⟩

theorem Ensures.returns (h : Ensures x post) : Returns x := h.mono fun _ _ => trivial

theorem Ensures.of_run (h : Ensures x post) (hrun : x.run = .ok (.ok a)) : post a := by
  obtain ⟨r, hr, hpost⟩ := h
  exact hpost a (Except.ok.inj (hr.symm.trans hrun))

theorem Ensures.bind {post' : β → Prop} (h : Ensures x post)
    (hrest : ∀ a, post a → Ensures (f a) post') : Ensures (x >>= f) post' := by
  obtain ⟨r, hr, hpost⟩ := h
  cases r with
  | error e =>
    refine ⟨.error e, ?_, by rintro _ ⟨⟩⟩
    rw [ExceptT.run_bind, hr]
    rfl
  | ok a =>
    obtain ⟨r', hr', hpost'⟩ := hrest a (hpost a rfl)
    refine ⟨r', ?_, hpost'⟩
    rw [ExceptT.run_bind, hr]
    exact hr'

theorem returns_pure (a : α) : Returns (pure a : Checked ε α) := ensures_pure trivial

theorem Returns.bind (h : Returns x) (hrest : ∀ a, Returns (f a)) : Returns (x >>= f) :=
  Ensures.bind h fun a _ => hrest a

theorem not_ensures_bind {post' : β → Prop} (h : ¬ Returns x) : ¬ Ensures (x >>= f) post' := by
  rintro ⟨r, hr, -⟩
  apply h
  rw [ExceptT.run_bind] at hr
  cases hx : x.run with
  | error flt =>
    rw [hx] at hr
    cases hr
  | ok r' => exact ⟨r', hx, fun _ _ => trivial⟩

theorem exists_index {xs : List α} {i : ℕ} (h : i < xs.length) :
    ∃ a, (index xs i : Checked ε α) = pure a := by
  refine ⟨xs[i], ?_⟩
  rw [index, List.getElem?_eq_getElem h]

theorem returns_index {xs : List α} {i : ℕ} (h : i < xs.length) :
    Returns (index xs i : Checked ε α) := by
  obtain ⟨a, ha⟩ := @exists_index ε α xs i h
  rw [ha]
  exact returns_pure a

theorem not_returns_index {xs : List α} {i : ℕ} (h : xs.length ≤ i) :
    ¬ Returns (index xs i : Checked ε α) := by
  rw [index, List.getElem?_eq_none h]
  exact not_ensures_fault _

theorem ensures_foldlM {step : σ → α → Checked ε σ} {inv : σ → Prop} {xs : List α}
    (hstep : ∀ s, inv s → ∀ a ∈ xs, Ensures (step s a) inv) {s : σ} (hs : inv s) :
    Ensures (xs.foldlM step s) inv := by
  induction xs generalizing s with
  | nil => exact ensures_pure hs
  | cons a xs ih =>
    rw [List.foldlM_cons]
    exact (hstep s hs a List.mem_cons_self).bind fun s' hs' =>
      ih (fun s hs b hb => hstep s hs b (List.mem_cons_of_mem a hb)) hs'

end Rules

section Simulation

variable {x : Checked ε α} {y : Checked ε β}

def Simulates (f : α → β) (x : Checked ε α) (y : Checked ε β) : Prop :=
  ∀ a, x.run = .ok (.ok a) → y.run = .ok (.ok (f a))

theorem run_bind_eq_iff {k : α → Checked ε β} {b : β} :
    (x >>= k).run = .ok (.ok b) ↔ ∃ a, x.run = .ok (.ok a) ∧ (k a).run = .ok (.ok b) := by
  rw [ExceptT.run_bind]
  constructor
  · intro h
    cases hx : x.run with
    | error flt =>
      rw [hx] at h
      cases h
    | ok r =>
      rw [hx] at h
      cases r with
      | error e => cases h
      | ok a => exact ⟨a, rfl, h⟩
  · rintro ⟨a, hx, hk⟩
    rw [hx]
    exact hk

theorem simulates_pure (f : α → β) (a : α) : Simulates f (pure a : Checked ε α) (pure (f a)) := by
  intro b hb
  rw [run_pure_eq_iff] at hb ⊢
  rw [hb]

theorem simulates_throw (f : α → β) (e : ε) : Simulates f (throw e) y :=
  fun _ h => absurd h (run_throw_ne e)

theorem Simulates.bind {γ δ : Type u} {f : α → β} {g : γ → δ}
    {k : α → Checked ε γ} {l : β → Checked ε δ} (h : Simulates f x y)
    (hrest : ∀ a, x.run = .ok (.ok a) → Simulates g (k a) (l (f a))) :
    Simulates g (x >>= k) (y >>= l) := by
  intro c hc
  obtain ⟨a, hx, hk⟩ := run_bind_eq_iff.mp hc
  exact run_bind_eq_iff.mpr ⟨f a, h a hx, hrest a hx c hk⟩

theorem simulates_bind_same {γ δ : Type u} {g : γ → δ} {k : α → Checked ε γ}
    {l : α → Checked ε δ} (h : ∀ a, Simulates g (k a) (l a)) : Simulates g (x >>= k) (x >>= l) :=
  Simulates.bind (f := id) (fun _ hx => hx) fun a _ => h a

theorem simulates_foldlM {τ : Type u} {f : σ → τ} {inv : σ → Prop} {xs : List α}
    {step : σ → α → Checked ε σ} {step' : τ → α → Checked ε τ}
    (hsim : ∀ s, inv s → ∀ a ∈ xs, Simulates f (step s a) (step' (f s) a))
    (hinv : ∀ s, inv s → ∀ a ∈ xs, ∀ s', (step s a).run = .ok (.ok s') → inv s')
    {s : σ} (hs : inv s) : Simulates f (xs.foldlM step s) (xs.foldlM step' (f s)) := by
  induction xs generalizing s with
  | nil => exact simulates_pure f s
  | cons a xs ih =>
    rw [List.foldlM_cons, List.foldlM_cons]
    refine (hsim s hs a List.mem_cons_self).bind fun s' hrun => ?_
    have hs' := hinv s hs a List.mem_cons_self s' hrun
    exact ih (fun s hs b hb => hsim s hs b (List.mem_cons_of_mem a hb))
      (fun s hs b hb => hinv s hs b (List.mem_cons_of_mem a hb)) hs'

end Simulation

end MemoryFaults
end HeypAgents
