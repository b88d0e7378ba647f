import Mathlib.Tactic.ByContra
import Mathlib.Data.Nat.Notation

/-!
# While loops

A loop over an explicit state.  The fuel bounds the number of iterations; the
rules below say that fuel which covers a decreasing measure never runs out, and
what an invariant of the body says about the final state.
-/

namespace HeypAgents
namespace While

variable {σ : Type*}

/-- `while (cond s) s = body s`, for at most the given number of iterations. -/
def loop (cond : σ → Bool) (body : σ → σ) : ℕ → σ → σ
  | 0, s => s
  | fuel + 1, s => if cond s then loop cond body fuel (body s) else s

/-- Every iteration that the loop makes starts in a state with `C`. -/
def Always (cond : σ → Bool) (body : σ → σ) (C : σ → Prop) : ℕ → σ → Prop
  | 0, _ => True
  | fuel + 1, s => cond s = true → C s ∧ Always cond body C fuel (body s)

/-- The state in which the loop ends; `none` while it still runs. -/
def complete (cond : σ → Bool) (body : σ → σ) : ℕ → σ → Option σ
  | 0, s => if cond s then none else some s
  | fuel + 1, s => if cond s then complete cond body fuel (body s) else some s

section Rules

variable {cond : σ → Bool} {body : σ → σ} {C : σ → Prop} {s : σ}

theorem loop_of_not_cond (h : cond s = false) (fuel : ℕ) : loop cond body fuel s = s := by
  cases fuel with
  | zero => rfl
  | succ fuel => simp [loop, h]

theorem always_of_not_cond (h : cond s = false) (fuel : ℕ) : Always cond body C fuel s := by
  cases fuel with
  | zero => exact trivial
  | succ fuel => exact fun hcond => by simp [h] at hcond

variable {I : σ → Prop}

theorem always_of_invariant (hI : ∀ s, I s → cond s = true → I (body s))
    (hC : ∀ s, I s → cond s = true → C s) (fuel : ℕ) (h : I s) :
    Always cond body C fuel s := by
  induction fuel generalizing s with
  | zero => exact trivial
  | succ fuel ih => exact fun hcond => ⟨hC s h hcond, ih (hI s h hcond)⟩

theorem always_of_forall (h : ∀ s, C s) (fuel : ℕ) (s : σ) : Always cond body C fuel s :=
  always_of_invariant (I := fun _ => True) (fun _ _ _ => trivial) (fun s _ _ => h s) fuel trivial

variable {fuel : ℕ}

/-- A loop ends with its invariant, which may use what every iteration starts with. -/
theorem loop_spec (cond : σ → Bool) (body : σ → σ) {m : σ → ℕ}
    (hI : ∀ s, I s → cond s = true → C s → I (body s))
    (hm : ∀ s, I s → cond s = true → m (body s) < m s) (hfuel : m s ≤ fuel)
    (hC : Always cond body C fuel s) (h : I s) :
    I (loop cond body fuel s) ∧ cond (loop cond body fuel s) = false := by
  induction fuel generalizing s with
  | zero =>
    refine ⟨h, ?_⟩
    by_contra hcond
    have := hm s h (by simpa [loop] using hcond)
    omega
  | succ fuel ih =>
    cases hcond : cond s with
    | false =>
      rw [loop_of_not_cond hcond]
      exact ⟨h, hcond⟩
    | true =>
      obtain ⟨hCs, hrest⟩ := hC hcond
      have hlt := hm s h hcond
      rw [loop, if_pos hcond]
      exact ih (by omega) hrest (hI s h hcond hCs)

theorem loop_of_not_always {I B : σ → Prop} (hI : ∀ s, I s → cond s = true → C s → I (body s))
    (hfail : ∀ s, I s → cond s = true → ¬ C s → B (body s))
    (hB : ∀ s, B s → cond s = true → B (body s))
    (hC : ¬ Always cond body C fuel s) (h : I s) : B (loop cond body fuel s) := by
  have hkeep : ∀ (fuel : ℕ) (s : σ), B s → B (loop cond body fuel s) := by
    intro fuel
    induction fuel with
    | zero => exact fun _ hs => hs
    | succ fuel ih =>
      intro s hs
      cases hcond : cond s with
      | false => rwa [loop_of_not_cond hcond]
      | true =>
        rw [loop, if_pos hcond]
        exact ih _ (hB s hs hcond)
  induction fuel generalizing s with
  | zero => exact absurd trivial hC
  | succ fuel ih =>
    obtain ⟨hcond, hfailed⟩ := Classical.not_imp.mp hC
    rw [loop, if_pos hcond]
    by_cases hCs : C s
    · exact ih (fun hrest => hfailed ⟨hCs, hrest⟩) (hI s h hcond hCs)
    · exact hkeep _ _ (hfail s h hcond hCs)

theorem complete_of_not_cond (h : cond s = false) (fuel : ℕ) :
    complete cond body fuel s = some s := by
  cases fuel <;> simp [complete, h]

theorem complete_of_cond (h : cond s = true) (fuel : ℕ) :
    complete cond body (fuel + 1) s = complete cond body fuel (body s) := by
  rw [complete, if_pos h]

theorem complete_of_exit (h : cond (loop cond body fuel s) = false) :
    complete cond body fuel s = some (loop cond body fuel s) := by
  induction fuel generalizing s with
  | zero => exact complete_of_not_cond h 0
  | succ fuel ih =>
    cases hcond : cond s with
    | false => rw [complete_of_not_cond hcond, loop_of_not_cond hcond]
    | true =>
      rw [loop, if_pos hcond] at h ⊢
      rw [complete_of_cond hcond]
      exact ih h

theorem complete_mono {k k' : ℕ} {s t : σ} (h : complete cond body k s = some t) (hk : k ≤ k') :
    complete cond body k' s = some t := by
  induction k generalizing k' s with
  | zero =>
    cases hcond : cond s with
    | false => rwa [complete_of_not_cond hcond] at h ⊢
    | true => simp [complete, hcond] at h
  | succ k ih =>
    cases hcond : cond s with
    | false => rwa [complete_of_not_cond hcond] at h ⊢
    | true =>
      obtain ⟨m, rfl⟩ : ∃ m, k' = m + 1 := ⟨k' - 1, by omega⟩
      rw [complete_of_cond hcond] at h ⊢
      exact ih h (by omega)

theorem complete_eq_none (hcond : ∀ s, I s → cond s = true)
    (hI : ∀ s, I s → I (body s)) (fuel : ℕ) (h : I s) :
    complete cond body fuel s = none := by
  induction fuel generalizing s with
  | zero => rw [complete, if_pos (hcond s h)]
  | succ fuel ih =>
    rw [complete_of_cond (hcond s h)]
    exact ih (hI s h)

end Rules

end While
end HeypAgents
