import Mathlib.Tactic

/-!
# Runs of a step function

A system is a partial function `step : σ → ε → Option σ`: the event `e` is
enabled in the state `s` when `step s e` is defined.  A run is a list of events,
executed from left to right.

The rules below reduce a property of all states of a run to a property of single
steps, either unconditionally or for runs whose steps meet a condition on the
state before the step.
-/

namespace HeypAgents
namespace Runs

universe u v

variable {σ : Type u} {ε : Type v}

/-- Execute the events in order; `none` when one of them is not enabled. -/
def exec (step : σ → ε → Option σ) : σ → List ε → Option σ
  | s, [] => some s
  | s, e :: es => (step s e).bind (fun s' => exec step s' es)

section Exec

variable {step : σ → ε → Option σ} {es : List ε} {s t : σ} {e : ε}

theorem exec_cons_eq_some :
    exec step s (e :: es) = some t ↔ ∃ s', step s e = some s' ∧ exec step s' es = some t := by
  simp [exec, Option.bind_eq_some_iff]

theorem exec_append (s : σ) (es fs : List ε) :
    exec step s (es ++ fs) = (exec step s es).bind (fun s' => exec step s' fs) := by
  induction es generalizing s with
  | nil => rfl
  | cons e es ih =>
    cases hs : step s e with
    | none => simp [exec, hs]
    | some s' => simp [exec, hs, ih]

theorem exec_concat_eq_some :
    exec step s (es ++ [e]) = some t ↔ ∃ s', exec step s es = some s' ∧ step s' e = some t := by
  rw [exec_append, Option.bind_eq_some_iff]
  simp [exec]

theorem exec_mono {es pre : List ε} (hrun : exec step s es = some t) (hpre : pre <+: es) :
    ∃ s', exec step s pre = some s' := by
  obtain ⟨rest, rfl⟩ := hpre
  rw [exec_append, Option.bind_eq_some_iff] at hrun
  obtain ⟨s', hs', -⟩ := hrun
  exact ⟨s', hs'⟩

theorem exec_invariant {P : σ → Prop} (hstep : ∀ s e s', P s → step s e = some s' → P s')
    {s t : σ} {es : List ε} (hs : P s) (hrun : exec step s es = some t) : P t := by
  induction es generalizing s with
  | nil =>
    cases hrun
    exact hs
  | cons e es ih =>
    obtain ⟨s', hfirst, hrest⟩ := exec_cons_eq_some.mp hrun
    exact ih (hstep s e s' hs hfirst) hrest

/-- Every step of the run meets the condition `C` in the state before it. -/
def AllSteps (step : σ → ε → Option σ) (C : σ → ε → Prop) (s : σ) (es : List ε) : Prop :=
  ∀ pre e s', pre ++ [e] <+: es → exec step s pre = some s' → C s' e

variable {C : σ → ε → Prop}

theorem AllSteps.mono {s : σ} {es fs : List ε}
    (h : AllSteps step C s fs) (hshort : es <+: fs) : AllSteps step C s es := by
  intro pre e s' hpre
  exact h pre e s' (hpre.trans hshort)

theorem AllSteps.init {s : σ} (h : AllSteps step C s (es ++ [e])) : AllSteps step C s es :=
  h.mono (List.prefix_append es [e])

theorem AllSteps.last
    (h : AllSteps step C s (es ++ [e])) (hrun : exec step s es = some t) : C t e :=
  h es e t (List.prefix_refl _) hrun

@[simp] theorem allSteps_nil (C : σ → ε → Prop) (s : σ) : AllSteps step C s [] := by
  intro pre e s' hpre
  simp at hpre

theorem allSteps_cons {s : σ} (hfirst : C s e)
    (hrest : ∀ s', step s e = some s' → AllSteps step C s' es) : AllSteps step C s (e :: es) := by
  intro pre e' t hpre hrun
  cases pre with
  | nil =>
    obtain rfl : e' = e := by simpa using hpre
    cases hrun
    exact hfirst
  | cons e₀ pre =>
    obtain ⟨rfl, hpre'⟩ := List.cons_prefix_cons.mp hpre
    obtain ⟨s', hstep, hpreRun⟩ := exec_cons_eq_some.mp hrun
    exact hrest s' hstep pre e' t hpre' hpreRun

theorem allSteps_cons_iff {s : σ} :
    AllSteps step C s (e :: es) ↔ C s e ∧ ∀ s' ∈ step s e, AllSteps step C s' es := by
  constructor
  · intro h
    refine ⟨h [] e s (by simp) rfl, fun s' hs' pre e' t hpre hrun => ?_⟩
    refine h (e :: pre) e' t (List.cons_prefix_cons.mpr ⟨rfl, hpre⟩) ?_
    exact exec_cons_eq_some.mpr ⟨s', hs', hrun⟩
  · rintro ⟨hfirst, hrest⟩
    exact allSteps_cons hfirst hrest

def decideAllSteps (C : σ → ε → Prop) [∀ s e, Decidable (C s e)] :
    ∀ (s : σ) (es : List ε), Decidable (AllSteps step C s es)
  | s, [] => isTrue (allSteps_nil C s)
  | s, e :: es =>
    have := fun s' => decideAllSteps C s' es
    decidable_of_iff (C s e ∧ ∀ s' ∈ step s e, AllSteps step C s' es) allSteps_cons_iff.symm

instance (C : σ → ε → Prop) [∀ s e, Decidable (C s e)] (s : σ) (es : List ε) :
    Decidable (AllSteps step C s es) :=
  decideAllSteps C s es

theorem exec_invariant_of_allSteps {P : σ → Prop}
    (hstep : ∀ s e s', P s → C s e → step s e = some s' → P s') {s t : σ} {es : List ε}
    (hs : P s) (hC : AllSteps step C s es) (hrun : exec step s es = some t) : P t := by
  induction es using List.reverseRecOn generalizing t with
  | nil =>
    cases hrun
    exact hs
  | append_singleton es e ih =>
    obtain ⟨s', hpre, hlast⟩ := exec_concat_eq_some.mp hrun
    exact hstep s' e t (ih hC.init hpre) (hC.last hpre) hlast

/--
Two conditions on a run are the same when they agree in the states of an invariant
that steps under the second one preserve.
-/
theorem allSteps_iff {I : σ → Prop} {P C : σ → ε → Prop} (hs : I s) (hrun : exec step s es = some t)
    (hiff : ∀ s, ∀ e ∈ es, ∀ s', I s → step s e = some s' → (P s e ↔ C s e))
    (hstep : ∀ s, ∀ e ∈ es, ∀ s', I s → C s e → step s e = some s' → I s') :
    AllSteps step P s es ↔ AllSteps step C s es := by
  induction es generalizing s with
  | nil => simp
  | cons e es ih =>
    obtain ⟨s', hfirst, hrest⟩ := exec_cons_eq_some.mp hrun
    rw [allSteps_cons_iff, allSteps_cons_iff, hiff s e (by simp) s' hs hfirst]
    simp only [hfirst, Option.mem_some_iff, forall_eq']
    refine and_congr_right fun hC => ?_
    exact ih (hstep s e (by simp) s' hs hC hfirst) hrest
      (fun s e he => hiff s e (List.mem_cons_of_mem _ he))
      (fun s e he => hstep s e (List.mem_cons_of_mem _ he))

theorem exists_exec (htotal : ∀ s e, ∃ s', step s e = some s') (s : σ) (es : List ε) :
    ∃ t, exec step s es = some t := by
  induction es generalizing s with
  | nil => exact ⟨s, rfl⟩
  | cons e es ih =>
    obtain ⟨s', hs'⟩ := htotal s e
    obtain ⟨t, ht⟩ := ih s'
    exact ⟨t, exec_cons_eq_some.mpr ⟨s', hs', ht⟩⟩

theorem reached_iff_allSteps {J : σ → Prop} {s : σ} {es : List ε} :
    (∀ pre s', pre <+: es → exec step s pre = some s' → J s') ↔
      J s ∧ AllSteps step (fun s e => ∀ s' ∈ step s e, J s') s es := by
  constructor
  · intro h
    refine ⟨h [] s List.nil_prefix rfl, fun pre e t hpre hrun t' ht' => ?_⟩
    exact h (pre ++ [e]) t' hpre (exec_concat_eq_some.mpr ⟨t, hrun, ht'⟩)
  · rintro ⟨hs, hsteps⟩ pre t hpre hrun
    rcases List.eq_nil_or_concat pre with rfl | ⟨pre, e, rfl⟩
    · cases hrun
      exact hs
    · rw [List.concat_eq_append] at hpre hrun
      obtain ⟨t', ht', hlast⟩ := exec_concat_eq_some.mp hrun
      exact hsteps pre e t' hpre ht' t hlast

theorem exec_rel
    {τ : Type*} {step' : τ → ε → Option τ} {R Q : σ → τ → Prop} {s : σ} {t : τ}
    (hstep : ∀ s t e, e ∈ es → R s t → Option.Rel R (step s e) (step' t e))
    (hQ : ∀ s t, R s t → Q s t) (h : R s t) : Option.Rel Q (exec step s es) (exec step' t es) := by
  induction es generalizing s t with
  | nil => exact .some (hQ s t h)
  | cons e es ih =>
    have hfirst := hstep s t e List.mem_cons_self h
    rw [exec, exec]
    cases hs : step s e <;> cases ht : step' t e <;> rw [hs, ht] at hfirst
    · exact .none
    · cases hfirst
    · cases hfirst
    · cases hfirst with
      | some h' => exact ih (fun s t e he => hstep s t e (List.mem_cons_of_mem _ he)) h'

end Exec

end Runs
end HeypAgents
