import HeypAgents.Lib.Runs

/-!
# Callbacks and the lifetime of listeners

A publisher keeps the listeners that are registered with it, and some of its calls
call them back.  A listener exists from its registration until its owner destroys
it.  No callback reaches a destroyed listener when the destruction takes the listener
away from the publisher; `exempt` listeners are those that it may leave behind.
-/

namespace HeypAgents
namespace Listeners

open Runs

universe u v w x

/-- `κ` is the state, `ι` what a listener is registered with, and `η` its handle. -/
structure Publisher (κ : Type u) (ι : Type v) (η : Type w) (ε : Type x) where
  register : κ → ι → κ × η
  destroy : κ → η → κ
  /-- Another call, with the listeners that it calls back. -/
  call : κ → ε → Option (κ × List η)

inductive Event (ι : Type v) (η : Type w) (ε : Type x) where
  | register (arg : ι)
  | destroy (handle : η)
  | call (e : ε)

structure System (κ : Type u) (η : Type w) where
  publisher : κ
  live : List η := []

variable {κ : Type u} {ι : Type v} {η : Type w} {ε : Type x} [DecidableEq η]

def step (p : Publisher κ ι η ε) (s : System κ η) : Event ι η ε → Option (System κ η)
  | .register arg =>
    some ⟨(p.register s.publisher arg).1, (p.register s.publisher arg).2 :: s.live⟩
  | .destroy handle =>
    if handle ∈ s.live then some ⟨p.destroy s.publisher handle, s.live.erase handle⟩ else none
  | .call e => (p.call s.publisher e).map fun r => ⟨r.1, s.live⟩

def CallsLive (p : Publisher κ ι η ε) (s : System κ η) : Event ι η ε → Prop
  | .call e => ∀ r ∈ p.call s.publisher e, ∀ handle ∈ r.2, handle ∈ s.live
  | _ => True

/--
The listeners that are registered, in the states that satisfy `good`: a registration
adds its own, a destruction takes it away unless it is exempt, and the other calls add
none and call back registered ones only.
-/
structure Tracks (p : Publisher κ ι η ε) (good : κ → Prop) (registered : κ → η → Prop)
    (exempt : η → Prop) : Prop where
  register : ∀ k arg, good k → good (p.register k arg).1 ∧
    ∀ handle, registered (p.register k arg).1 handle →
      registered k handle ∨ handle = (p.register k arg).2
  destroy : ∀ k handle, good k → good (p.destroy k handle) ∧
    ∀ handle', registered (p.destroy k handle) handle' →
      registered k handle' ∧ (handle' = handle → exempt handle')
  call : ∀ k e r, good k → p.call k e = some r → good r.1 ∧
    (∀ handle, registered r.1 handle → registered k handle) ∧
    ∀ handle ∈ r.2, registered k handle

/-- A registered listener exists or is exempt. -/
structure Inv (good : κ → Prop) (registered : κ → η → Prop) (exempt : η → Prop)
    (s : System κ η) : Prop where
  good : good s.publisher
  live : ∀ handle, registered s.publisher handle → handle ∈ s.live ∨ exempt handle

variable {p : Publisher κ ι η ε} {good : κ → Prop} {registered : κ → η → Prop}
  {exempt : η → Prop} {s s' : System κ η}

theorem Tracks.inv_step (htracks : Tracks p good registered exempt) {e : Event ι η ε}
    (h : Inv good registered exempt s) (hstep : step p s e = some s') :
    Inv good registered exempt s' := by
  cases e with
  | register arg =>
    obtain rfl := Option.some.inj hstep
    obtain ⟨hgood, hregistered⟩ := htracks.register s.publisher arg h.good
    refine ⟨hgood, fun handle hhandle => ?_⟩
    rcases hregistered handle hhandle with hold | rfl
    · exact (h.live handle hold).imp_left (List.mem_cons_of_mem _)
    · exact .inl List.mem_cons_self
  | destroy handle =>
    simp only [step] at hstep
    split_ifs at hstep
    obtain rfl := Option.some.inj hstep
    obtain ⟨hgood, hregistered⟩ := htracks.destroy s.publisher handle h.good
    refine ⟨hgood, fun handle' hhandle' => ?_⟩
    obtain ⟨hold, hexempt⟩ := hregistered handle' hhandle'
    by_cases heq : handle' = handle
    · exact .inr (hexempt heq)
    · exact (h.live handle' hold).imp_left (List.mem_erase_of_ne heq).mpr
  | call e =>
    simp only [step, Option.map_eq_some_iff] at hstep
    obtain ⟨r, hr, rfl⟩ := hstep
    obtain ⟨hgood, hregistered, -⟩ := htracks.call s.publisher e r h.good hr
    exact ⟨hgood, fun handle hhandle => h.live handle (hregistered handle hhandle)⟩

/-- In every run a registered listener exists or is exempt. -/
theorem Tracks.inv_exec (htracks : Tracks p good registered exempt) {events : List (Event ι η ε)}
    (h : Inv good registered exempt s) (hrun : exec (step p) s events = some s') :
    Inv good registered exempt s' :=
  exec_invariant (fun _ _ _ h hstep => htracks.inv_step h hstep) h hrun

theorem Tracks.callsLive (htracks : Tracks p good registered exempt)
    (hexempt : ∀ handle, ¬ exempt handle) (events : List (Event ι η ε))
    (h : Inv good registered exempt s) : AllSteps (step p) (CallsLive p) s events := by
  intro pre e t _ hrun
  have hinv := htracks.inv_exec h hrun
  cases e with
  | register | destroy => trivial
  | call e =>
    intro r hr handle hhandle
    have hregistered := (htracks.call t.publisher e r hinv.good hr).2.2 handle hhandle
    exact (hinv.live handle hregistered).resolve_right (hexempt handle)

end Listeners
end HeypAgents
