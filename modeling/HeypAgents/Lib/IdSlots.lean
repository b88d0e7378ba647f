import Mathlib.Data.List.Basic
import Mathlib.Order.Nat

/-!
# Slots with ids from a counter

A table of records, each of which gets an id from a common counter at most once,
and a log of commands that name these ids.  A change of one slot may take the next
id for it and may log commands for it.

Changes of different slots do not interfere: after a list of them each slot and the
commands for its id are as if its own change had been the only one.
-/

namespace HeypAgents
namespace IdSlots

universe u v w

variable {κ : Type u} {ρ : Type v} {γ : Type w}

structure State (κ : Type u) (ρ : Type v) (γ : Type w) where
  next : ℕ
  slots : κ → ρ
  log : List γ

structure Changed (ρ : Type v) (γ : Type w) where
  record : ρ
  next : ℕ
  commands : List γ

abbrev Change (ρ : Type v) (γ : Type w) := ρ → ℕ → Changed ρ γ

variable (idOf : ρ → Option ℕ) (target : γ → ℕ)

/-- The commands for one id. -/
def commandsFor (log : List γ) (i : ℕ) : List γ := log.filter fun c => target c == i

structure IsLocal (f : Change ρ γ) : Prop where
  keeps : ∀ {r n i}, idOf r = some i → idOf (f r n).record = some i ∧ (f r n).next = n
  takes : ∀ {r n}, idOf r = none →
    idOf (f r n).record = none ∧ (f r n).next = n ∨
      idOf (f r n).record = some n ∧ (f r n).next = n + 1
  targets : ∀ {r n}, ∀ c ∈ (f r n).commands, idOf (f r n).record = some (target c)

structure Valid (s : State κ ρ γ) : Prop where
  below : ∀ {k i}, idOf (s.slots k) = some i → i < s.next
  distinct : ∀ {k k' i}, idOf (s.slots k) = some i → idOf (s.slots k') = some i → k = k'
  logged : ∀ c ∈ s.log, target c < s.next

variable {idOf target} {s : State κ ρ γ} {f : Change ρ γ} {k k' : κ} {i : ℕ}

theorem IsLocal.next_le (hf : IsLocal idOf target f) (r : ρ) (n : ℕ) : n ≤ (f r n).next := by
  cases hr : idOf r with
  | some i => exact le_of_eq (hf.keeps hr).2.symm
  | none => rcases hf.takes hr (n := n) with ⟨-, h⟩ | ⟨-, h⟩ <;> omega

theorem IsLocal.id_cases
    (hf : IsLocal idOf target f) {r : ρ} {n : ℕ} (hi : idOf (f r n).record = some i) :
    idOf r = some i ∨ idOf r = none ∧ i = n ∧ (f r n).next = n + 1 := by
  cases hr : idOf r with
  | some j => exact .inl ((hf.keeps hr).1.symm.trans hi)
  | none =>
    rcases hf.takes hr (n := n) with ⟨h, -⟩ | ⟨h, hnext⟩
    · rw [h] at hi
      cases hi
    · rw [h] at hi
      exact .inr ⟨rfl, (Option.some.inj hi).symm, hnext⟩

theorem Valid.congr {s' : State κ ρ γ} (h : Valid idOf target s) (hnext : s'.next = s.next)
    (hids : ∀ k, idOf (s'.slots k) = idOf (s.slots k)) (hlog : s'.log = s.log) :
    Valid idOf target s' := by
  refine ⟨fun {k i} hi => ?_, fun {k k' i} hi hi' => ?_, fun c hc => ?_⟩
  · rw [hids] at hi
    rw [hnext]
    exact h.below hi
  · rw [hids] at hi hi'
    exact h.distinct hi hi'
  · rw [hlog] at hc
    rw [hnext]
    exact h.logged c hc

theorem Valid.commandsFor_eq_nil (h : Valid idOf target s) (hi : s.next ≤ i) :
    commandsFor target s.log i = [] := by
  refine List.filter_eq_nil_iff.mpr fun c hc hci => ?_
  have hlt := h.logged c hc
  have heq : target c = i := by simpa using hci
  omega

variable [DecidableEq κ]

def State.update (s : State κ ρ γ) (k : κ) (f : Change ρ γ) : State κ ρ γ where
  next := (f (s.slots k) s.next).next
  slots := Function.update s.slots k (f (s.slots k) s.next).record
  log := s.log ++ (f (s.slots k) s.next).commands

@[simp] theorem State.update_next : (s.update k f).next = (f (s.slots k) s.next).next := rfl

@[simp] theorem State.update_log :
    (s.update k f).log = s.log ++ (f (s.slots k) s.next).commands := rfl

@[simp] theorem State.update_slots_self : (s.update k f).slots k = (f (s.slots k) s.next).record :=
  Function.update_self _ _ _

theorem State.update_slots_of_ne (hk : k' ≠ k) : (s.update k f).slots k' = s.slots k' :=
  Function.update_of_ne hk _ _

theorem Valid.update (h : Valid idOf target s) (hf : IsLocal idOf target f) (k : κ) :
    Valid idOf target (s.update k f) := by
  have hnext : s.next ≤ (s.update k f).next := hf.next_le _ _
  have hslot : ∀ {k' i}, idOf ((s.update k f).slots k') = some i →
      idOf (s.slots k') = some i ∨ k' = k ∧ i = s.next ∧ (s.update k f).next = s.next + 1 := by
    intro k' i hi
    by_cases hk : k' = k
    · subst hk
      rw [State.update_slots_self] at hi
      rcases hf.id_cases hi with hi | ⟨-, hi, hnext⟩
      · exact .inl hi
      · exact .inr ⟨rfl, hi, hnext⟩
    · rw [State.update_slots_of_ne hk] at hi
      exact .inl hi
  refine ⟨fun {k' i} hi => ?_, fun {k' k'' i} hi hi' => ?_, fun c hc => ?_⟩
  · rcases hslot hi with hi | ⟨-, rfl, h'⟩
    · exact lt_of_lt_of_le (h.below hi) hnext
    · omega
  · rcases hslot hi with hi | ⟨hk, hnew, -⟩ <;> rcases hslot hi' with hi' | ⟨hk', hnew', -⟩
    · exact h.distinct hi hi'
    · exact absurd (h.below hi) (by omega)
    · exact absurd (h.below hi') (by omega)
    · rw [hk, hk']
  · rcases List.mem_append.mp hc with hc | hc
    · exact lt_of_lt_of_le (h.logged c hc) hnext
    · rcases hf.id_cases (hf.targets c hc) with hid | ⟨-, hid, h'⟩
      · exact lt_of_lt_of_le (h.below hid) hnext
      · rw [hid, State.update_next, h']
        exact Nat.lt_succ_self _

theorem Valid.frame (h : Valid idOf target s) (hf : IsLocal idOf target f) (hk : k' ≠ k) :
    (s.update k f).slots k' = s.slots k' ∧
      ∀ i, idOf (s.slots k') = some i →
        commandsFor target (s.update k f).log i = commandsFor target s.log i := by
  refine ⟨State.update_slots_of_ne hk, fun i hi => ?_⟩
  have hnone : commandsFor target (f (s.slots k) s.next).commands i = [] := by
    refine List.filter_eq_nil_iff.mpr fun c hc hci => ?_
    obtain rfl : target c = i := by simpa using hci
    rcases hf.id_cases (hf.targets c hc) with hid | ⟨-, hid, -⟩
    · exact hk (h.distinct hi hid)
    · exact absurd (h.below hi) (by omega)
  rw [commandsFor, State.update_log, List.filter_append, ← commandsFor, ← commandsFor, hnone,
    List.append_nil]

theorem IsLocal.changed (hf : IsLocal idOf target f) (k : κ)
    (hi : idOf ((s.update k f).slots k) = some i) :
    commandsFor target (s.update k f).log i =
      commandsFor target s.log i ++ (f (s.slots k) s.next).commands := by
  rw [State.update_slots_self] at hi
  have hall : commandsFor target (f (s.slots k) s.next).commands i =
      (f (s.slots k) s.next).commands := by
    refine List.filter_eq_self.mpr fun c hc => ?_
    have := (hf.targets c hc).symm.trans hi
    simpa using this
  rw [commandsFor, State.update_log, List.filter_append, ← commandsFor, ← commandsFor, hall]

/-- Make a list of changes. -/
def updates (s : State κ ρ γ) (changes : List (κ × Change ρ γ)) : State κ ρ γ :=
  changes.foldl (fun s change => s.update change.1 change.2) s

theorem updates_invariant {P : κ → ρ → Prop} (changes : List (κ × Change ρ γ))
    (hs : ∀ k, P k (s.slots k))
    (hchange : ∀ change ∈ changes, ∀ r n, P change.1 r → P change.1 (change.2 r n).record)
    (k : κ) : P k ((updates s changes).slots k) := by
  induction changes generalizing s with
  | nil => exact hs k
  | cons change changes ih =>
    refine ih (fun k' => ?_) fun x hx => hchange x (List.mem_cons_of_mem _ hx)
    by_cases hk : k' = change.1
    · subst hk
      rw [State.update_slots_self]
      exact hchange change (by simp) _ _ (hs _)
    · rw [State.update_slots_of_ne hk]
      exact hs k'

variable {changes : List (κ × Change ρ γ)}

theorem updates_slots_of_ne
    (hk : ∀ change ∈ changes, change.1 ≠ k) :
    (updates s changes).slots k = s.slots k := by
  induction changes generalizing s with
  | nil => rfl
  | cons change changes ih =>
    exact (ih fun x hx => hk x (List.mem_cons_of_mem _ hx)).trans
      (State.update_slots_of_ne (hk change (by simp)).symm)

theorem updates_log_invariant {P : ρ → List γ → Prop} (changes : List (κ × Change ρ γ))
    (hmore : ∀ r log commands, P r log → P r (log ++ commands)) (hs : ∀ k, P (s.slots k) s.log)
    (hchange : ∀ change ∈ changes, ∀ r n log, P r log →
      P (change.2 r n).record (log ++ (change.2 r n).commands))
    (k : κ) : P ((updates s changes).slots k) (updates s changes).log := by
  induction changes generalizing s with
  | nil => exact hs k
  | cons change changes ih =>
    refine ih (fun k' => ?_) fun x hx => hchange x (List.mem_cons_of_mem _ hx)
    by_cases hk : k' = change.1
    · subst hk
      rw [State.update_slots_self, State.update_log]
      exact hchange change (by simp) _ _ _ (hs _)
    · rw [State.update_slots_of_ne hk, State.update_log]
      exact hmore _ _ _ (hs k')

inductive Follows : List (Change ρ γ) → ρ → ρ → Prop
  | nil (r : ρ) : Follows [] r r
  | cons {f : Change ρ γ} {fs : List (Change ρ γ)} {r r' : ρ} (n : ℕ)
      (h : Follows fs (f r n).record r') : Follows (f :: fs) r r'

theorem updates_follows (s : State κ ρ γ) (changes : List (κ × Change ρ γ)) (k : κ) :
    Follows ((changes.filter fun x => x.1 = k).map Prod.snd) (s.slots k)
      ((updates s changes).slots k) := by
  induction changes generalizing s with
  | nil => exact .nil _
  | cons change changes ih =>
    have hrest := ih (s.update change.1 change.2)
    by_cases hk : change.1 = k
    · subst hk
      rw [State.update_slots_self] at hrest
      rw [List.filter_cons_of_pos (by simp), List.map_cons]
      exact .cons s.next hrest
    · rw [State.update_slots_of_ne (Ne.symm hk)] at hrest
      rw [List.filter_cons_of_neg (by simpa using hk)]
      exact hrest

theorem updates_last (pre : List (κ × Change ρ γ)) {post : List (κ × Change ρ γ)}
    (hk : ∀ change ∈ post, change.1 ≠ k) :
    ∃ n, (updates s (pre ++ (k, f) :: post)).slots k = (f ((updates s pre).slots k) n).record := by
  refine ⟨(updates s pre).next, ?_⟩
  rw [updates, List.foldl_append, List.foldl_cons, ← updates, ← updates,
    updates_slots_of_ne hk, State.update_slots_self]

theorem Valid.updates
    (h : Valid idOf target s) (hlocal : ∀ change ∈ changes, IsLocal idOf target change.2) :
    Valid idOf target (updates s changes) := by
  induction changes generalizing s with
  | nil => exact h
  | cons change changes ih =>
    exact ih (h.update (hlocal change (by simp)) change.1)
      fun x hx => hlocal x (List.mem_cons_of_mem _ hx)

theorem Valid.updates_frame
    (h : Valid idOf target s) (hlocal : ∀ change ∈ changes, IsLocal idOf target change.2)
    (hk : ∀ change ∈ changes, change.1 ≠ k) (hi : idOf (s.slots k) = some i) :
    commandsFor target (IdSlots.updates s changes).log i = commandsFor target s.log i := by
  induction changes generalizing s with
  | nil => rfl
  | cons change changes ih =>
    have hf := hlocal change (by simp)
    obtain ⟨hslot, hlog⟩ := h.frame hf (hk change (by simp)).symm
    have hrest := ih (h.update hf change.1) (fun x hx => hlocal x (List.mem_cons_of_mem _ hx))
      (fun x hx => hk x (List.mem_cons_of_mem _ hx)) (hslot ▸ hi)
    exact hrest.trans (hlog i hi)

/-- Changes of different slots do not interfere. -/
theorem Valid.updates_spec
    (h : Valid idOf target s) (hlocal : ∀ change ∈ changes, IsLocal idOf target change.2)
    (hdistinct : (changes.map Prod.fst).Nodup) (hmem : (k, f) ∈ changes) :
    ∃ n, s.next ≤ n ∧
      (IdSlots.updates s changes).slots k = (f (s.slots k) n).record ∧
      ∀ i, idOf ((IdSlots.updates s changes).slots k) = some i →
        commandsFor target (IdSlots.updates s changes).log i =
          commandsFor target s.log i ++ (f (s.slots k) n).commands := by
  induction changes generalizing s with
  | nil => simp at hmem
  | cons change changes ih =>
    rw [List.map_cons, List.nodup_cons] at hdistinct
    have hf := hlocal change (by simp)
    have hvalid := h.update hf change.1
    have hrest : ∀ x ∈ changes, IsLocal idOf target x.2 :=
      fun x hx => hlocal x (List.mem_cons_of_mem _ hx)
    rcases List.mem_cons.mp hmem with rfl | hmem
    · have hne : ∀ x ∈ changes, x.1 ≠ k := fun x hx hxk =>
        hdistinct.1 (List.mem_map.mpr ⟨x, hx, hxk⟩)
      have hslot : (IdSlots.updates (s.update k f) changes).slots k = (s.update k f).slots k :=
        updates_slots_of_ne hne
      refine ⟨s.next, le_rfl, hslot.trans State.update_slots_self, fun i hi => ?_⟩
      have hi' : idOf ((s.update k f).slots k) = some i := hslot ▸ hi
      exact (hvalid.updates_frame hrest hne hi').trans (hf.changed k hi')
    · have hne : k ≠ change.1 := fun hk =>
        hdistinct.1 (List.mem_map.mpr ⟨_, hmem, hk⟩)
      obtain ⟨n, hn, hslot, hlog⟩ := ih hvalid hrest hdistinct.2 hmem
      obtain ⟨hslot', hlog'⟩ := h.frame hf hne
      rw [hslot'] at hslot hlog
      refine ⟨n, le_trans (hf.next_le _ _) hn, hslot, fun i hi => ?_⟩
      have hold : commandsFor target (s.update change.1 change.2).log i =
          commandsFor target s.log i := by
        have hid : idOf (f (s.slots k) n).record = some i := hslot ▸ hi
        rcases (hrest _ hmem).id_cases hid with hid | ⟨-, rfl, -⟩
        · exact hlog' i hid
        · rw [hvalid.commandsFor_eq_nil hn, h.commandsFor_eq_nil (le_trans (hf.next_le _ _) hn)]
      exact (hlog i hi).trans (congrArg (· ++ (f (s.slots k) n).commands) hold)

end IdSlots
end HeypAgents
