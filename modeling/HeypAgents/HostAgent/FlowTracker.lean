import HeypAgents.Lib.MapValues
import HeypAgents.Flows.FlowAggregator
import HeypAgents.Flows.LeafState

/-!
# The flow tracker

`FlowTracker` keeps the state of every connection of the host.  A connection is active
until it is finalized, or until its counter falls, which means that its addresses and
ports are used by another connection; then its state is done.

The loop of `UpdateFlows` does not advance when it retires a state, so it is given a
number of iterations.  Two for each update are enough if it ends at all.
-/

namespace HeypAgents

open Flows MapValues

inductive FlowPri where
  | unset
  | hi
  | lo
deriving DecidableEq, Repr

/-- `EqHostFlowNoId`. -/
def eqHostFlowNoId (lhs rhs : FlowMarker) : Bool :=
  isSameFlow lhs rhs { cmpFg := false, cmpJob := false, cmpSeqnum := false }

def hostFlowKey (flow : FlowMarker) : FlowMarker :=
  { flow with srcDc := "", dstDc := "", job := "", seqnum := 0 }

theorem eqHostFlowNoId_iff {lhs rhs : FlowMarker} :
    eqHostFlowNoId lhs rhs = true ↔ hostFlowKey lhs = hostFlowKey rhs := by
  simp only [eqHostFlowNoId, isSameFlow, hostFlowKey, FlowMarker.mk.injEq]
  simp only [Bool.not_true, Bool.not_false, Bool.true_or, Bool.false_or, Bool.true_and,
    Bool.and_true, Bool.and_eq_true, beq_iff_eq, true_and, and_true, and_assoc]

structure FlowTracker.Config where
  usageHistoryWindow : ℚ := 120
  ignoreInstantaneousUsage : Bool := false
deriving DecidableEq, Repr

structure FlowTracker.Update where
  flow : FlowMarker
  instantaneousUsageBps : ℤ := 0
  cumUsageBytes : ℤ
  usedPriority : FlowPri := .unset
deriving DecidableEq, Repr

/-- The keys of `activeFlows` are those of the flows. -/
structure FlowTracker where
  config : FlowTracker.Config
  demandPredictor : DemandPredictor
  nextSeqnum : UInt64 := 0
  activeFlows : FlowMap LeafState := ∅
  doneFlows : List LeafState := []

namespace FlowTracker

def create (demandPredictor : DemandPredictor) (config : Config) : FlowTracker where
  config := config
  demandPredictor := demandPredictor

variable (t : FlowTracker) (timestamp : ℚ)

/-- The states that `ForEachFlow` visits. -/
def flows : List LeafState := values t.activeFlows ++ t.doneFlows

def createLeafState (flow : FlowMarker) (seqnum : UInt64) : LeafState :=
  .create { flow with seqnum := seqnum }

def setState (flow : FlowMarker) (state : LeafState) : FlowTracker :=
  { t with activeFlows := t.activeFlows.insert (hostFlowKey flow) state }

/-- The state of a flow becomes done. -/
def retire (flow : FlowMarker) (state : LeafState) : FlowTracker :=
  { t with
    activeFlows := t.activeFlows.erase (hostFlowKey flow)
    doneFlows := t.doneFlows ++ [state] }

/--
A new state for a flow.  No state is ever dropped, and there is no memory for 2 ^ 64 of
them: `none` is a failed allocation.
-/
def emplace (flow : FlowMarker) : Option (FlowTracker × LeafState) :=
  if t.flows.length + 1 < 2 ^ 64 then
    let state := createLeafState flow (t.nextSeqnum + 1)
    some ({ t.setState flow state with nextSeqnum := t.nextSeqnum + 1 }, state)
  else none

def getOrEmplace (flow : FlowMarker) : Option (FlowTracker × LeafState) :=
  match t.activeFlows.lookup (hostFlowKey flow) with
  | some state => some (t, state)
  | none => t.emplace flow

def leafUpdate (u : Update) (isLopri : Bool) : LeafState.Update where
  time := timestamp
  cumUsageBytes := u.cumUsageBytes
  instantaneousUsageBps :=
    if t.config.ignoreInstantaneousUsage then 0 else u.instantaneousUsageBps
  isLopri := isLopri

def updateState (state : LeafState) (u : Update) (isLopri : Bool) : Option LeafState :=
  state.updateUsage (t.leafUpdate timestamp u isLopri) t.config.usageHistoryWindow t.demandPredictor

/-- One iteration of the loop of `UpdateFlows`, and whether it advances. -/
def updateStep (u : Update) : Option (FlowTracker × Bool) := do
  let (t, state) ← t.getOrEmplace u.flow
  if state.cur.cumUsageBytes > u.cumUsageBytes then
    return (t.retire u.flow state, false)
  else if u.usedPriority = .unset then none
  else
    let state ← t.updateState timestamp state u (u.usedPriority == .lo)
    return (t.setState u.flow state, true)

def updateLoop : ℕ → FlowTracker → List Update → Option (FlowTracker × List Update)
  | _, t, [] => some (t, [])
  | 0, t, u :: batch => some (t, u :: batch)
  | n + 1, t, u :: batch => do
      let (t, advances) ← t.updateStep timestamp u
      updateLoop n t (if advances then batch else u :: batch)

/-- `none` when a check fails or the loop does not end. -/
def updateFlows (batch : List Update) : Option FlowTracker :=
  match updateLoop timestamp (2 * batch.length) t batch with
  | some (t, []) => some t
  | _ => none

/-- One iteration of the loop of `FinalizeFlows`. -/
def finalizeFlow (t : FlowTracker) (u : Update) : Option FlowTracker := do
  let (t, state) ← t.getOrEmplace u.flow
  let isLopri := u.usedPriority == .lo || (u.usedPriority == .unset && state.cur.currentlyLopri)
  let state ← t.updateState timestamp state u isLopri
  return t.retire u.flow state

def finalizeFlows (batch : List Update) : Option FlowTracker :=
  batch.foldlM (finalizeFlow timestamp) t

section Loop

variable {t : FlowTracker} {timestamp : ℚ} {u : Update} {t' : FlowTracker}

@[simp] theorem lookup_retire (flow : FlowMarker) (state : LeafState) :
    (t.retire flow state).activeFlows.lookup (hostFlowKey flow) = none :=
  AList.lookup_erase _ _

theorem getOrEmplace_of_none (h : t.activeFlows.lookup (hostFlowKey u.flow) = none) :
    t.getOrEmplace u.flow = t.emplace u.flow := by
  simp only [getOrEmplace, h]

/-- An iteration retires a state with a larger counter, or updates it. -/
theorem updateStep_eq_some_iff {advances : Bool} :
    t.updateStep timestamp u = some (t', advances) ↔
      ∃ t₁ state, t.getOrEmplace u.flow = some (t₁, state) ∧
        (u.cumUsageBytes < state.cur.cumUsageBytes ∧ advances = false ∧
            t' = t₁.retire u.flow state ∨
          state.cur.cumUsageBytes ≤ u.cumUsageBytes ∧ advances = true ∧
            u.usedPriority ≠ .unset ∧ ∃ state',
              t₁.updateState timestamp state u (u.usedPriority == .lo) = some state' ∧
              t' = t₁.setState u.flow state') := by
  cases hget : t.getOrEmplace u.flow with
  | none => simp [updateStep, hget]
  | some found =>
    obtain ⟨t₁, state⟩ := found
    simp only [updateStep, hget, Option.bind_eq_bind, Option.bind_some, Option.pure_def]
    constructor
    · intro h
      refine ⟨t₁, state, rfl, ?_⟩
      split_ifs at h with hlt hunset
      · cases h
        exact .inl ⟨hlt, rfl, rfl⟩
      · obtain ⟨state', hstate', hrest⟩ := Option.bind_eq_some_iff.mp h
        cases hrest
        exact .inr ⟨not_lt.mp hlt, rfl, hunset, state', hstate', rfl⟩
    · rintro ⟨t₁', state', hfound, hcase⟩
      cases hfound
      rcases hcase with ⟨hlt, rfl, rfl⟩ | ⟨hle, rfl, hset, state', hstate', rfl⟩
      · rw [if_pos hlt]
      · rw [if_neg (not_lt.mpr hle), if_neg hset, hstate', Option.bind_some]

theorem cumUsageBytes_of_getOrEmplace {t₁ : FlowTracker} {state : LeafState}
    (hnone : t.activeFlows.lookup (hostFlowKey u.flow) = none)
    (hget : t.getOrEmplace u.flow = some (t₁, state)) : state.cur.cumUsageBytes = 0 := by
  rw [getOrEmplace_of_none hnone, emplace] at hget
  split_ifs at hget
  cases hget
  rfl

/-- The loop is stuck at a negative counter of a flow without a state. -/
theorem updateLoop_of_neg (hneg : u.cumUsageBytes < 0) (batch : List Update) (n : ℕ)
    (hnone : t.activeFlows.lookup (hostFlowKey u.flow) = none) :
    updateLoop timestamp n t (u :: batch) ≠ some (t', []) := by
  induction n generalizing t with
  | zero => simp [updateLoop]
  | succ n ih =>
    intro hloop
    simp only [updateLoop, Option.bind_eq_bind, Option.bind_eq_some_iff, Prod.exists] at hloop
    obtain ⟨t₂, advances, hstep, hloop⟩ := hloop
    obtain ⟨t₁, state, hget, hcase⟩ := updateStep_eq_some_iff.mp hstep
    have hzero := cumUsageBytes_of_getOrEmplace hnone hget
    rcases hcase with ⟨-, rfl, rfl⟩ | ⟨hle, -⟩
    · exact ih (lookup_retire _ _) hloop
    · omega

def absorb (timestamp : ℚ) (t : FlowTracker) (u : Update) : Option FlowTracker :=
  (t.updateStep timestamp u).bind fun first =>
    if first.2 then some first.1
    else (first.1.updateStep timestamp u).bind fun second =>
      if second.2 then some second.1 else none

theorem absorb_eq_some_iff :
    t.absorb timestamp u = some t' ↔
      t.updateStep timestamp u = some (t', true) ∨
        ∃ t₁, t.updateStep timestamp u = some (t₁, false) ∧
          t₁.updateStep timestamp u = some (t', true) := by
  simp only [absorb, Option.bind_eq_some_iff]
  constructor
  · rintro ⟨⟨t₁, advances⟩, hstep, h⟩
    cases advances with
    | true =>
      cases h
      exact .inl hstep
    | false =>
      obtain ⟨⟨t₂, advances⟩, hstep', h⟩ := Option.bind_eq_some_iff.mp h
      cases advances <;> cases h
      exact .inr ⟨t₁, hstep, hstep'⟩
  · rintro (hstep | ⟨t₁, hstep, hstep'⟩)
    · exact ⟨_, hstep, rfl⟩
    · exact ⟨_, hstep, Option.bind_eq_some_iff.mpr ⟨_, hstep', rfl⟩⟩

theorem updateLoop_succ_cons {n : ℕ} {batch : List Update} :
    updateLoop timestamp (n + 1) t (u :: batch) = some (t', []) ↔
      (∃ t₁, t.updateStep timestamp u = some (t₁, true) ∧
          updateLoop timestamp n t₁ batch = some (t', [])) ∨
        ∃ t₁, t.updateStep timestamp u = some (t₁, false) ∧
          updateLoop timestamp n t₁ (u :: batch) = some (t', []) := by
  simp only [updateLoop, Option.bind_eq_bind, Option.bind_eq_some_iff, Prod.exists,
    Bool.exists_bool, exists_or]
  exact or_comm

theorem exists_second_step {t₁ : FlowTracker} {n : ℕ} {batch : List Update}
    (hstep : t.updateStep timestamp u = some (t₁, false))
    (hloop : updateLoop timestamp n t₁ (u :: batch) = some (t', [])) :
    ∃ m t₂, n = m + 1 ∧ t₁.updateStep timestamp u = some (t₂, true) ∧
      updateLoop timestamp m t₂ batch = some (t', []) := by
  have hnone : t₁.activeFlows.lookup (hostFlowKey u.flow) = none := by
    obtain ⟨t₀, state, -, ⟨-, -, rfl⟩ | ⟨-, hfalse, -⟩⟩ := updateStep_eq_some_iff.mp hstep
    · exact lookup_retire _ _
    · cases hfalse
  cases n with
  | zero => simp [updateLoop] at hloop
  | succ m =>
    rcases updateLoop_succ_cons.mp hloop with ⟨t₂, hstep', hrest⟩ | ⟨t₂, hstep', hrest⟩
    · exact ⟨m, t₂, rfl, hstep', hrest⟩
    · obtain ⟨t₀, state, hget, ⟨hlt, -, rfl⟩ | ⟨-, hfalse, -⟩⟩ :=
        updateStep_eq_some_iff.mp hstep'
      · rw [cumUsageBytes_of_getOrEmplace hnone hget] at hlt
        exact absurd hrest (updateLoop_of_neg hlt batch m (lookup_retire _ _))
      · cases hfalse

/-- The loop ends with what the updates make of the tracker one after the other. -/
theorem foldlM_absorb_of_updateLoop {n : ℕ} {batch : List Update}
    (h : updateLoop timestamp n t batch = some (t', [])) :
    batch.foldlM (absorb timestamp) t = some t' := by
  induction batch generalizing n t with
  | nil =>
    cases n <;> cases h <;> rfl
  | cons u batch ih =>
    cases n with
    | zero => simp [updateLoop] at h
    | succ n =>
      rw [List.foldlM_cons, Option.bind_eq_bind, Option.bind_eq_some_iff]
      rcases updateLoop_succ_cons.mp h with ⟨t₁, hstep, hrest⟩ | ⟨t₁, hstep, hrest⟩
      · exact ⟨t₁, absorb_eq_some_iff.mpr (.inl hstep), ih hrest⟩
      · obtain ⟨m, t₂, -, hstep', hrest⟩ := exists_second_step hstep hrest
        exact ⟨t₂, absorb_eq_some_iff.mpr (.inr ⟨t₁, hstep, hstep'⟩), ih hrest⟩

theorem updateLoop_of_foldlM_absorb {n : ℕ} {batch : List Update}
    (h : batch.foldlM (absorb timestamp) t = some t') (hn : 2 * batch.length ≤ n) :
    updateLoop timestamp n t batch = some (t', []) := by
  induction batch generalizing n t with
  | nil =>
    cases h
    cases n <;> rfl
  | cons u batch ih =>
    rw [List.foldlM_cons, Option.bind_eq_bind, Option.bind_eq_some_iff] at h
    obtain ⟨t₂, hfirst, hrest⟩ := h
    rw [List.length_cons] at hn
    obtain ⟨m, rfl⟩ : ∃ m, n = m + 1 + 1 := ⟨n - 2, by omega⟩
    refine updateLoop_succ_cons.mpr ?_
    rcases absorb_eq_some_iff.mp hfirst with hstep | ⟨t₁, hstep, hstep'⟩
    · exact .inl ⟨t₂, hstep, ih hrest (by omega)⟩
    · exact .inr ⟨t₁, hstep, updateLoop_succ_cons.mpr (.inl ⟨t₂, hstep', ih hrest (by omega)⟩)⟩

theorem updateFlows_eq_some_iff {batch : List Update} :
    t.updateFlows timestamp batch = some t' ↔ batch.foldlM (absorb timestamp) t = some t' := by
  have hloop : t.updateFlows timestamp batch = some t' ↔
      updateLoop timestamp (2 * batch.length) t batch = some (t', []) := by
    unfold updateFlows
    split <;> simp_all
  rw [hloop]
  exact ⟨foldlM_absorb_of_updateLoop, fun h => updateLoop_of_foldlM_absorb h le_rfl⟩

theorem exists_updateLoop_iff {batch : List Update} :
    (∃ n, updateLoop timestamp n t batch = some (t', [])) ↔
      t.updateFlows timestamp batch = some t' := by
  rw [updateFlows_eq_some_iff]
  exact ⟨fun ⟨_, h⟩ => foldlM_absorb_of_updateLoop h,
    fun h => ⟨_, updateLoop_of_foldlM_absorb h le_rfl⟩⟩

end Loop

section Memory

variable {t t' t₁ : FlowTracker} {timestamp : ℚ} {flow : FlowMarker} {state state' : LeafState}
  {u : Update}

theorem perm_flows_setState (h : t.activeFlows.lookup (hostFlowKey flow) = some state) :
    (state :: (t.setState flow state').flows).Perm (state' :: t.flows) := by
  have herase := (values_erase_of_some h).append_right t.doneFlows
  rw [flows, setState, values_insert]
  exact (List.Perm.swap _ _ _).trans (herase.cons state')

theorem perm_flows_retire (h : t.activeFlows.lookup (hostFlowKey flow) = some state) :
    (state :: (t.retire flow state').flows).Perm (state' :: t.flows) := by
  have herase := (values_erase_of_some h).append_right (t.doneFlows ++ [state'])
  have hlast : (values t.activeFlows ++ (t.doneFlows ++ [state'])).Perm (state' :: t.flows) := by
    rw [← List.append_assoc]
    exact List.perm_append_singleton _ _
  exact herase.trans hlast

theorem length_setState (h : t.activeFlows.lookup (hostFlowKey flow) = some state)
    (state' : LeafState) : (t.setState flow state').flows.length = t.flows.length :=
  Nat.succ_injective (perm_flows_setState h).length_eq

theorem length_retire (h : t.activeFlows.lookup (hostFlowKey flow) = some state)
    (state' : LeafState) : (t.retire flow state').flows.length = t.flows.length :=
  Nat.succ_injective (perm_flows_retire h).length_eq

theorem getOrEmplace_cases (hget : t.getOrEmplace flow = some (t₁, state)) :
    t₁.activeFlows.lookup (hostFlowKey flow) = some state ∧
      (t₁ = t ∨ state.cur.cumUsageBytes = 0 ∧ t₁.flows.length = t.flows.length + 1) := by
  unfold getOrEmplace at hget
  split at hget
  · rename_i found hfound
    cases hget
    exact ⟨hfound, .inl rfl⟩
  · rename_i hnone
    unfold emplace at hget
    split_ifs at hget
    cases hget
    refine ⟨AList.lookup_insert _, .inr ⟨rfl, ?_⟩⟩
    rw [flows, setState, values_insert, values_erase_of_none hnone]
    rfl

theorem length_getOrEmplace_le (hget : t.getOrEmplace flow = some (t₁, state)) :
    t₁.flows.length ≤ t.flows.length + 1 := by
  rcases (getOrEmplace_cases hget).2 with rfl | ⟨-, hlength⟩
  · exact Nat.le_succ _
  · exact hlength.le

theorem length_retired (hnonneg : 0 ≤ u.cumUsageBytes)
    (hget : t.getOrEmplace u.flow = some (t₁, state))
    (hlt : u.cumUsageBytes < state.cur.cumUsageBytes) :
    (t₁.retire u.flow state).flows.length = t.flows.length := by
  obtain ⟨hlookup, rfl | ⟨hzero, -⟩⟩ := getOrEmplace_cases hget
  · exact length_retire hlookup state
  · omega

theorem length_updateStep_le (hstep : t.updateStep timestamp u = some (t', true)) :
    t'.flows.length ≤ t.flows.length + 1 := by
  obtain ⟨t₁, state, hget, ⟨-, hfalse, -⟩ | ⟨-, -, -, state', -, rfl⟩⟩ :=
    updateStep_eq_some_iff.mp hstep
  · cases hfalse
  · rw [length_setState (getOrEmplace_cases hget).1]
    exact length_getOrEmplace_le hget

theorem length_absorb_le (hnonneg : 0 ≤ u.cumUsageBytes)
    (habsorb : t.absorb timestamp u = some t') : t'.flows.length ≤ t.flows.length + 1 := by
  rcases absorb_eq_some_iff.mp habsorb with hstep | ⟨t₁, hstep, hstep'⟩
  · exact length_updateStep_le hstep
  · obtain ⟨t₀, state, hget, ⟨hlt, -, rfl⟩ | ⟨-, hfalse, -⟩⟩ := updateStep_eq_some_iff.mp hstep
    · rw [← length_retired hnonneg hget hlt]
      exact length_updateStep_le hstep'
    · cases hfalse

theorem finalizeFlow_eq_some_iff :
    t.finalizeFlow timestamp u = some t' ↔
      ∃ t₁ state, t.getOrEmplace u.flow = some (t₁, state) ∧ ∃ state',
        t₁.updateState timestamp state u (u.usedPriority == .lo ||
          (u.usedPriority == .unset && state.cur.currentlyLopri)) = some state' ∧
        t' = t₁.retire u.flow state' := by
  simp only [finalizeFlow, Option.bind_eq_bind, Option.bind_eq_some_iff, Prod.exists,
    Option.pure_def, Option.some.injEq, @eq_comm _ t']

theorem length_finalizeFlow_le (hfinalize : t.finalizeFlow timestamp u = some t') :
    t'.flows.length ≤ t.flows.length + 1 := by
  obtain ⟨t₁, state, hget, state', -, rfl⟩ := finalizeFlow_eq_some_iff.mp hfinalize
  rw [length_retire (getOrEmplace_cases hget).1]
  exact length_getOrEmplace_le hget

theorem exists_getOrEmplace (hmemory : t.flows.length + 1 < 2 ^ 64) (flow : FlowMarker) :
    ∃ t₁ state, t.getOrEmplace flow = some (t₁, state) := by
  unfold getOrEmplace
  split
  · exact ⟨_, _, rfl⟩
  · rw [emplace, if_pos hmemory]
    exact ⟨_, _, rfl⟩

theorem exists_updateState (t : FlowTracker) (timestamp : ℚ) (state : LeafState) (u : Update)
    (isLopri : Bool) : ∃ state', t.updateState timestamp state u isLopri = some state' := by
  obtain ⟨state', hstate', -⟩ := state.exists_updateUsage (t.leafUpdate timestamp u isLopri)
    t.config.usageHistoryWindow t.demandPredictor
  exact ⟨state', hstate'⟩

theorem exists_absorb (timestamp : ℚ) (hnonneg : 0 ≤ u.cumUsageBytes)
    (hset : u.usedPriority ≠ .unset) (hmemory : t.flows.length + 1 < 2 ^ 64) :
    ∃ t', t.absorb timestamp u = some t' := by
  obtain ⟨t₁, state, hget⟩ := exists_getOrEmplace hmemory u.flow
  by_cases hlt : u.cumUsageBytes < state.cur.cumUsageBytes
  · have hretired : t.updateStep timestamp u = some (t₁.retire u.flow state, false) :=
      updateStep_eq_some_iff.mpr ⟨t₁, state, hget, .inl ⟨hlt, rfl, rfl⟩⟩
    rw [← length_retired hnonneg hget hlt] at hmemory
    obtain ⟨t₂, fresh, hget'⟩ := exists_getOrEmplace hmemory u.flow
    have hzero := cumUsageBytes_of_getOrEmplace (lookup_retire u.flow state) hget'
    obtain ⟨state', hstate'⟩ := t₂.exists_updateState timestamp fresh u (u.usedPriority == .lo)
    exact ⟨_, absorb_eq_some_iff.mpr (.inr ⟨_, hretired, updateStep_eq_some_iff.mpr
      ⟨t₂, fresh, hget', .inr ⟨hzero.trans_le hnonneg, rfl, hset, state', hstate', rfl⟩⟩⟩)⟩
  · obtain ⟨state', hstate'⟩ := t₁.exists_updateState timestamp state u (u.usedPriority == .lo)
    exact ⟨_, absorb_eq_some_iff.mpr (.inl (updateStep_eq_some_iff.mpr
      ⟨t₁, state, hget, .inr ⟨not_lt.mp hlt, rfl, hset, state', hstate', rfl⟩⟩))⟩

theorem exists_finalizeFlow (timestamp : ℚ) (u : Update)
    (hmemory : t.flows.length + 1 < 2 ^ 64) : ∃ t', t.finalizeFlow timestamp u = some t' := by
  obtain ⟨t₁, state, hget⟩ := exists_getOrEmplace hmemory u.flow
  obtain ⟨state', hstate'⟩ := t₁.exists_updateState timestamp state u
    (u.usedPriority == .lo || (u.usedPriority == .unset && state.cur.currentlyLopri))
  exact ⟨_, finalizeFlow_eq_some_iff.mpr ⟨t₁, state, hget, state', hstate', rfl⟩⟩

theorem exists_foldlM {step : FlowTracker → Update → Option FlowTracker} {batch : List Update}
    (hstep : ∀ t : FlowTracker, ∀ u ∈ batch, t.flows.length + 1 < 2 ^ 64 →
      ∃ t', step t u = some t' ∧ t'.flows.length ≤ t.flows.length + 1)
    (hmemory : t.flows.length + batch.length < 2 ^ 64) : ∃ t', batch.foldlM step t = some t' := by
  induction batch generalizing t with
  | nil => exact ⟨t, rfl⟩
  | cons u batch ih =>
    rw [List.length_cons] at hmemory
    obtain ⟨t₁, hfirst, hlength⟩ := hstep t u List.mem_cons_self (by omega)
    have hroom : t₁.flows.length + batch.length < 2 ^ 64 := by omega
    obtain ⟨t', hrest⟩ := ih (fun t u hu => hstep t u (List.mem_cons_of_mem _ hu)) hroom
    exact ⟨t', by rw [List.foldlM_cons, hfirst]; exact hrest⟩

/-- A call returns if no counter is negative and there is memory for its states. -/
theorem exists_updateFlows (timestamp : ℚ) {batch : List Update}
    (hvalid : ∀ u ∈ batch, 0 ≤ u.cumUsageBytes ∧ u.usedPriority ≠ .unset)
    (hmemory : t.flows.length + batch.length < 2 ^ 64) :
    ∃ t', t.updateFlows timestamp batch = some t' := by
  simp only [updateFlows_eq_some_iff]
  refine exists_foldlM (fun t u hu hroom => ?_) hmemory
  obtain ⟨hnonneg, hset⟩ := hvalid u hu
  obtain ⟨t', habsorb⟩ := exists_absorb timestamp hnonneg hset hroom
  exact ⟨t', habsorb, length_absorb_le hnonneg habsorb⟩

theorem exists_finalizeFlows (timestamp : ℚ) {batch : List Update}
    (hmemory : t.flows.length + batch.length < 2 ^ 64) :
    ∃ t', t.finalizeFlows timestamp batch = some t' := by
  refine exists_foldlM (fun t u _ hroom => ?_) hmemory
  obtain ⟨t', hfinalize⟩ := exists_finalizeFlow timestamp u hroom
  exact ⟨t', hfinalize, length_finalizeFlow_le hfinalize⟩

/-- A call that returns got no negative counter, as no usage is negative. -/
theorem nonneg_of_updateFlows {batch : List Update}
    (h : t.updateFlows timestamp batch = some t') : ∀ u ∈ batch, 0 ≤ u.cumUsageBytes := by
  have hstep : ∀ {t t' : FlowTracker} {u : Update},
      t.updateStep timestamp u = some (t', true) → 0 ≤ u.cumUsageBytes := by
    intro t t' u hstep
    obtain ⟨t₁, state, -, ⟨-, hfalse, -⟩ | ⟨hle, -⟩⟩ := updateStep_eq_some_iff.mp hstep
    · cases hfalse
    · exact state.nonneg.trans hle
  rw [updateFlows_eq_some_iff] at h
  induction batch generalizing t with
  | nil => simp
  | cons u batch ih =>
    rw [List.foldlM_cons, Option.bind_eq_bind, Option.bind_eq_some_iff] at h
    obtain ⟨t₁, habsorb, hrest⟩ := h
    refine List.forall_mem_cons.mpr ⟨?_, ih hrest⟩
    rcases absorb_eq_some_iff.mp habsorb with hfirst | ⟨_, -, hsecond⟩
    · exact hstep hfirst
    · exact hstep hsecond

end Memory

section Evolution

variable {t t' t₁ t₂ : FlowTracker} {timestamp : ℚ} {isNew : FlowMarker → Prop}
  {state state' : LeafState} {u : Update}

structure Evolves (isNew : FlowMarker → Prop) (t t' : FlowTracker) : Prop where
  kept : ∀ state ∈ t.flows, ∃ state' ∈ t'.flows, state'.flow = state.flow ∧
    state.cur.cumHipriUsageBytes ≤ state'.cur.cumHipriUsageBytes ∧
    state.cur.cumLopriUsageBytes ≤ state'.cur.cumLopriUsageBytes
  origin : ∀ state' ∈ t'.flows, (∃ state ∈ t.flows, state'.flow = state.flow) ∨ isNew state'.flow

theorem Evolves.refl (t : FlowTracker) : Evolves isNew t t :=
  ⟨fun state hstate => ⟨state, hstate, rfl, le_rfl, le_rfl⟩,
    fun state hstate => .inl ⟨state, hstate, rfl⟩⟩

theorem Evolves.trans (h : Evolves isNew t t₁) (h' : Evolves isNew t₁ t₂) : Evolves isNew t t₂ := by
  refine ⟨fun state hstate => ?_, fun state hstate => ?_⟩
  · obtain ⟨state₁, hstate₁, hflow, hhipri, hlopri⟩ := h.kept state hstate
    obtain ⟨state₂, hstate₂, hflow', hhipri', hlopri'⟩ := h'.kept state₁ hstate₁
    exact ⟨state₂, hstate₂, hflow'.trans hflow, hhipri.trans hhipri', hlopri.trans hlopri'⟩
  · rcases h'.origin state hstate with ⟨state₁, hstate₁, hflow⟩ | hnew
    · rw [hflow]
      exact h.origin state₁ hstate₁
    · exact .inr hnew

theorem Evolves.of_perm (hstate : state ∈ t.flows) (hflow : state'.flow = state.flow)
    (hhipri : state.cur.cumHipriUsageBytes ≤ state'.cur.cumHipriUsageBytes)
    (hlopri : state.cur.cumLopriUsageBytes ≤ state'.cur.cumLopriUsageBytes)
    (hperm : (state :: t'.flows).Perm (state' :: t.flows)) : Evolves isNew t t' := by
  by_cases hsame : state' = state
  · subst hsame
    have hflows := List.Perm.cons_inv hperm
    exact ⟨fun old hold => ⟨old, hflows.mem_iff.mpr hold, rfl, le_rfl, le_rfl⟩,
      fun new hnew => .inl ⟨new, hflows.mem_iff.mp hnew, rfl⟩⟩
  · refine ⟨fun old hold => ?_, fun new hnew => .inl ?_⟩
    · rcases List.mem_cons.mp (hperm.mem_iff.mpr (List.mem_cons_of_mem _ hold)) with rfl | hold'
      · have hmem : state' ∈ old :: t'.flows := hperm.mem_iff.mpr List.mem_cons_self
        exact ⟨state', (List.mem_cons.mp hmem).resolve_left hsame, hflow, hhipri, hlopri⟩
      · exact ⟨old, hold', rfl, le_rfl, le_rfl⟩
    · rcases List.mem_cons.mp (hperm.mem_iff.mp (List.mem_cons_of_mem _ hnew)) with rfl | hnew'
      · exact ⟨state, hstate, hflow⟩
      · exact ⟨new, hnew', rfl⟩

theorem mem_flows_of_lookup {key : FlowMarker} (h : t.activeFlows.lookup key = some state) :
    state ∈ t.flows :=
  List.mem_append_left _ (List.mem_map.mpr ⟨⟨key, state⟩, AList.mem_lookup_iff.mp h, rfl⟩)

theorem evolves_getOrEmplace (hnew : ∀ seqnum, isNew { u.flow with seqnum := seqnum })
    (hget : t.getOrEmplace u.flow = some (t₁, state)) : Evolves isNew t t₁ := by
  unfold getOrEmplace at hget
  split at hget
  · cases hget
    exact .refl t
  · rename_i hnone
    unfold emplace at hget
    split_ifs at hget
    cases hget
    have hflows : (t.setState u.flow (createLeafState u.flow (t.nextSeqnum + 1))).flows =
        createLeafState u.flow (t.nextSeqnum + 1) :: t.flows := by
      rw [flows, setState, values_insert, values_erase_of_none hnone]
      rfl
    refine ⟨fun old hold => ⟨old, ?_, rfl, le_rfl, le_rfl⟩, fun new hmem => ?_⟩
    · exact hflows ▸ List.mem_cons_of_mem _ hold
    · rcases List.mem_cons.mp (hflows ▸ hmem : new ∈ _ :: t.flows) with rfl | hold
      · exact .inr (hnew _)
      · exact .inl ⟨new, hold, rfl⟩

theorem evolves_updateStep {advances : Bool}
    (hnew : ∀ seqnum, isNew { u.flow with seqnum := seqnum })
    (hstep : t.updateStep timestamp u = some (t', advances)) : Evolves isNew t t' := by
  obtain ⟨t₁, state, hget, hcase⟩ := updateStep_eq_some_iff.mp hstep
  have hlookup := (getOrEmplace_cases hget).1
  refine (evolves_getOrEmplace hnew hget).trans ?_
  rcases hcase with ⟨-, -, rfl⟩ | ⟨-, -, -, state', hstate', rfl⟩
  · exact .of_perm (mem_flows_of_lookup hlookup) rfl le_rfl le_rfl (perm_flows_retire hlookup)
  · obtain ⟨hflow, hhipri, hlopri⟩ := LeafState.of_updateUsage hstate'
    exact .of_perm (mem_flows_of_lookup hlookup) hflow hhipri hlopri (perm_flows_setState hlookup)

theorem evolves_absorb (hnew : ∀ seqnum, isNew { u.flow with seqnum := seqnum })
    (habsorb : t.absorb timestamp u = some t') : Evolves isNew t t' := by
  rcases absorb_eq_some_iff.mp habsorb with hstep | ⟨t₁, hstep, hstep'⟩
  · exact evolves_updateStep hnew hstep
  · exact (evolves_updateStep hnew hstep).trans (evolves_updateStep hnew hstep')

theorem evolves_finalizeFlow (hnew : ∀ seqnum, isNew { u.flow with seqnum := seqnum })
    (hfinalize : t.finalizeFlow timestamp u = some t') : Evolves isNew t t' := by
  obtain ⟨t₁, state, hget, state', hstate', rfl⟩ := finalizeFlow_eq_some_iff.mp hfinalize
  have hlookup := (getOrEmplace_cases hget).1
  obtain ⟨hflow, hhipri, hlopri⟩ := LeafState.of_updateUsage hstate'
  exact (evolves_getOrEmplace hnew hget).trans (.of_perm (mem_flows_of_lookup hlookup) hflow
    hhipri hlopri (perm_flows_retire hlookup))

theorem evolves_foldlM {step : FlowTracker → Update → Option FlowTracker} {batch : List Update}
    (hstep : ∀ t t' : FlowTracker, ∀ u ∈ batch, step t u = some t' → Evolves isNew t t')
    (hrun : batch.foldlM step t = some t') : Evolves isNew t t' := by
  induction batch generalizing t with
  | nil =>
    cases hrun
    exact .refl _
  | cons u batch ih =>
    rw [List.foldlM_cons, Option.bind_eq_bind, Option.bind_eq_some_iff] at hrun
    obtain ⟨t₁, hfirst, hrest⟩ := hrun
    exact (hstep t t₁ u List.mem_cons_self hfirst).trans
      (ih (fun t t' u hu => hstep t t' u (List.mem_cons_of_mem _ hu)) hrest)

variable {batch : List Update}

/-- A call of `UpdateFlows` drops no state. -/
theorem evolves_updateFlows (hnew : ∀ u ∈ batch, ∀ seqnum, isNew { u.flow with seqnum := seqnum })
    (hcall : t.updateFlows timestamp batch = some t') : Evolves isNew t t' :=
  evolves_foldlM (fun _ _ u hu => evolves_absorb (hnew u hu)) (updateFlows_eq_some_iff.mp hcall)

/-- A call of `FinalizeFlows` drops no state. -/
theorem evolves_finalizeFlows (hnew : ∀ u ∈ batch, ∀ seqnum, isNew { u.flow with seqnum := seqnum })
    (hcall : t.finalizeFlows timestamp batch = some t') : Evolves isNew t t' :=
  evolves_foldlM (fun _ _ u hu => evolves_finalizeFlow (hnew u hu)) hcall

end Evolution

end FlowTracker
end HeypAgents
