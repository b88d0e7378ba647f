import HeypAgents.Lib.Runs
import HeypAgents.ClusterAgent.PerAggAllocators

/-!
# The LOPRI admission over whole runs

`HeypSigcomm20Allocator` revises the LOPRI admission of an aggregate from the usage
since the last call and from the fraction that it intended then.  In every run in
which usage counters do not decrease the HIPRI admission stays, the LOPRI admission
falls but not below 0, and the fraction is one.  The divisors of a call are collected
beside the code that divides by them: those of the revision and of the fraction are
positive, and the fraction after the partition and the one for probing divide by
demands that may be 0.
-/

namespace HeypAgents
namespace HeypSigcomm20Allocator

open HybridQsort (StdPartition)
open PerAggAllocator
open Runs

/-- The divisions of `HeypSigcomm20MaybeReviseLOPRIAdmission`. -/
def revisionDivisors (acceptableRatio time : ℚ) (parent : FlowInfo) (s : HeypAggState) : List ℚ :=
  if time ≤ s.lastTime then
    []
  else if s.alloc.hipriRateLimitBps > 0 ∧ s.fracLopri > 0 then
    let hipriUsageBytes : ℚ := parent.cumHipriUsageBytes - s.lastCumHipriUsageBytes
    let lopriUsageBytes : ℚ := parent.cumLopriUsageBytes - s.lastCumLopriUsageBytes
    if hipriUsageBytes = 0 then
      []
    else if lopriUsageBytes * (1 - s.fracLopri) / (hipriUsageBytes * s.fracLopri) <
        acceptableRatio then
      [hipriUsageBytes * s.fracLopri, time - s.lastTime, time - s.lastTime]
    else
      [hipriUsageBytes * s.fracLopri]
  else
    []

/-- The division of `FracAdmittedAtLOPRI`. -/
def admittedDivisors (parent : FlowInfo) (alloc : FlowAlloc) : List ℚ :=
  let volume := getFlowVolume parent .kPredictedDemand
  if alloc.lopriRateLimitBps > 0 ∧ volume > 0 ∧ volume > alloc.hipriRateLimitBps then
    [min (volume : ℚ) (alloc.hipriRateLimitBps + alloc.lopriRateLimitBps)]
  else
    []

/-- The division of `FracAdmittedAtLOPRIToProbe`. -/
def probingDivisors (info : AggInfo) (alloc : FlowAlloc) (demandMultiplier : ℚ) : List ℚ :=
  let volume := getFlowVolume info.parent .kPredictedDemand
  if volume < alloc.hipriRateLimitBps then []
  else if (volume : ℚ) > demandMultiplier * alloc.hipriRateLimitBps then []
  else
    match info.children with
    | [] => []
    | child :: rest =>
      if smallestChildDemand child rest > alloc.lopriRateLimitBps then [] else [(volume : ℚ)]

/-- The division of `BweBurstinessFactor`. -/
def burstinessDivisors (info : AggInfo) : List ℚ :=
  let parentDemandBps : ℚ := info.parent.predictedDemandBps
  let sumChildDemandBps : ℚ := (info.children.map (·.predictedDemandBps)).sum
  if parentDemandBps = 0 ∨ sumChildDemandBps = 0 then []
  else if sumChildDemandBps < parentDemandBps then []
  else [parentDemandBps]

def divisors (config : ClusterAllocatorConfig) (demandMultiplier time : ℚ) (info : AggInfo)
    (mask : ChildMask info) (s : HeypAggState) : List ℚ :=
  let alloc := (recordUsage config time info.parent s).alloc
  revisionDivisors config.heypAcceptableMeasuredRatioOverIntendedRatio time info.parent s ++
    admittedDivisors info.parent alloc ++
    (if config.heypProbeLopriWhenAmbiguous then probingDivisors info alloc demandMultiplier
      else []) ++
    (if config.enableBurstiness then burstinessDivisors info else []) ++
    [((demandsOf info mask false).sum : ℚ) + (demandsOf info mask true).sum]

def AssertsHold (time : ℚ) (parent : FlowInfo) (s : HeypAggState) : Prop :=
  s.lastTime < time → 0 < s.alloc.hipriRateLimitBps → 0 < s.fracLopri →
    parent.cumHipriUsageBytes - s.lastCumHipriUsageBytes ≠ 0 →
    0 < parent.cumHipriUsageBytes - s.lastCumHipriUsageBytes

section OneCall

/-- The state of an aggregate between calls. -/
structure Admitted (s : HeypAggState) : Prop where
  hipri_nonneg : 0 ≤ s.alloc.hipriRateLimitBps
  lopri_nonneg : 0 ≤ s.alloc.lopriRateLimitBps
  frac_nonneg : 0 ≤ s.fracLopri
  frac_le_one : s.fracLopri ≤ 1

structure NotBelow (s : HeypAggState) (parent : FlowInfo) : Prop where
  hipri : s.lastCumHipriUsageBytes ≤ parent.cumHipriUsageBytes
  lopri : s.lastCumLopriUsageBytes ≤ parent.cumLopriUsageBytes

variable {s : HeypAggState} {parent : FlowInfo} {alloc : FlowAlloc} {info : AggInfo}

theorem maybeReviseLopriAdmission_of_hipri_eq_zero
    (ratio time : ℚ) (hhipri : s.alloc.hipriRateLimitBps = 0) :
    maybeReviseLopriAdmission ratio time parent s = s.alloc.lopriRateLimitBps := by
  simp [maybeReviseLopriAdmission, hhipri]

theorem lt_totalAdmitted (hhipri : 0 ≤ alloc.hipriRateLimitBps)
    (hadmitted : alloc.lopriRateLimitBps > 0 ∧ getFlowVolume parent .kPredictedDemand > 0 ∧
      getFlowVolume parent .kPredictedDemand > alloc.hipriRateLimitBps) :
    (0 : ℚ) ≤ alloc.hipriRateLimitBps ∧
      (alloc.hipriRateLimitBps : ℚ) <
        min (getFlowVolume parent .kPredictedDemand : ℚ)
          (alloc.hipriRateLimitBps + alloc.lopriRateLimitBps) := by
  obtain ⟨hlopri, -, hvolume⟩ := hadmitted
  refine ⟨by exact_mod_cast hhipri, lt_min (by exact_mod_cast hvolume) ?_⟩
  have : (0 : ℚ) < alloc.lopriRateLimitBps := by exact_mod_cast hlopri
  linarith

/-- The intended fraction is a fraction. -/
theorem fracAdmittedAtLopri_mem
    (parent : FlowInfo) (alloc : FlowAlloc) (hhipri : 0 ≤ alloc.hipriRateLimitBps) :
    0 ≤ fracAdmittedAtLopri .kPredictedDemand parent alloc.hipriRateLimitBps
        alloc.lopriRateLimitBps ∧
      fracAdmittedAtLopri .kPredictedDemand parent alloc.hipriRateLimitBps
        alloc.lopriRateLimitBps ≤ 1 := by
  unfold fracAdmittedAtLopri
  dsimp only
  split_ifs with hadmitted
  · obtain ⟨hnonneg, hlt⟩ := lt_totalAdmitted hhipri hadmitted
    have hpos := hnonneg.trans_lt hlt
    have hquotient := div_nonneg hnonneg hpos.le
    have hle := (div_le_one hpos).mpr hlt.le
    exact ⟨by linarith, by linarith⟩
  · exact ⟨le_rfl, zero_le_one⟩

/-- The partition can only lower the fraction, and not below 0. -/
theorem fracLopri_lowerFrac_mem
    (hd : ∀ child ∈ info.children, 0 ≤ child.predictedDemandBps) (mask : ChildMask info)
    (hs : 0 ≤ s.fracLopri) :
    0 ≤ (lowerFrac info mask s).fracLopri ∧ (lowerFrac info mask s).fracLopri ≤ s.fracLopri := by
  unfold lowerFrac fracLopriPostPartition
  dsimp only
  split
  next frac hfrac =>
    split_ifs at hfrac with hzero
    obtain rfl := Option.some.inj hfrac
    split_ifs with hlt
    · have hhipri : (0 : ℚ) ≤ (demandsOf info mask false).sum := by
        exact_mod_cast List.sum_nonneg (demandsOf_nonneg hd mask false)
      have hlopri : (0 : ℚ) ≤ (demandsOf info mask true).sum := by
        exact_mod_cast List.sum_nonneg (demandsOf_nonneg hd mask true)
      exact ⟨div_nonneg hlopri (add_nonneg hhipri hlopri), hlt.le⟩
    · exact ⟨hs, le_rfl⟩
  next => exact ⟨hs, le_rfl⟩

end OneCall

section Positive

variable {s : HeypAggState} {parent : FlowInfo} {alloc : FlowAlloc} {info : AggInfo}

theorem revisionDivisors_pos (ratio time : ℚ) (hcum : NotBelow s parent) :
    ∀ d ∈ revisionDivisors ratio time parent s, 0 < d := by
  unfold revisionDivisors
  dsimp only
  split_ifs with htime hrevise hzero hless
  · simp
  · simp
  · have husage : (s.lastCumHipriUsageBytes : ℚ) ≤ parent.cumHipriUsageBytes := by
      exact_mod_cast hcum.hipri
    have hpos := mul_pos (lt_of_le_of_ne (sub_nonneg.mpr husage) (Ne.symm hzero)) hrevise.2
    have helapsed := sub_pos.mpr (not_le.mp htime)
    simp [hpos, helapsed]
  · have husage : (s.lastCumHipriUsageBytes : ℚ) ≤ parent.cumHipriUsageBytes := by
      exact_mod_cast hcum.hipri
    have hpos := mul_pos (lt_of_le_of_ne (sub_nonneg.mpr husage) (Ne.symm hzero)) hrevise.2
    simp [hpos]
  · simp

theorem admittedDivisors_pos (hhipri : 0 ≤ alloc.hipriRateLimitBps) :
    ∀ d ∈ admittedDivisors parent alloc, 0 < d := by
  unfold admittedDivisors
  dsimp only
  split_ifs with hadmitted
  · obtain ⟨hnonneg, hlt⟩ := lt_totalAdmitted hhipri hadmitted
    simpa using hnonneg.trans_lt hlt
  · simp

theorem burstinessDivisors_pos (hparent : 0 ≤ info.parent.predictedDemandBps) :
    ∀ d ∈ burstinessDivisors info, 0 < d := by
  unfold burstinessDivisors
  dsimp only
  split_ifs with hzero
  · simp
  · simp
  · have hne : info.parent.predictedDemandBps ≠ 0 := fun h => hzero (.inl (by exact_mod_cast h))
    simpa using lt_of_le_of_ne hparent hne.symm

theorem smallestChildDemand_le_iff (child : FlowInfo) (rest : List FlowInfo) (x : ℤ) :
    smallestChildDemand child rest ≤ x ↔ ∃ c ∈ child :: rest, c.predictedDemandBps ≤ x := by
  have hfold : ∀ m : ℤ,
      rest.foldl (fun m c => min m (getFlowVolume c .kPredictedDemand)) m ≤ x ↔
        m ≤ x ∨ ∃ c ∈ rest, c.predictedDemandBps ≤ x := by
    induction rest with
    | nil => simp
    | cons c rest ih =>
      intro m
      rw [List.foldl_cons, ih, min_le_iff, List.exists_mem_cons_iff, or_assoc]
      rfl
  rw [smallestChildDemand, hfold, List.exists_mem_cons_iff]
  rfl

def ProbesNothing (info : AggInfo) (alloc : FlowAlloc) : Prop :=
  info.parent.predictedDemandBps = 0 ∧ alloc.hipriRateLimitBps = 0 ∧
    ∃ child ∈ info.children, child.predictedDemandBps ≤ alloc.lopriRateLimitBps
deriving Decidable

theorem probingDivisors_pos_iff
    (hparent : 0 ≤ info.parent.predictedDemandBps) (hhipri : 0 ≤ alloc.hipriRateLimitBps)
    (demandMultiplier : ℚ) :
    (∀ d ∈ probingDivisors info alloc demandMultiplier, 0 < d) ↔ ¬ ProbesNothing info alloc := by
  unfold probingDivisors ProbesNothing
  dsimp only [getFlowVolume]
  split_ifs with hbelow habove
  · exact iff_of_true (by simp) fun h => by omega
  · refine iff_of_true (by simp) fun h => ?_
    rw [h.1, h.2.1] at habove
    simp at habove
  · cases hchildren : info.children with
    | nil => simp
    | cons child rest =>
      rw [← smallestChildDemand_le_iff]
      dsimp only
      split_ifs with hsmallest
      · exact iff_of_true (by simp) fun h => absurd h.2.2 (not_le.mpr hsmallest)
      · simp only [List.mem_singleton, forall_eq, not_lt.mp hsmallest, and_true, Int.cast_pos]
        omega

def Divides (config : ClusterAllocatorConfig) (info : AggInfo) (alloc : FlowAlloc) : Prop :=
  0 < (info.children.map (·.predictedDemandBps)).sum ∧
    (config.heypProbeLopriWhenAmbiguous = true → ¬ ProbesNothing info alloc)
deriving Decidable

/-- The divisors of a call are positive exactly under the condition. -/
theorem divisors_pos_iff
    (config : ClusterAllocatorConfig) (demandMultiplier time : ℚ) (mask : ChildMask info)
    (hs : Admitted s) (hcum : NotBelow s info.parent)
    (hparent : 0 ≤ info.parent.predictedDemandBps) :
    (∀ d ∈ divisors config demandMultiplier time info mask s, 0 < d) ↔
      Divides config info s.alloc := by
  have hhipri : 0 ≤ (recordUsage config time info.parent s).alloc.hipriRateLimitBps :=
    hs.hipri_nonneg
  have hprobes : ProbesNothing info (recordUsage config time info.parent s).alloc ↔
      ProbesNothing info s.alloc := by
    refine and_congr_right fun _ => and_congr_right fun hzero => ?_
    have hzero' : s.alloc.hipriRateLimitBps = 0 := hzero
    simp only [recordUsage, maybeReviseLopriAdmission_of_hipri_eq_zero _ _ hzero']
  have hsum : (0 : ℚ) < (demandsOf info mask false).sum + (demandsOf info mask true).sum ↔
      0 < (info.children.map (·.predictedDemandBps)).sum := by
    rw [← demandsOf_sum_add info mask]
    norm_cast
  simp only [divisors, Divides, List.forall_mem_append, List.forall_mem_singleton, hsum]
  constructor
  · rintro ⟨⟨⟨-, hprobing⟩, -⟩, hpartition⟩
    refine ⟨hpartition, fun hprobe => ?_⟩
    rw [if_pos hprobe, probingDivisors_pos_iff hparent hhipri, hprobes] at hprobing
    exact hprobing
  · rintro ⟨hpartition, hprobing⟩
    refine ⟨⟨⟨⟨revisionDivisors_pos _ _ hcum, admittedDivisors_pos hhipri⟩, ?_⟩, ?_⟩, hpartition⟩
    · split_ifs with hprobe
      · rw [probingDivisors_pos_iff hparent hhipri, hprobes]
        exact hprobing hprobe
      · simp
    · split_ifs
      · exact burstinessDivisors_pos hparent
      · simp

end Positive

section Calls

/-- One call of `AllocAgg`, with the selector that it asks. -/
structure Call where
  time : ℚ
  info : AggInfo
  pick : PickLopriChildren

def call (part : StdPartition ℤ) (a : HeypSigcomm20Allocator) (c : Call) :
    Option HeypSigcomm20Allocator :=
  some (a.allocAgg .binary64 part c.pick c.time c.info).1

def intended (a : HeypSigcomm20Allocator) (c : Call) (s : HeypAggState) : HeypAggState :=
  updateFracs a.config a.demandMultiplier c.info (recordUsage a.config c.time c.info.parent s)

/-- The children that a call downgrades. -/
def picked (a : HeypSigcomm20Allocator) (c : Call) (s : HeypAggState) : ChildMask c.info :=
  c.pick c.info (a.intended c s).fracLopriWithProbing

/-- The state that a call stores. -/
def stored (a : HeypSigcomm20Allocator) (c : Call) (s : HeypAggState) : HeypAggState :=
  lowerFrac c.info (a.picked c s) (a.intended c s)

structure Successive (calls : List Call) : Prop where
  parent : ∀ c ∈ calls, 0 ≤ c.info.parent.predictedDemandBps
  children : ∀ c ∈ calls, ∀ child ∈ c.info.children, 0 ≤ child.predictedDemandBps
  nonneg : ∀ c ∈ calls, 0 ≤ c.info.parent.cumHipriUsageBytes ∧ 0 ≤ c.info.parent.cumLopriUsageBytes
  counters : calls.Pairwise fun c c' => eqClusterFlow c.info.parent.flow c'.info.parent.flow →
    c.info.parent.cumHipriUsageBytes ≤ c'.info.parent.cumHipriUsageBytes ∧
      c.info.parent.cumLopriUsageBytes ≤ c'.info.parent.cumLopriUsageBytes

/--
The call keeps the HIPRI admissions, raises no LOPRI admission, leaves both it and the
intended fractions in their ranges, and its assertions hold.
-/
structure KeepsAdmissions
    (part : StdPartition ℤ) (a : HeypSigcomm20Allocator) (c : Call) : Prop where
  states : ∀ flow, ∀ s ∈ a.aggStates.find flow,
    ∃ s' ∈ (a.allocAgg .binary64 part c.pick c.time c.info).1.aggStates.find flow,
      s'.alloc.hipriRateLimitBps = s.alloc.hipriRateLimitBps ∧
      (0 ≤ s'.alloc.lopriRateLimitBps ∧ s'.alloc.lopriRateLimitBps ≤ s.alloc.lopriRateLimitBps) ∧
      (0 ≤ s'.fracLopri ∧ s'.fracLopri ≤ 1)
  asserts : ∀ s ∈ a.aggStates.find c.info.parent.flow, AssertsHold c.time c.info.parent s

def DividesByPositive (a : HeypSigcomm20Allocator) (c : Call) : Prop :=
  ∀ s ∈ a.aggStates.find c.info.parent.flow,
    ∀ d ∈ divisors a.config a.demandMultiplier c.time c.info (a.picked c s) s, 0 < d
deriving Decidable

def HasDemand (a : HeypSigcomm20Allocator) (c : Call) : Prop :=
  ∀ s ∈ a.aggStates.find c.info.parent.flow, Divides a.config c.info s.alloc
deriving Decidable

variable {part : StdPartition ℤ} {a : HeypSigcomm20Allocator} {c : Call} {s : HeypAggState}
  {calls : List Call}

theorem Successive.of_append {calls' : List Call} (h : Successive (calls ++ calls')) :
    Successive calls where
  parent c hc := h.parent c (List.mem_append_left _ hc)
  children c hc := h.children c (List.mem_append_left _ hc)
  nonneg c hc := h.nonneg c (List.mem_append_left _ hc)
  counters := (List.pairwise_append.mp h.counters).1

theorem find_allocAgg (part : StdPartition ℤ) (a : HeypSigcomm20Allocator) (c : Call)
    (flow : FlowMarker) :
    (a.allocAgg .binary64 part c.pick c.time c.info).1.aggStates.find flow =
      if eqClusterFlow c.info.parent.flow flow then (a.aggStates.find flow).map (a.stored c)
      else a.aggStates.find flow := by
  cases hfind : a.aggStates.find c.info.parent.flow with
  | none =>
    simp only [allocAgg, hfind]
    split_ifs with hsame
    · rw [← ClusterFlowMap.find_congr _ hsame, hfind]
      rfl
    · rfl
  | some s =>
    simp only [allocAgg, hfind, ClusterFlowMap.find_set]
    split_ifs with hsame
    · rw [← ClusterFlowMap.find_congr _ hsame, hfind]
      rfl
    · rfl

/-- A call keeps the state of its aggregate admitted. -/
theorem Admitted.stored (hs : Admitted s) (hcum : NotBelow s c.info.parent)
    (hd : ∀ child ∈ c.info.children, 0 ≤ child.predictedDemandBps) :
    Admitted (a.stored c s) ∧ (a.stored c s).alloc.hipriRateLimitBps = s.alloc.hipriRateLimitBps ∧
      (a.stored c s).alloc.lopriRateLimitBps ≤ s.alloc.lopriRateLimitBps := by
  obtain ⟨hnonneg, hle⟩ := maybeReviseLopriAdmission_mem
    a.config.heypAcceptableMeasuredRatioOverIntendedRatio c.time hs.lopri_nonneg hcum.lopri
  have hintended : 0 ≤ (a.intended c s).fracLopri ∧ (a.intended c s).fracLopri ≤ 1 :=
    fracAdmittedAtLopri_mem c.info.parent (recordUsage a.config c.time c.info.parent s).alloc
      hs.hipri_nonneg
  obtain ⟨hfrac, hlower⟩ := fracLopri_lowerFrac_mem hd (a.picked c s) hintended.1
  have halloc : (a.stored c s).alloc = (recordUsage a.config c.time c.info.parent s).alloc :=
    alloc_lowerFrac _
  refine ⟨⟨?_, ?_, hfrac, hlower.trans hintended.2⟩, ?_, ?_⟩ <;> rw [halloc]
  · exact hs.hipri_nonneg
  · exact hnonneg
  · rfl
  · exact hle

def Recorded (calls : List Call) (flow : FlowMarker) (s : HeypAggState) : Prop :=
  (s.lastCumHipriUsageBytes = 0 ∧ s.lastCumLopriUsageBytes = 0) ∨
    ∃ c ∈ calls, eqClusterFlow c.info.parent.flow flow ∧
      s.lastCumHipriUsageBytes = c.info.parent.cumHipriUsageBytes ∧
      s.lastCumLopriUsageBytes = c.info.parent.cumLopriUsageBytes

/-- The states between the calls. -/
def Inv (calls : List Call) (a : HeypSigcomm20Allocator) : Prop :=
  ∀ flow, ∀ s ∈ a.aggStates.find flow, Admitted s ∧ Recorded calls flow s

theorem Recorded.notBelow
    (hcalls : Successive (calls ++ [c])) (h : Recorded calls c.info.parent.flow s) :
    NotBelow s c.info.parent := by
  rcases h with ⟨hhipri, hlopri⟩ | ⟨c', hc', hsame, hhipri, hlopri⟩
  · obtain ⟨hhipri', hlopri'⟩ := hcalls.nonneg c (by simp)
    exact ⟨hhipri ▸ hhipri', hlopri ▸ hlopri'⟩
  · obtain ⟨hhipri', hlopri'⟩ :=
      (List.pairwise_append.mp hcalls.counters).2.2 c' hc' c (by simp) hsame
    exact ⟨hhipri ▸ hhipri', hlopri ▸ hlopri'⟩

theorem counters_stored (a : HeypSigcomm20Allocator) (c : Call) (s : HeypAggState) :
    (a.stored c s).lastCumHipriUsageBytes = c.info.parent.cumHipriUsageBytes ∧
      (a.stored c s).lastCumLopriUsageBytes = c.info.parent.cumLopriUsageBytes := by
  unfold stored lowerFrac
  split
  · split_ifs <;> exact ⟨rfl, rfl⟩
  · exact ⟨rfl, rfl⟩

theorem Inv.stored_of_same
    (h : Inv calls a) (hcalls : Successive (calls ++ [c])) {flow : FlowMarker}
    (hsame : eqClusterFlow c.info.parent.flow flow = true) (hs : s ∈ a.aggStates.find flow) :
    Admitted (a.stored c s) ∧ (a.stored c s).alloc.hipriRateLimitBps = s.alloc.hipriRateLimitBps ∧
      (a.stored c s).alloc.lopriRateLimitBps ≤ s.alloc.lopriRateLimitBps := by
  rw [← ClusterFlowMap.find_congr _ hsame] at hs
  obtain ⟨hadmitted, hrecorded⟩ := h _ s hs
  exact hadmitted.stored (hrecorded.notBelow hcalls) (hcalls.children c (by simp))

theorem Inv.allocAgg
    (h : Inv calls a) (hcalls : Successive (calls ++ [c])) (part : StdPartition ℤ) :
    Inv (calls ++ [c]) (a.allocAgg .binary64 part c.pick c.time c.info).1 := by
  intro flow s' hs'
  rw [find_allocAgg] at hs'
  split_ifs at hs' with hsame
  · obtain ⟨s, hs, rfl⟩ := Option.map_eq_some_iff.mp hs'
    exact ⟨(h.stored_of_same hcalls hsame hs).1, .inr ⟨c, by simp, hsame, counters_stored a c s⟩⟩
  · obtain ⟨hadmitted, hrecorded⟩ := h flow s' hs'
    refine ⟨hadmitted, hrecorded.imp_right ?_⟩
    rintro ⟨c', hc', hrest⟩
    exact ⟨c', List.mem_append_left _ hc', hrest⟩

theorem Inv.keepsAdmissions
    (h : Inv calls a) (hcalls : Successive (calls ++ [c])) (part : StdPartition ℤ) :
    KeepsAdmissions part a c := by
  refine ⟨fun flow s hs => ?_, fun s hs _ _ _ hne => ?_⟩
  · rw [find_allocAgg]
    split_ifs with hsame
    · obtain ⟨hadmitted, hhipri, hlopri⟩ := h.stored_of_same hcalls hsame hs
      exact ⟨_, Option.mem_map_of_mem _ hs, hhipri, ⟨hadmitted.lopri_nonneg, hlopri⟩,
        hadmitted.frac_nonneg, hadmitted.frac_le_one⟩
    · obtain ⟨hadmitted, -⟩ := h flow s hs
      exact ⟨s, hs, rfl, ⟨hadmitted.lopri_nonneg, le_rfl⟩, hadmitted.frac_nonneg,
        hadmitted.frac_le_one⟩
  · have hcum := ((h _ s hs).2.notBelow hcalls).hipri
    omega

theorem Inv.dividesByPositive_iff (h : Inv calls a) (hcalls : Successive (calls ++ [c])) :
    DividesByPositive a c ↔ HasDemand a c := by
  refine forall₂_congr fun s hs => ?_
  obtain ⟨hadmitted, hrecorded⟩ := h _ s hs
  exact divisors_pos_iff _ _ _ _ hadmitted (hrecorded.notBelow hcalls) (hcalls.parent c (by simp))

section Runs

variable {config : ClusterAllocatorConfig} {aggAdmissions : ClusterFlowMap FlowAlloc}
  {demandMultiplier : ℚ}

theorem inv_create
    (hadm : ∀ kv ∈ aggAdmissions, 0 ≤ kv.2.hipriRateLimitBps ∧ 0 ≤ kv.2.lopriRateLimitBps) :
    Inv [] (create config aggAdmissions demandMultiplier) := by
  intro flow s hs
  have hfind : (create config aggAdmissions demandMultiplier).aggStates.find flow =
      (aggAdmissions.find flow).map fun alloc => { alloc := alloc } :=
    ClusterFlowMap.find_map (fun alloc => ({ alloc := alloc } : HeypAggState)) aggAdmissions flow
  rw [hfind] at hs
  obtain ⟨alloc, halloc, rfl⟩ := Option.map_eq_some_iff.mp hs
  obtain ⟨kv, hkv, rfl⟩ := Option.map_eq_some_iff.mp halloc
  obtain ⟨hhipri, hlopri⟩ := hadm kv (List.mem_of_find?_eq_some hkv)
  exact ⟨⟨hhipri, hlopri, le_rfl, zero_le_one⟩, .inl ⟨rfl, rfl⟩⟩

/-- A run keeps the invariant. -/
theorem inv_exec
    (hadm : ∀ kv ∈ aggAdmissions, 0 ≤ kv.2.hipriRateLimitBps ∧ 0 ≤ kv.2.lopriRateLimitBps)
    (hcalls : Successive calls)
    (hrun : exec (call part) (create config aggAdmissions demandMultiplier) calls = some a) :
    Inv calls a := by
  induction calls using List.reverseRecOn generalizing a with
  | nil =>
    obtain rfl := Option.some.inj hrun
    exact inv_create hadm
  | append_singleton calls c ih =>
    obtain ⟨b, hbefore, hcall⟩ := exec_concat_eq_some.mp hrun
    obtain rfl := Option.some.inj hcall
    exact (ih hcalls.of_append hbefore).allocAgg hcalls part

/--
In every run from non-negative admissions in which no counter decreases, every call keeps
the admissions and fractions in their ranges and its assertions hold.  All divisions have
positive divisors exactly in the runs in which every call has a demand to divide by.
-/
theorem run_dividesByPositive_iff (part : StdPartition ℤ) (config : ClusterAllocatorConfig)
    (aggAdmissions : ClusterFlowMap FlowAlloc)
    (hadm : ∀ kv ∈ aggAdmissions, 0 ≤ kv.2.hipriRateLimitBps ∧ 0 ≤ kv.2.lopriRateLimitBps)
    (demandMultiplier : ℚ) (calls : List Call) (hcalls : Successive calls) :
    AllSteps (call part) (KeepsAdmissions part)
        (create config aggAdmissions demandMultiplier) calls ∧
      (AllSteps (call part) DividesByPositive (create config aggAdmissions demandMultiplier) calls ↔
        AllSteps (call part) HasDemand (create config aggAdmissions demandMultiplier) calls) := by
  have hstep : ∀ pre c a, pre ++ [c] <+: calls →
      exec (call part) (create config aggAdmissions demandMultiplier) pre = some a →
      Inv pre a ∧ Successive (pre ++ [c]) := by
    rintro pre c a ⟨rest, rfl⟩ hrun
    exact ⟨inv_exec hadm hcalls.of_append.of_append hrun, hcalls.of_append⟩
  constructor
  · intro pre c a hpre hrun
    obtain ⟨hinv, hsuccessive⟩ := hstep pre c a hpre hrun
    exact hinv.keepsAdmissions hsuccessive part
  · refine forall₅_congr fun pre c a hpre hrun => ?_
    obtain ⟨hinv, hsuccessive⟩ := hstep pre c a hpre hrun
    exact hinv.dividesByPositive_iff hsuccessive

def pickFirst : PickLopriChildren := fun info _ =>
  { bits := info.children.mapIdx fun i _ => i == 0
    length_eq := List.length_mapIdx }

def callWith (time : ℚ) (demand cumHipri cumLopri : ℤ) (demands : List ℤ) : Call where
  time := time
  info :=
    { parent :=
        { predictedDemandBps := demand
          cumHipriUsageBytes := cumHipri
          cumLopriUsageBytes := cumLopri }
      children := demands.map fun d => { predictedDemandBps := d } }
  pick := pickFirst

/-- Two calls, the second of which finds LOPRI congested. -/
theorem run_dividesByPositive_congested :
    AllSteps (call .stable) (KeepsAdmissions .stable)
        (create {} [({}, { hipriRateLimitBps := 10, lopriRateLimitBps := 40 })] 2)
        [callWith 1 30 0 0 [10, 20], callWith 2 30 10 1 [10, 20]] ∧
      AllSteps (call .stable) DividesByPositive
        (create {} [({}, { hipriRateLimitBps := 10, lopriRateLimitBps := 40 })] 2)
        [callWith 1 30 0 0 [10, 20], callWith 2 30 10 1 [10, 20]] := by
  have hcalls : Successive [callWith 1 30 0 0 [10, 20], callWith 2 30 10 1 [10, 20]] :=
    ⟨by decide, by decide, by decide, by decide⟩
  obtain ⟨hkeeps, hiff⟩ := run_dividesByPositive_iff .stable {}
    [({}, { hipriRateLimitBps := 10, lopriRateLimitBps := 40 })] (by decide) 2 _ hcalls
  exact ⟨hkeeps, hiff.mpr (by decide +kernel)⟩

/--
An aggregate without demand makes the fraction after the partition a NaN, and one
without a HIPRI admission and without a demand of its own an infinite fraction for
probing.
-/
theorem not_dividesByPositive_without_demand :
    ¬ AllSteps (call .stable) DividesByPositive
        (create {} [({}, { hipriRateLimitBps := 10, lopriRateLimitBps := 40 })] 2)
        [callWith 1 0 0 0 [0, 0]] ∧
      ¬ AllSteps (call .stable) DividesByPositive (create {} [({}, { lopriRateLimitBps := 40 })] 2)
        [callWith 1 0 0 0 [10, 20]] := by
  decide +kernel

end Runs

end Calls

end HeypSigcomm20Allocator
end HeypAgents
