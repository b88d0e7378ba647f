import HeypAgents.Alg.MaxMinFairnessInt64
import HeypAgents.Alg.QosDowngrade

/-!
# The per-aggregate allocators

`SimpleDowngradeAllocator` and `HeypSigcomm20Allocator` pick the children to
downgrade, split the demands by class, and give every child of a class the same
rate limit.  The class of a child is not sent: its limit is put into the field of
its class and the other field stays 0.  `BweAggAllocator` does the same without a
LOPRI class.
-/

namespace HeypAgents

open HybridQsort (StdPartition)

inductive HipriThrottleCondition where
  | htcNever
  | htcWhenAboveHipriLimit
  | htcWhenAssignedLopri
  | htcAlways
deriving DecidableEq, Repr

/-- The fields of `ClusterAllocatorConfig` that the allocators read. -/
structure ClusterAllocatorConfig where
  enableBurstiness : Bool := true
  enableBonus : Bool := true
  oversubFactor : ℚ := 23 / 20
  downgradeUsage : Bool := true
  downgradeFracController : Option DowngradeFracController := none
  heypAcceptableMeasuredRatioOverIntendedRatio : ℚ := 9 / 10
  heypProbeLopriWhenAmbiguous : Bool := true
  simpleDowngradeThrottleHipri : HipriThrottleCondition := .htcAlways
deriving DecidableEq, Repr

/-- One bit for each child of the aggregate. -/
structure ChildMask (info : AggInfo) where
  bits : List Bool
  length_eq : bits.length = info.children.length

def ChildMask.none (info : AggInfo) : ChildMask info where
  bits := List.replicate info.children.length false
  length_eq := List.length_replicate

abbrev PickLopriChildren := (info : AggInfo) → ℚ → ChildMask info

structure ChildAlloc where
  child : FlowInfo
  isLopri : Bool
  alloc : FlowAlloc
deriving DecidableEq, Repr

namespace PerAggAllocator

def kMaxChildBandwidthBps : ℤ := 100 * 2 ^ 30

section Limits

variable (fp : Rounding) (part : StdPartition ℤ) (config : ClusterAllocatorConfig)

def inForce (info : AggInfo) (admission : ℤ) : ℤ :=
  if config.enableBurstiness then
    doubleToInt64 (fp.round (fp.round admission * bweBurstinessFactor fp info))
  else
    admission

/-- The demands of the children of a class. -/
def demandsOf (info : AggInfo) (lopriChildren : ChildMask info) (lopri : Bool) : List ℤ :=
  ((info.children.zip lopriChildren.bits).filter fun p => p.2 == lopri).map
    fun p => p.1.predictedDemandBps

theorem demandsOf_nonneg
    {info : AggInfo} (hd : ∀ child ∈ info.children, 0 ≤ child.predictedDemandBps)
    (lopriChildren : ChildMask info) (lopri : Bool) :
    ∀ d ∈ demandsOf info lopriChildren lopri, 0 ≤ d := by
  intro d hmem
  obtain ⟨p, hp, rfl⟩ := List.mem_map.mp hmem
  exact hd p.1 (List.of_mem_zip (List.mem_filter.mp hp).1).1

theorem demandsOf_sum_add (info : AggInfo) (lopriChildren : ChildMask info) :
    (demandsOf info lopriChildren false).sum + (demandsOf info lopriChildren true).sum =
      (info.children.map (·.predictedDemandBps)).sum := by
  have hsplit : ∀ l : List (FlowInfo × Bool),
      ((l.filter fun p => p.2 == false).map fun p => p.1.predictedDemandBps).sum +
          ((l.filter fun p => p.2 == true).map fun p => p.1.predictedDemandBps).sum =
        (l.map fun p => p.1.predictedDemandBps).sum := by
    intro l
    induction l with
    | nil => rfl
    | cons p l ih =>
      obtain ⟨child, lopri⟩ := p
      cases lopri <;> simp at ih ⊢ <;> omega
  have hfst := List.map_fst_zip lopriChildren.length_eq.ge
  rw [demandsOf, demandsOf, hsplit]
  conv_rhs => rw [← hfst, List.map_map]
  rfl

/-- The waterlevel, as the machine computes it, and the bonus. -/
def levelWithBonus (admission : ℤ) (demands : List ℤ) : ℤ :=
  let waterlevel :=
    (MaxMinFairness.Machine.computeWaterlevel .wrapped part {} admission demands).value
  let bonus :=
    if config.enableBonus then evenlyDistributeExtra admission demands waterlevel else 0
  waterlevel + bonus

theorem evenlyDistributeExtra_eq
    {demands : List ℤ} (hne : demands ≠ []) (admission waterlevel : ℤ) :
    evenlyDistributeExtra admission demands waterlevel =
      max 0 (admission - WaterFilling.served demands waterlevel) / demands.length := by
  have hfold : ∀ (E : List ℤ) (a : ℤ),
      E.foldl (fun a d => a - min d waterlevel) a = a - WaterFilling.served E waterlevel := by
    intro E
    induction E with
    | nil => simp
    | cons d E ih =>
      intro a
      rw [List.foldl_cons, ih, WaterFilling.served_cons]
      omega
  rw [evenlyDistributeExtra, if_neg (by simpa using hne), hfold,
    Int.tdiv_eq_ediv_of_nonneg (le_max_left _ _)]

theorem evenlyDistributeExtra_nonneg
    {demands : List ℤ} (hne : demands ≠ []) (admission waterlevel : ℤ) :
    0 ≤ evenlyDistributeExtra admission demands waterlevel := by
  rw [evenlyDistributeExtra_eq hne]
  exact Int.ediv_nonneg (le_max_left _ _) (by positivity)

/-- The product of the limit is a `double`. -/
def limitProduct (admission : ℤ) (demands : List ℤ) : ℚ :=
  fp.round (config.oversubFactor * fp.round (levelWithBonus part config admission demands))

/-- The rate limit of a class. -/
def classLimit (admission : ℤ) (demands : List ℤ) : ℤ :=
  doubleToInt64 (limitProduct fp part config admission demands)

def allocChildren (info : AggInfo) (lopriChildren : ChildMask info) (hipriLimit lopriLimit : ℤ) :
    List ChildAlloc :=
  (info.children.zip lopriChildren.bits).map fun p =>
    { child := p.1
      isLopri := p.2
      alloc :=
        if p.2 then { flow := p.1.flow, lopriRateLimitBps := lopriLimit }
        else { flow := p.1.flow, hipriRateLimitBps := hipriLimit } }

end Limits

end PerAggAllocator

open PerAggAllocator

structure BweAggAllocator where
  config : ClusterAllocatorConfig
  aggAdmissions : ClusterFlowMap FlowAlloc

/-- `none` is the failed check that there is no LOPRI admission. -/
def BweAggAllocator.allocAgg (fp : Rounding) (part : StdPartition ℤ) (a : BweAggAllocator)
    (info : AggInfo) : Option (List ChildAlloc) :=
  match a.aggAdmissions.find info.parent.flow with
  | none => some []
  | some admission =>
    if admission.lopriRateLimitBps = 0 then
      let clusterAdmission := inForce fp a.config info admission.hipriRateLimitBps
      let demands := info.children.map (·.predictedDemandBps)
      let limit := classLimit fp part a.config clusterAdmission demands
      some (info.children.map fun child =>
        { child := child
          isLopri := false
          alloc := { flow := child.flow, hipriRateLimitBps := limit } })
    else
      none

/-- `SimpleDowngradeAllocator`; the feedback states are used with a controller only. -/
structure SimpleDowngradeAllocator where
  config : ClusterAllocatorConfig
  aggAdmissions : ClusterFlowMap FlowAlloc
  aggStates : ClusterFlowMap FeedbackState

namespace SimpleDowngradeAllocator

def downgradeFvSource (config : ClusterAllocatorConfig) : FVSource :=
  if config.downgradeUsage then .kUsage else .kPredictedDemand

/-- The volume above the HIPRI admission. -/
def lopriBps (config : ClusterAllocatorConfig) (info : AggInfo) (hipriAdmission : ℤ) : ℤ :=
  max 0 (getFlowVolume info.parent (downgradeFvSource config) - hipriAdmission)

def fracLopri (config : ClusterAllocatorConfig) (state : FeedbackState) (info : AggInfo)
    (hipriAdmission : ℤ) : Option (ℚ × FeedbackState) :=
  match config.downgradeFracController with
  | some controller =>
    (state.update controller (info.children.map (·.ewmaUsageBps)) info.parent
      hipriAdmission).map fun s => (s.downgradeFrac, s)
  | none =>
    some (fracAboveAdmission (getFlowVolume info.parent (downgradeFvSource config))
      hipriAdmission, state)

def lopriChildren (pick : PickLopriChildren) (info : AggInfo) (frac : ℚ) : ChildMask info :=
  if frac ≤ 0 then .none info else pick info frac

def throttleHipri (config : ClusterAllocatorConfig) (lopriBps : ℤ) (lopriDemands : List ℤ) : Bool :=
  match config.simpleDowngradeThrottleHipri with
  | .htcNever => false
  | .htcWhenAboveHipriLimit => decide (lopriBps > 0)
  | .htcWhenAssignedLopri => decide (lopriDemands.length > 0)
  | .htcAlways => true

/-- The allocations for a picked mask. -/
def allocPicked (fp : Rounding) (part : StdPartition ℤ) (config : ClusterAllocatorConfig)
    (admissions : FlowAlloc) (info : AggInfo) (mask : ChildMask info) : List ChildAlloc :=
  let lopriBps := lopriBps config info admissions.hipriRateLimitBps
  let hipriAdmission := inForce fp config info admissions.hipriRateLimitBps
  let lopriAdmission := inForce fp config info admissions.lopriRateLimitBps
  let hipriDemands := demandsOf info mask false
  let lopriDemands := demandsOf info mask true
  let hipriLimit :=
    if throttleHipri config lopriBps lopriDemands then
      classLimit fp part config hipriAdmission hipriDemands
    else
      kMaxChildBandwidthBps
  allocChildren info mask hipriLimit (classLimit fp part config lopriAdmission lopriDemands)

/-- `none` is a fatal exit; an aggregate without an admission gets no allocations. -/
def allocAgg (fp : Rounding) (part : StdPartition ℤ) (a : SimpleDowngradeAllocator)
    (pick : PickLopriChildren) (info : AggInfo) : Option (SimpleDowngradeAllocator × List ChildAlloc) :=
  match a.aggAdmissions.find info.parent.flow with
  | none => some (a, [])
  | some admissions => do
      let state ← a.aggStates.find info.parent.flow
      let (frac, state) ← fracLopri a.config state info admissions.hipriRateLimitBps
      some ({ a with aggStates := a.aggStates.set info.parent.flow state },
        allocPicked fp part a.config admissions info (lopriChildren pick info frac))

end SimpleDowngradeAllocator

/-- The state that `HeypSigcomm20Allocator` keeps for an aggregate; times are in seconds. -/
structure HeypAggState where
  alloc : FlowAlloc
  fracLopri : ℚ := 0
  fracLopriWithProbing : ℚ := 0
  lastTime : ℚ := 0
  lastCumHipriUsageBytes : ℤ := 0
  lastCumLopriUsageBytes : ℤ := 0
deriving DecidableEq, Repr

structure HeypSigcomm20Allocator where
  config : ClusterAllocatorConfig
  demandMultiplier : ℚ
  aggStates : ClusterFlowMap HeypAggState

namespace HeypSigcomm20Allocator

def create (config : ClusterAllocatorConfig) (aggAdmissions : ClusterFlowMap FlowAlloc)
    (demandMultiplier : ℚ) : HeypSigcomm20Allocator where
  config := config
  demandMultiplier := demandMultiplier
  aggStates := aggAdmissions.map fun kv => (kv.1, { alloc := kv.2 })

def maybeReviseLopriAdmission
    (acceptableRatio time : ℚ) (parent : FlowInfo) (s : HeypAggState) : ℤ :=
  if time ≤ s.lastTime then
    s.alloc.lopriRateLimitBps
  else if s.alloc.hipriRateLimitBps > 0 ∧ s.fracLopri > 0 then
    let hipriUsageBytes : ℚ := parent.cumHipriUsageBytes - s.lastCumHipriUsageBytes
    let lopriUsageBytes : ℚ := parent.cumLopriUsageBytes - s.lastCumLopriUsageBytes
    if hipriUsageBytes = 0 then
      s.alloc.lopriRateLimitBps
    else
      let measuredRatioOverIntendedRatio :=
        lopriUsageBytes * (1 - s.fracLopri) / (hipriUsageBytes * s.fracLopri)
      if measuredRatioOverIntendedRatio < acceptableRatio then
        let lopriUsageBps := 8 * lopriUsageBytes / (time - s.lastTime)
        min (truncInt lopriUsageBps) s.alloc.lopriRateLimitBps
      else
        s.alloc.lopriRateLimitBps
  else
    s.alloc.lopriRateLimitBps

/-- The revision never raises a LOPRI admission, and keeps it non-negative. -/
theorem maybeReviseLopriAdmission_mem (ratio time : ℚ) {parent : FlowInfo} {s : HeypAggState}
    (hadm : 0 ≤ s.alloc.lopriRateLimitBps)
    (hcum : s.lastCumLopriUsageBytes ≤ parent.cumLopriUsageBytes) :
    0 ≤ maybeReviseLopriAdmission ratio time parent s ∧
      maybeReviseLopriAdmission ratio time parent s ≤ s.alloc.lopriRateLimitBps := by
  unfold maybeReviseLopriAdmission
  dsimp only
  split_ifs with htime
  · exact ⟨hadm, le_rfl⟩
  · exact ⟨hadm, le_rfl⟩
  · have husage : (s.lastCumLopriUsageBytes : ℚ) ≤ parent.cumLopriUsageBytes := by
      exact_mod_cast hcum
    refine ⟨le_min (truncInt_nonneg (div_nonneg ?_ ?_)) hadm, min_le_right _ _⟩ <;> linarith
  · exact ⟨hadm, le_rfl⟩
  · exact ⟨hadm, le_rfl⟩

def recordUsage
    (config : ClusterAllocatorConfig) (time : ℚ) (parent : FlowInfo) (s : HeypAggState) :
    HeypAggState :=
  { s with
    alloc := { s.alloc with
      lopriRateLimitBps := maybeReviseLopriAdmission
        config.heypAcceptableMeasuredRatioOverIntendedRatio time parent s }
    lastTime := time
    lastCumHipriUsageBytes := parent.cumHipriUsageBytes
    lastCumLopriUsageBytes := parent.cumLopriUsageBytes }

def updateFracs (config : ClusterAllocatorConfig) (demandMultiplier : ℚ) (info : AggInfo)
    (s : HeypAggState) : HeypAggState :=
  let frac := fracAdmittedAtLopri .kPredictedDemand info.parent s.alloc.hipriRateLimitBps
    s.alloc.lopriRateLimitBps
  let probing :=
    if config.heypProbeLopriWhenAmbiguous then
      fracAdmittedAtLopriToProbe info s.alloc.hipriRateLimitBps s.alloc.lopriRateLimitBps
        demandMultiplier frac
    else
      some frac
  { s with fracLopri := frac, fracLopriWithProbing := probing.elim 1 clampFracLopri }

def fracLopriPostPartition (info : AggInfo) (mask : ChildMask info) : Option ℚ :=
  let sumHipriDemand : ℚ := (demandsOf info mask false).sum
  let sumLopriDemand : ℚ := (demandsOf info mask true).sum
  if sumHipriDemand + sumLopriDemand = 0 then none
  else some (sumLopriDemand / (sumHipriDemand + sumLopriDemand))

def lowerFrac (info : AggInfo) (mask : ChildMask info) (s : HeypAggState) : HeypAggState :=
  match fracLopriPostPartition info mask with
  | some frac => if frac < s.fracLopri then { s with fracLopri := frac } else s
  | none => s

/-- The allocations for a picked mask. -/
def allocPicked (fp : Rounding) (part : StdPartition ℤ) (config : ClusterAllocatorConfig)
    (admissions : FlowAlloc) (info : AggInfo) (mask : ChildMask info) : List ChildAlloc :=
  let hipriAdmission := inForce fp config info admissions.hipriRateLimitBps
  let lopriAdmission := inForce fp config info admissions.lopriRateLimitBps
  allocChildren info mask (classLimit fp part config hipriAdmission (demandsOf info mask false))
    (classLimit fp part config lopriAdmission (demandsOf info mask true))

def allocAgg (fp : Rounding) (part : StdPartition ℤ) (a : HeypSigcomm20Allocator)
    (pick : PickLopriChildren) (time : ℚ) (info : AggInfo) : HeypSigcomm20Allocator × List ChildAlloc :=
  match a.aggStates.find info.parent.flow with
  | none => (a, [])
  | some s =>
    let s := updateFracs a.config a.demandMultiplier info
      (recordUsage a.config time info.parent s)
    let mask := pick info s.fracLopriWithProbing
    ({ a with aggStates := a.aggStates.set info.parent.flow (lowerFrac info mask s) },
      allocPicked fp part a.config s.alloc info mask)

theorem alloc_lowerFrac {info : AggInfo} {s : HeypAggState} (mask : ChildMask info) :
    (lowerFrac info mask s).alloc = s.alloc := by
  unfold lowerFrac
  split
  · split_ifs <;> rfl
  · rfl

/-- The limits are those of the admissions that the call stores, for the children it picks. -/
theorem allocAgg_eq {fp : Rounding} {part : StdPartition ℤ} {a a' : HeypSigcomm20Allocator}
    {pick : PickLopriChildren} {time : ℚ} {info : AggInfo} {s : HeypAggState}
    {allocs : List ChildAlloc} (halloc : a.allocAgg fp part pick time info = (a', allocs))
    (hstored : a'.aggStates.find info.parent.flow = some s) :
    ∃ frac, allocs = allocPicked fp part a.config s.alloc info (pick info frac) := by
  cases hfind : a.aggStates.find info.parent.flow with
  | none =>
    simp only [allocAgg, hfind, Prod.mk.injEq] at halloc
    rw [← halloc.1, hfind] at hstored
    cases hstored
  | some s₀ =>
    simp only [allocAgg, hfind, Prod.mk.injEq] at halloc
    obtain ⟨rfl, rfl⟩ := halloc
    simp only [ClusterFlowMap.find_set, eqClusterFlow, isSameFlow_self, if_true, hfind,
      Option.map_some, Option.some.injEq] at hstored
    rw [← hstored, alloc_lowerFrac]
    exact ⟨_, rfl⟩

end HeypSigcomm20Allocator

end HeypAgents
