import HeypAgents.Alg.MaxMinFairnessPositive
import HeypAgents.ClusterAgent.PerAggAllocators

/-!
# The QoS class inferred from the rate limits

The allocators do not send the class of a child.  The host agent
(`ExpandDestIntoHostsSinglePri`) and the cluster agent (`LookupAlloc`) infer it
from which limit is positive, so a LOPRI child whose limit is 0 is taken for a
HIPRI child.
-/

namespace HeypAgents
namespace QosEncoding

open HybridQsort (StdPartition)
open MaxMinFairness PerAggAllocator WaterFilling

structure MatchedHostFlows where
  hipri : List FlowMarker := []
  lopri : List FlowMarker := []
deriving DecidableEq, Repr

/-- The hosts of a data center, if it is known. -/
abbrev StaticDcMapper := String → Option (List String)

def expandDest (dcMapper : StaticDcMapper) (flow : FlowMarker) : List FlowMarker :=
  if flow.dstAddr = "" then
    match dcMapper flow.dstDc with
    | none => []
    | some hosts => hosts.map fun host => { flow with dstAddr := host }
  else
    [flow]

/-- `none` is the failed check that not both limits are positive. -/
def expandDestIntoHostsSinglePri
    (dcMapper : StaticDcMapper) (flowAlloc : FlowAlloc) : Option MatchedHostFlows :=
  if flowAlloc.lopriRateLimitBps > 0 then
    if flowAlloc.hipriRateLimitBps = 0 then
      some { lopri := expandDest dcMapper flowAlloc.flow }
    else
      none
  else
    some { hipri := expandDest dcMapper flowAlloc.flow }

/-- The comparison of `LookupAlloc`. -/
def lookupOptions : CompareFlowOptions :=
  { cmpFg := true, cmpJob := false, cmpSrcHost := false, cmpHostFlow := false,
    cmpSeqnum := false }

def lookupAlloc (bundles : UInt64 → Option AllocBundle) (hostId : UInt64) (flow : FlowMarker) : ℕ :=
  match bundles hostId with
  | none => 2
  | some bundle =>
    match bundle.flowAllocs.find? fun alloc => isSameFlow alloc.flow flow lookupOptions with
    | some alloc => if alloc.lopriRateLimitBps > 0 then 1 else 0
    | none => 2

def expected (isLopri : Bool) (flows : List FlowMarker) : MatchedHostFlows :=
  if isLopri then { lopri := flows } else { hipri := flows }

/--
Both decoders find the class: the host agent for every mapper, and the cluster
agent in every bundle in which no earlier allocation has the same flow group.
-/
structure DecodesAs (isLopri : Bool) (alloc : FlowAlloc) : Prop where
  host : ∀ dcMapper, expandDestIntoHostsSinglePri dcMapper alloc =
    some (expected isLopri (expandDest dcMapper alloc.flow))
  cluster : ∀ (bundles : UInt64 → Option AllocBundle) (hostId : UInt64)
      (pre post : List FlowAlloc) (gen : ℤ),
    bundles hostId = some { flowAllocs := pre ++ alloc :: post, gen := gen } →
    (∀ a ∈ pre, isSameFlow a.flow alloc.flow lookupOptions = false) →
    lookupAlloc bundles hostId alloc.flow = if isLopri then 1 else 0

theorem lookupAlloc_of_first {bundles : UInt64 → Option AllocBundle} {hostId : UInt64}
    {pre post : List FlowAlloc} {alloc : FlowAlloc} {gen : ℤ}
    (hbundle : bundles hostId = some { flowAllocs := pre ++ alloc :: post, gen := gen })
    (hpre : ∀ a ∈ pre, isSameFlow a.flow alloc.flow lookupOptions = false) :
    lookupAlloc bundles hostId alloc.flow = if alloc.lopriRateLimitBps > 0 then 1 else 0 := by
  have hfind : (pre ++ alloc :: post).find?
      (fun a => isSameFlow a.flow alloc.flow lookupOptions) = some alloc := by
    rw [List.find?_append, List.find?_eq_none.mpr fun a ha => by simp [hpre a ha], Option.none_or]
    simp [isSameFlow_self]
  simp [lookupAlloc, hbundle, hfind]

theorem decodesAs_lopri {alloc : FlowAlloc}
    (hlopri : 0 < alloc.lopriRateLimitBps) (hhipri : alloc.hipriRateLimitBps = 0) :
    DecodesAs true alloc where
  host dcMapper := by simp [expandDestIntoHostsSinglePri, hlopri, hhipri, expected]
  cluster bundles hostId pre post gen hbundle hpre := by
    simp [lookupAlloc_of_first hbundle hpre, hlopri]

theorem decodesAs_hipri {alloc : FlowAlloc} (hlopri : alloc.lopriRateLimitBps ≤ 0) :
    DecodesAs false alloc where
  host dcMapper := by simp [expandDestIntoHostsSinglePri, hlopri.not_gt, expected]
  cluster bundles hostId pre post gen hbundle hpre := by
    simp [lookupAlloc_of_first hbundle hpre, hlopri.not_gt]

theorem not_decodesAs_lopri {alloc : FlowAlloc} (hlopri : alloc.lopriRateLimitBps ≤ 0) :
    ¬ DecodesAs true alloc := by
  intro h
  have hlookup := h.cluster (fun _ => some { flowAllocs := [alloc] }) 0 [] [] 0 rfl (by simp)
  have hbundle : (fun _ : UInt64 => some { flowAllocs := [alloc] }) 0 =
      some ({ flowAllocs := [] ++ alloc :: [], gen := 0 } : AllocBundle) := rfl
  rw [lookupAlloc_of_first hbundle (by simp), if_neg hlopri.not_gt] at hlookup
  simp at hlookup

def AllDecode (allocs : List ChildAlloc) : Prop := ∀ c ∈ allocs, DecodesAs c.isLopri c.alloc

def lopriDemands (allocs : List ChildAlloc) : List ℤ :=
  (allocs.filter (·.isLopri)).map (·.child.predictedDemandBps)

section Limits

variable {fp : Rounding} {part : StdPartition ℤ} {config : ClusterAllocatorConfig}
  {admission : ℤ} {D : List ℤ}

/--
The LOPRI level is positive: there is no LOPRI child, or the admission gives every
positive demand at least one unit, or there is no positive demand and the bonus gives
every child at least one unit.
-/
def LopriEncodable (config : ClusterAllocatorConfig) (admission : ℤ) (D : List ℤ) : Prop :=
  D = [] ∨ (0 < numPositive D ∧ (numPositive D : ℤ) ≤ admission) ∨
    (numPositive D = 0 ∧ config.enableBonus = true ∧ (D.length : ℤ) ≤ admission)
deriving Decidable

/-- Without a LOPRI child nothing is encoded; otherwise the limit has to fit in an `int64_t`. -/
def LimitFits (fp : Rounding) (part : StdPartition ℤ) (config : ClusterAllocatorConfig)
    (admission : ℤ) (D : List ℤ) : Prop :=
  D = [] ∨ limitProduct fp part config admission D < 2 ^ 63

theorem one_le_levelWithBonus_iff (part : StdPartition ℤ) (config : ClusterAllocatorConfig)
    (hsizes : Machine.NoOverflow admission D) (hD : D ≠ []) :
    0 ≤ levelWithBonus part config admission D ∧
      (1 ≤ levelWithBonus part config admission D ↔ LopriEncodable config admission D) := by
  have hadm := hsizes.capacity_nonneg
  obtain ⟨hnonneg, hiff⟩ := computeWaterlevel_pos_iff part hsizes.demand_nonneg hadm
  have hlen : (0 : ℤ) < D.length := by exact_mod_cast List.length_pos_iff.mpr hD
  have hcount := numPositive_le_length D
  have hbonus := evenlyDistributeExtra_nonneg hD admission (computeWaterlevel part {} admission D)
  simp only [levelWithBonus, hsizes.value_eq, LopriEncodable, hD, false_or]
  refine ⟨by split_ifs <;> omega, ?_⟩
  rcases hnonneg.eq_or_lt with hzero | hpos
  · -- The waterlevel is 0, so only the bonus can make the level positive.
    have hnot : ¬ (0 < numPositive D ∧ (numPositive D : ℤ) ≤ admission) := by
      rw [← hiff]
      omega
    have hdiv : 1 ≤ admission / (D.length : ℤ) ↔ (D.length : ℤ) ≤ admission := by
      rw [Int.le_ediv_iff_mul_le hlen, one_mul]
    rw [← hzero, evenlyDistributeExtra_eq hD, served_zero hsizes.demand_nonneg, sub_zero,
      max_eq_right hadm]
    cases config.enableBonus with
    | false => simp [hnot]
    | true =>
      simp only [if_true, true_and, hnot, false_or, zero_add, hdiv]
      omega
  · refine iff_of_true ?_ (.inl (hiff.mp hpos))
    split_ifs <;> omega

theorem doubleToInt64_pos_iff {q : ℚ} (hq : 0 ≤ q) : 0 < doubleToInt64 q ↔ 1 ≤ q ∧ q < 2 ^ 63 := by
  have hnonneg := Int.floor_nonneg.mpr hq
  have hlt : ⌊q⌋ < 2 ^ 63 ↔ q < 2 ^ 63 := by
    rw [Int.floor_lt]
    norm_num
  rw [doubleToInt64, truncInt, if_pos hq, ← hlt, ← Int.floor_pos]
  split_ifs <;> omega

/-- Rounding and a factor of at least one keep a level positive, and keep 0. -/
theorem one_le_round_mul_iff (fp : Rounding) {factor : ℚ} (hfactor : 1 ≤ factor) {x : ℤ}
    (hx : 0 ≤ x) :
    0 ≤ fp.round (factor * fp.round x) ∧ (1 ≤ fp.round (factor * fp.round x) ↔ 1 ≤ x) := by
  rcases hx.eq_or_lt with rfl | hpos
  · simp
  · have hone : (1 : ℚ) ∈ fp.values := by exact_mod_cast fp.intCast_mem 1 (by norm_num)
    have hx' : 1 ≤ fp.round x := fp.le_round hone (by exact_mod_cast hpos)
    have hproduct : 1 ≤ fp.round (factor * fp.round x) := fp.le_round hone (by nlinarith)
    exact ⟨by linarith, iff_of_true hproduct hpos⟩

theorem classLimit_pos_iff (hfactor : 1 ≤ config.oversubFactor)
    (hsizes : Machine.NoOverflow admission D) (hD : D ≠ []) :
    0 < classLimit fp part config admission D ↔
      LopriEncodable config admission D ∧ LimitFits fp part config admission D := by
  obtain ⟨hnonneg, hlevel⟩ := one_le_levelWithBonus_iff part config hsizes hD
  obtain ⟨hproduct, hone⟩ := one_le_round_mul_iff fp hfactor hnonneg
  rw [classLimit, limitProduct, doubleToInt64_pos_iff hproduct, hone, hlevel, LimitFits,
    limitProduct]
  simp [hD]

theorem lopriDemands_allocChildren
    (info : AggInfo) (mask : ChildMask info) (hipriLimit lopriLimit : ℤ) :
    lopriDemands (allocChildren info mask hipriLimit lopriLimit) = demandsOf info mask true := by
  simp [lopriDemands, allocChildren, demandsOf, List.filter_map, Function.comp_def]

theorem allDecode_allocChildren_iff
    (info : AggInfo) (mask : ChildMask info) (hipriLimit lopriLimit : ℤ) :
    AllDecode (allocChildren info mask hipriLimit lopriLimit) ↔
      demandsOf info mask true = [] ∨ 0 < lopriLimit := by
  constructor
  · intro h
    by_contra hnot
    obtain ⟨hne, hlimit⟩ := not_or.mp hnot
    obtain ⟨d, hd⟩ := List.exists_mem_of_ne_nil _ hne
    obtain ⟨p, hp, -⟩ := List.mem_map.mp hd
    obtain ⟨hmem, hlopri⟩ := List.mem_filter.mp hp
    have hdecode := h _ (List.mem_map_of_mem hmem)
    simp only [beq_iff_eq] at hlopri
    simp only [hlopri, if_true] at hdecode
    exact not_decodesAs_lopri (not_lt.mp hlimit) hdecode
  · intro hlimit c hc
    obtain ⟨p, hp, rfl⟩ := List.mem_map.mp hc
    cases hlopri : p.2 with
    | false =>
      simp only [Bool.false_eq_true, if_false]
      exact decodesAs_hipri le_rfl
    | true =>
      simp only [if_true]
      refine decodesAs_lopri (hlimit.resolve_left ?_) rfl
      refine List.ne_nil_of_mem (List.mem_map_of_mem (a := p) ?_)
      simp [hp, hlopri]

theorem allDecode_iff_encodable {info : AggInfo} {mask : ChildMask info} {hipriLimit : ℤ}
    (hfactor : 1 ≤ config.oversubFactor)
    (hsizes : Machine.NoOverflow admission (demandsOf info mask true)) :
    AllDecode (allocChildren info mask hipriLimit
        (classLimit fp part config admission (demandsOf info mask true))) ↔
      LopriEncodable config admission (demandsOf info mask true) ∧
        LimitFits fp part config admission (demandsOf info mask true) := by
  rw [allDecode_allocChildren_iff]
  by_cases hD : demandsOf info mask true = []
  · simp [hD, LopriEncodable, LimitFits]
  · rw [classLimit_pos_iff hfactor hsizes hD]
    simp [hD]

end Limits

def twoHosts : AggInfo where
  parent := { predictedDemandBps := 20, ewmaUsageBps := 20 }
  children := [{ predictedDemandBps := 10, ewmaUsageBps := 10 },
    { predictedDemandBps := 10, ewmaUsageBps := 10 }]

def pickAll : PickLopriChildren := fun info _ =>
  ⟨List.replicate info.children.length true, List.length_replicate⟩

def simpleWithLopri (lopri : ℤ) : SimpleDowngradeAllocator where
  config := {}
  aggAdmissions := [({}, { hipriRateLimitBps := 4, lopriRateLimitBps := lopri })]
  aggStates := [({}, {})]

def heypWithLopri (lopri : ℤ) : HeypSigcomm20Allocator where
  config := {}
  demandMultiplier := 1
  aggStates := [({}, { alloc := { hipriRateLimitBps := 4, lopriRateLimitBps := lopri } })]

section Allocators

variable {fp : Rounding} {part : StdPartition ℤ} {pick : PickLopriChildren} {info : AggInfo}

theorem simple_allocAgg_eq
    {a a' : SimpleDowngradeAllocator} {admissions : FlowAlloc} {allocs : List ChildAlloc}
    (hfind : a.aggAdmissions.find info.parent.flow = some admissions)
    (halloc : a.allocAgg fp part pick info = some (a', allocs)) :
    ∃ mask, allocs =
      SimpleDowngradeAllocator.allocPicked fp part a.config admissions info mask := by
  simp only [SimpleDowngradeAllocator.allocAgg, hfind, Option.bind_eq_bind,
    Option.bind_eq_some_iff, Option.some.injEq, Prod.mk.injEq] at halloc
  obtain ⟨state, -, frac, -, -, rfl⟩ := halloc
  exact ⟨_, rfl⟩

theorem simple_allDecode_iff
    {a a' : SimpleDowngradeAllocator} {admissions : FlowAlloc} {allocs : List ChildAlloc}
    (hfactor : 1 ≤ a.config.oversubFactor)
    (hfind : a.aggAdmissions.find info.parent.flow = some admissions)
    (halloc : a.allocAgg fp part pick info = some (a', allocs))
    (hsizes : Machine.NoOverflow (inForce fp a.config info admissions.lopriRateLimitBps)
      (lopriDemands allocs)) :
    AllDecode allocs ↔
      LopriEncodable a.config (inForce fp a.config info admissions.lopriRateLimitBps)
          (lopriDemands allocs) ∧
        LimitFits fp part a.config (inForce fp a.config info admissions.lopriRateLimitBps)
          (lopriDemands allocs) := by
  obtain ⟨mask, rfl⟩ := simple_allocAgg_eq hfind halloc
  rw [SimpleDowngradeAllocator.allocPicked, lopriDemands_allocChildren] at hsizes ⊢
  exact allDecode_iff_encodable hfactor hsizes

end Allocators

end QosEncoding
end HeypAgents
