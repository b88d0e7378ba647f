import HeypAgents.Alg.MaxMinFairnessPositive
import HeypAgents.ClusterAgent.PerAggAllocators

/-!
# The limits respect the admissions

All children of a class get the same limit, the waterlevel of the class and an even
share of what it leaves.  Together they carry at most the admission, as long as a
`double` holds it exactly.  When the demands of a class fit into its admission every
child gets its demand if the calls of `NthElement` find their positions: this is so for
at most 513 children of a class, and not for 514.
-/

namespace HeypAgents

open HybridQsort (StdPartition)
open WaterFilling
open MaxMinFairness

def FlowAlloc.limit (alloc : FlowAlloc) (lopri : Bool) : ℤ :=
  if lopri then alloc.lopriRateLimitBps else alloc.hipriRateLimitBps

def ChildAlloc.limit (c : ChildAlloc) : ℤ := c.alloc.limit c.isLopri

namespace PerAggAllocator

def classOf (allocs : List ChildAlloc) (lopri : Bool) : List ChildAlloc :=
  allocs.filter fun c => c.isLopri == lopri

/-- The children of the class carry at most the admission. -/
def Within (allocs : List ChildAlloc) (lopri : Bool) (admission : ℤ) : Prop :=
  ((classOf allocs lopri).map fun c => min c.child.predictedDemandBps c.limit).sum ≤ admission

def classDemands (allocs : List ChildAlloc) (lopri : Bool) : List ℤ :=
  (classOf allocs lopri).map (·.child.predictedDemandBps)

/-- If the demands of the class fit, every child of it gets its demand. -/
def Satisfied (allocs : List ChildAlloc) (lopri : Bool) (admission : ℤ) : Prop :=
  (classDemands allocs lopri).sum ≤ admission →
    ∀ c ∈ classOf allocs lopri, c.child.predictedDemandBps ≤ c.limit

structure Unscaled (config : ClusterAllocatorConfig) : Prop where
  burstiness : config.enableBurstiness = false
  oversub : config.oversubFactor = 1

section Limits

variable {fp : Rounding} {part : StdPartition ℤ} {config : ClusterAllocatorConfig}
  {admission : ℤ} {demands : List ℤ}

theorem Unscaled.inForce_eq (h : Unscaled config) (info : AggInfo) :
    inForce fp config info admission = admission := by
  rw [inForce, h.burstiness, if_neg Bool.false_ne_true]

/-- Up to `2 ^ 53` the product of the limit is exact. -/
theorem Unscaled.classLimit_eq (h : Unscaled config)
    (hnonneg : 0 ≤ levelWithBonus part config admission demands)
    (hexact : levelWithBonus part config admission demands ≤ 2 ^ 53) :
    classLimit fp part config admission demands =
      levelWithBonus part config admission demands := by
  have hround := fp.round_intCast (n := levelWithBonus part config admission demands)
    (by rwa [abs_of_nonneg hnonneg])
  rw [classLimit, limitProduct, h.oversub, one_mul, hround, hround, doubleToInt64, truncInt,
    Int.floor_intCast, Int.ceil_intCast, ite_self, if_pos (by omega)]

theorem levelWithBonus_nonneg (hsizes : Machine.NoOverflow admission demands)
    (hne : demands ≠ []) : 0 ≤ levelWithBonus part config admission demands := by
  have hlevel :=
    (computeWaterlevel_pos_iff part hsizes.demand_nonneg hsizes.capacity_nonneg).1
  have hbonus := evenlyDistributeExtra_nonneg hne admission
    (computeWaterlevel part {} admission demands)
  simp only [levelWithBonus, hsizes.value_eq]
  split_ifs <;> omega

theorem served_add_mul_bonus_le (part : StdPartition ℤ) (config : ClusterAllocatorConfig)
    (hsizes : Machine.NoOverflow admission demands) (hne : demands ≠ []) :
    served demands (computeWaterlevel part {} admission demands) + demands.length *
      (levelWithBonus part config admission demands -
        computeWaterlevel part {} admission demands) ≤ admission := by
  have hlevel := computeWaterlevel_feasible part {} hsizes.capacity_nonneg hsizes.demand_nonneg
  have hpos : (0 : ℤ) < demands.length := by exact_mod_cast List.length_pos_iff.mpr hne
  simp only [levelWithBonus, hsizes.value_eq, add_sub_cancel_left]
  split_ifs
  · rw [evenlyDistributeExtra_eq hne, max_eq_right (sub_nonneg.mpr hlevel)]
    linarith [Int.mul_ediv_self_le (x := admission - served demands
      (computeWaterlevel part {} admission demands)) hpos.ne']
  · rwa [mul_zero, add_zero]

theorem computeWaterlevel_le_levelWithBonus (part : StdPartition ℤ)
    (config : ClusterAllocatorConfig) (hsizes : Machine.NoOverflow admission demands)
    (hne : demands ≠ []) :
    computeWaterlevel part {} admission demands ≤ levelWithBonus part config admission demands := by
  simp only [levelWithBonus, hsizes.value_eq]
  split_ifs
  · exact le_add_of_nonneg_right (evenlyDistributeExtra_nonneg hne _ _)
  · exact (add_zero _).ge

theorem levelWithBonus_feasible (part : StdPartition ℤ) (config : ClusterAllocatorConfig)
    (hsizes : Machine.NoOverflow admission demands) (hne : demands ≠ []) :
    served demands (levelWithBonus part config admission demands) ≤ admission := by
  have hbonus := sub_nonneg.mpr
    (computeWaterlevel_le_levelWithBonus part config hsizes hne)
  have hadd := served_add_le demands (computeWaterlevel part {} admission demands) hbonus
  rw [add_sub_cancel] at hadd
  exact hadd.trans (served_add_mul_bonus_le part config hsizes hne)

/-- A level above the admission hands out the demands, which then fit whatever the limit is. -/
theorem served_le_of_lt_level {level : ℤ} (hd : ∀ d ∈ demands, 0 ≤ d) (hadm : 0 ≤ admission)
    (hserved : served demands level ≤ admission) (hlevel : admission < level) (x : ℤ) :
    served demands x ≤ admission := by
  have hle : ∀ d ∈ demands, d ≤ level := by
    intro d hmem
    have hmin : min d level ≤ served demands level := by
      refine List.single_le_sum (fun y hy => ?_) _ (List.mem_map_of_mem hmem)
      obtain ⟨e, he, rfl⟩ := List.mem_map.mp hy
      exact le_min (hd e he) (hadm.trans hlevel.le)
    omega
  rw [served_of_le hle] at hserved
  exact (served_le_sum demands x).trans hserved

theorem served_classLimit_le (h : Unscaled config) (hsizes : Machine.NoOverflow admission demands)
    (hexact : admission ≤ 2 ^ 53) :
    served demands (classLimit fp part config admission demands) ≤ admission := by
  rcases eq_or_ne demands [] with rfl | hne
  · exact hsizes.capacity_nonneg
  · have hfeasible := levelWithBonus_feasible part config hsizes hne
    rcases le_or_gt (levelWithBonus part config admission demands) admission with hle | hgt
    · rwa [h.classLimit_eq (levelWithBonus_nonneg hsizes hne) (hle.trans hexact)]
    · exact served_le_of_lt_level hsizes.demand_nonneg hsizes.capacity_nonneg hfeasible hgt _

/-- Demands that fit are met when the calls of `NthElement` find their positions. -/
theorem le_classLimit_of_fits (h : Unscaled config) (hsizes : Machine.NoOverflow admission demands)
    (hexact : admission ≤ 2 ^ 53) (hlands : CallsLand part {} admission demands)
    (hfit : demands.sum ≤ admission) {d : ℤ} (hmem : d ∈ demands) :
    d ≤ classLimit fp part config admission demands := by
  have hne := List.ne_nil_of_mem hmem
  have hpeak : computeWaterlevel part {} admission demands = peak demands :=
    (computeWaterlevel_isWaterlevel hsizes.capacity_nonneg hsizes.demand_nonneg
      hlands).satisfied hfit
  have hlevel := computeWaterlevel_le_levelWithBonus part config hsizes hne
  have hbonus := served_add_mul_bonus_le part config hsizes hne
  have hsum : peak demands ≤ demands.sum := by
    rcases peak_mem demands with hzero | hpeak
    · rw [hzero]
      exact List.sum_nonneg hsizes.demand_nonneg
    · exact List.single_le_sum hsizes.demand_nonneg _ hpeak
  rw [hpeak, served_of_le fun d hd => le_peak hd] at hbonus
  have hlen : (1 : ℤ) ≤ demands.length := by exact_mod_cast List.length_pos_iff.mpr hne
  have hle : levelWithBonus part config admission demands ≤ admission := by
    nlinarith [hpeak ▸ hlevel]
  rw [h.classLimit_eq (levelWithBonus_nonneg hsizes hne) (hle.trans hexact)]
  exact (le_peak hmem).trans (hpeak ▸ hlevel)

theorem mem_classOf_allocChildren
    {info : AggInfo} {mask : ChildMask info} {hipriLimit lopriLimit : ℤ} {lopri : Bool}
    {c : ChildAlloc} (hc : c ∈ classOf (allocChildren info mask hipriLimit lopriLimit) lopri) :
    c.limit = if lopri then lopriLimit else hipriLimit := by
  obtain ⟨hmem, hclass⟩ := List.mem_filter.mp hc
  obtain ⟨p, -, rfl⟩ := List.mem_map.mp hmem
  obtain rfl : p.2 = lopri := by simpa using hclass
  cases p.2 <;> simp [ChildAlloc.limit, FlowAlloc.limit]

theorem classDemands_allocChildren
    (info : AggInfo) (mask : ChildMask info) (hipriLimit lopriLimit : ℤ) (lopri : Bool) :
    classDemands (allocChildren info mask hipriLimit lopriLimit) lopri =
      demandsOf info mask lopri := by
  simp [classDemands, classOf, allocChildren, demandsOf, List.filter_map, Function.comp_def]

theorem carried_classOf_allocChildren
    (info : AggInfo) (mask : ChildMask info) (hipriLimit lopriLimit : ℤ) (lopri : Bool) :
    ((classOf (allocChildren info mask hipriLimit lopriLimit) lopri).map fun c =>
        min c.child.predictedDemandBps c.limit).sum =
      served (demandsOf info mask lopri) (if lopri then lopriLimit else hipriLimit) := by
  rw [← classDemands_allocChildren info mask hipriLimit lopriLimit, classDemands, served,
    List.map_map]
  refine congrArg List.sum (List.map_congr_left fun c hc => ?_)
  rw [mem_classOf_allocChildren hc]
  rfl

/--
A class whose sizes do not overflow the solver, and whose admission a `double` holds
exactly, carries at most the admission.  It gets demands that fit if it has at most 513
children, or the calls of `NthElement` find their positions.
-/
def Respects (part : StdPartition ℤ) (allocs : List ChildAlloc) (admissions : FlowAlloc) : Prop :=
  ∀ lopri, Machine.NoOverflow (admissions.limit lopri) (classDemands allocs lopri) →
    admissions.limit lopri ≤ 2 ^ 53 →
    Within allocs lopri (admissions.limit lopri) ∧
      ((classDemands allocs lopri).length ≤ 513 ∨
          CallsLand part {} (admissions.limit lopri) (classDemands allocs lopri) →
        Satisfied allocs lopri (admissions.limit lopri))

theorem respects_allocChildren (fp : Rounding) (part : StdPartition ℤ) (h : Unscaled config)
    (info : AggInfo) (mask : ChildMask info) (admissions : FlowAlloc) {hipriLimit lopriLimit : ℤ}
    (hlimit : ∀ lopri, (if lopri then lopriLimit else hipriLimit) =
      classLimit fp part config (admissions.limit lopri) (demandsOf info mask lopri)) :
    Respects part (allocChildren info mask hipriLimit lopriLimit) admissions := by
  intro lopri hsizes hexact
  rw [classDemands_allocChildren] at hsizes ⊢
  constructor
  · rw [Within, carried_classOf_allocChildren, hlimit]
    exact served_classLimit_le h hsizes hexact
  · intro hlands hfit c hc
    rw [classDemands_allocChildren] at hfit
    have hmem : c.child.predictedDemandBps ∈ demandsOf info mask lopri := by
      rw [← classDemands_allocChildren info mask hipriLimit lopriLimit]
      exact List.mem_map_of_mem hc
    rw [mem_classOf_allocChildren hc, hlimit]
    refine le_classLimit_of_fits h hsizes hexact (hlands.elim (fun hlen => ?_) id) hfit hmem
    exact callsLand_of_fits hsizes.capacity_nonneg hlen (List.ne_nil_of_mem hmem) hfit

end Limits

section Unmet

variable (part : StdPartition ℤ) {config : ClusterAllocatorConfig}

def unmetInfo : AggInfo where
  parent := {}
  children := unmetDemands.map fun d => { predictedDemandBps := d }

theorem zip_none (info : AggInfo) :
    info.children.zip (ChildMask.none info).bits =
      info.children.map fun child => (child, false) := by
  simp only [ChildMask.none]
  induction info.children with
  | nil => rfl
  | cons child children ih =>
    rw [List.length_cons, List.replicate_succ, List.zip_cons_cons, ih, List.map_cons]

theorem demandsOf_none (info : AggInfo) :
    demandsOf info (.none info) false = info.children.map (·.predictedDemandBps) := by
  rw [demandsOf, zip_none, List.filter_eq_self.mpr (by simp), List.map_map]
  rfl

theorem demandsOf_unmetInfo : demandsOf unmetInfo (.none unmetInfo) false = unmetDemands := by
  rw [demandsOf_none]
  simp [unmetInfo, Function.comp_def]

theorem noOverflow_unmetDemands : Machine.NoOverflow 154671 unmetDemands := by decide +kernel

theorem levelWithBonus_unmetDemands_le (config : ClusterAllocatorConfig) :
    levelWithBonus part config 154671 unmetDemands ≤ 302 := by
  have hserved : ∀ x, served unmetDemands x =
      min 0 x + (256 * min 301 x + (256 * min 302 x + min 303 x)) := by
    intro x
    have hblock : ∀ v, served (block v) x = 256 * min v x := fun v => by
      rw [served, block, List.map_replicate, List.sum_replicate, nsmul_eq_mul, Nat.cast_ofNat]
    simp [unmetDemands, largeDemands, hblock]
  have hlength : (unmetDemands.length : ℤ) = 514 := by
    simp [unmetDemands, largeDemands_length]
  have hlevel := computeWaterlevel_unmetDemands_le part
  simp only [levelWithBonus, noOverflow_unmetDemands.value_eq]
  rw [evenlyDistributeExtra_eq (by simp [unmetDemands]), hserved, hlength]
  split_ifs <;> omega

theorem not_satisfied_unmetInfo (fp : Rounding) (h : Unscaled config) (lopriLimit : ℤ) :
    ¬ Satisfied (allocChildren unmetInfo (.none unmetInfo)
      (classLimit fp part config 154671 unmetDemands) lopriLimit) false 154671 := by
  intro hsatisfied
  have hdemands := classDemands_allocChildren unmetInfo (.none unmetInfo)
    (classLimit fp part config 154671 unmetDemands) lopriLimit false
  rw [demandsOf_unmetInfo] at hdemands
  have hmem : (303 : ℤ) ∈ unmetDemands := by simp [unmetDemands, largeDemands]
  rw [← hdemands] at hmem
  obtain ⟨c, hc, hdemand⟩ := List.mem_map.mp hmem
  have hle := hsatisfied (by rw [hdemands, unmetDemands_sum]) c hc
  have hlevel := levelWithBonus_unmetDemands_le part config
  rw [hdemand, mem_classOf_allocChildren hc, if_neg Bool.false_ne_true, h.classLimit_eq
    (levelWithBonus_nonneg noOverflow_unmetDemands (by simp [unmetDemands])) (by omega)] at hle
  omega

end Unmet

end PerAggAllocator

open PerAggAllocator

section Allocators

variable {info : AggInfo}

theorem map_child_allocChildren (mask : ChildMask info) (hipriLimit lopriLimit : ℤ) :
    (allocChildren info mask hipriLimit lopriLimit).map (·.child) = info.children := by
  simp only [allocChildren, List.map_map, Function.comp_def]
  exact List.map_fst_zip mask.length_eq.ge

theorem map_isLopri_allocChildren (mask : ChildMask info) (hipriLimit lopriLimit : ℤ) :
    (allocChildren info mask hipriLimit lopriLimit).map (·.isLopri) = mask.bits := by
  simp only [allocChildren, List.map_map, Function.comp_def]
  exact List.map_snd_zip mask.length_eq.le

/-- Without a LOPRI child the LOPRI limit is arbitrary. -/
theorem BweAggAllocator.allocAgg_eq (fp : Rounding) (part : StdPartition ℤ)
    {a : BweAggAllocator} {admission : FlowAlloc} (h : Unscaled a.config)
    (hfind : a.aggAdmissions.find info.parent.flow = some admission)
    (hlopri : admission.lopriRateLimitBps = 0) (lopriLimit : ℤ) :
    a.allocAgg fp part info = some (allocChildren info (.none info)
      (classLimit fp part a.config admission.hipriRateLimitBps
        (demandsOf info (.none info) false)) lopriLimit) := by
  simp only [allocAgg, hfind, hlopri, if_true, h.inForce_eq, demandsOf_none, allocChildren,
    zip_none, List.map_map]
  rfl

def unscaledConfig (enableBonus : Bool) : ClusterAllocatorConfig where
  enableBurstiness := false
  enableBonus := enableBonus
  oversubFactor := 1

theorem unscaled_unscaledConfig (enableBonus : Bool) : Unscaled (unscaledConfig enableBonus) :=
  ⟨rfl, rfl⟩

def bweWithHipri (enableBonus : Bool) (hipri : ℤ) : BweAggAllocator where
  config := unscaledConfig enableBonus
  aggAdmissions := [({}, { hipriRateLimitBps := hipri })]

def heypWithAdmissions (enableBonus : Bool) (hipri lopri : ℤ) : HeypSigcomm20Allocator where
  config := unscaledConfig enableBonus
  demandMultiplier := 1
  aggStates := [({}, { alloc := { hipriRateLimitBps := hipri, lopriRateLimitBps := lopri } })]

def pickNone : PickLopriChildren := fun info _ => .none info

def twoChildren : AggInfo where
  parent := {}
  children := [{ predictedDemandBps := 10 }, { predictedDemandBps := 20 }]

end Allocators

end HeypAgents
