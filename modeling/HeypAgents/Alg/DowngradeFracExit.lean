import HeypAgents.Flows.AggState

/-!
# The fatal exit of the feedback controller

`TrafficFracToDowngrade` on the usage that an aggregate has estimated.  The three
estimates of an aggregate are rounded one by one, so the total may exceed the sum
of its parts by one, and an admission of that total can be more than twice the
usage that the controller divides by.
-/

namespace HeypAgents
namespace DowngradeFracController

open Flows Runs

section Estimates

variable {s s' : AggState} {u : AggState.Update} {usageHistoryWindow : ℚ}
  {demandPredictor : DemandPredictor}

structure Balanced (u : AggState.Update) : Prop where
  sum : u.sumChildUsageBps = u.sumChildHipriUsageBps + u.sumChildLopriUsageBps
  hipri : 0 ≤ u.sumChildHipriUsageBps
  lopri : 0 ≤ u.sumChildLopriUsageBps

theorem measured_nonneg {sum cum last : ℤ} (h : 0 ≤ sum) : 0 ≤ s.measured u sum cum last := by
  have hsum : (0 : ℚ) ≤ sum := by exact_mod_cast h
  unfold AggState.measured
  split
  · exact hsum
  · split_ifs
    · exact le_max_of_le_right hsum
    · exact hsum

theorem measured_add_le (sum sum' cum cum' last last' : ℤ) :
    s.measured u (sum + sum') (cum + cum') (last + last') ≤
      s.measured u sum cum last + s.measured u sum' cum' last' := by
  unfold AggState.measured
  split
  · exact le_of_eq (by push_cast; rfl)
  · rename_i t _
    split_ifs
    · have hmean : ((8 * (cum + cum' - (last + last')) : ℤ) : ℚ) / (u.time - t) =
          (8 * (cum - last) : ℤ) / (u.time - t) + (8 * (cum' - last') : ℤ) / (u.time - t) := by
        rw [← add_div]
        congr 1
        push_cast
        ring
      rw [hmean, Int.cast_add]
      exact max_add_add_le_max_add_max
    · exact le_of_eq (by push_cast; rfl)

theorem truncInt_le_add_one {q r r' : ℚ} (hq : 0 ≤ q) (hr : 0 ≤ r) (hr' : 0 ≤ r') (h : q ≤ r + r') :
    truncInt q ≤ truncInt r + truncInt r' + 1 := by
  rw [truncInt, truncInt, truncInt, if_pos hq, if_pos hr, if_pos hr']
  have hmono : ⌊q⌋ ≤ ⌊r + r'⌋ := Int.floor_le_floor h
  have hadd := Int.le_floor_add_floor r r'
  omega

structure WithinOne (s : AggState) : Prop where
  plain : s.smoothUsage = false
  sum : s.cur.cumUsageBytes = s.cur.cumHipriUsageBytes + s.cur.cumLopriUsageBytes
  hipri : 0 ≤ s.cur.ewmaHipriUsageBps
  lopri : 0 ≤ s.cur.ewmaLopriUsageBps
  usage : s.cur.ewmaUsageBps ≤ s.cur.ewmaHipriUsageBps + s.cur.ewmaLopriUsageBps + 1

theorem withinOne_create (flow : FlowMarker) : WithinOne (AggState.create flow false) :=
  ⟨rfl, rfl, le_rfl, le_rfl, zero_le_one⟩

/-- An update of the estimates keeps them within one of the sum. -/
theorem WithinOne.updateUsage (h : WithinOne s) (hu : Balanced u)
    (hupdate : s.updateUsage u usageHistoryWindow demandPredictor = some s') : WithinOne s' := by
  rcases AggState.updateUsage_cases hupdate with ⟨-, rfl⟩ | ⟨-, -, rfl | rfl⟩
  · exact h
  · exact ⟨h.plain, rfl, h.hipri, h.lopri, h.usage⟩
  · have hestimate : ∀ measuredBps oldBps, s.estimate measuredBps oldBps = truncInt measuredBps := by
      intro measuredBps oldBps
      simp [AggState.estimate, h.plain]
    have hhipri : 0 ≤ s.measuredHipriUsageBps u := measured_nonneg hu.hipri
    have hlopri : 0 ≤ s.measuredLopriUsageBps u := measured_nonneg hu.lopri
    have husage : 0 ≤ s.measuredUsageBps u :=
      measured_nonneg (by rw [hu.sum]; exact add_nonneg hu.hipri hu.lopri)
    have hle : s.measuredUsageBps u ≤ s.measuredHipriUsageBps u + s.measuredLopriUsageBps u := by
      rw [AggState.measuredUsageBps, hu.sum, h.sum]
      exact measured_add_le _ _ _ _ _ _
    refine ⟨h.plain, rfl, ?_, ?_, ?_⟩ <;> simp only [AggState.reestimate, hestimate]
    · exact truncInt_nonneg hhipri
    · exact truncInt_nonneg hlopri
    · exact truncInt_le_add_one husage hhipri hlopri hle

end Estimates

section Exit

variable {controller : DowngradeFracController}

theorem trafficFracToDowngrade_eq_none_iff
    (hgain : 0 ≤ controller.propGain ∧ controller.propGain ≤ 1)
    {hipri lopri limit : ℚ} (hlopri : 0 ≤ lopri) (hlimit : 0 ≤ limit)
    (htotal : 0 < hipri + lopri) (maxTaskUsageBps : ℚ) :
    controller.trafficFracToDowngrade hipri lopri limit maxTaskUsageBps = none ↔
      hipri + lopri < controller.propGain * (limit - hipri) := by
  have hx : controller.propGain * (hipri / (hipri + lopri) - limit / (hipri + lopri)) * 1 =
      controller.propGain * (hipri - limit) / (hipri + lopri) := by
    rw [← sub_div, mul_one, mul_div_assoc]
  have hlow : controller.propGain * (hipri - limit) / (hipri + lopri) < -1 ↔
      hipri + lopri < controller.propGain * (limit - hipri) := by
    rw [div_lt_iff₀ htotal]
    constructor <;> intro h <;> linarith
  have hhigh : ¬ 1 < controller.propGain * (hipri - limit) / (hipri + lopri) := by
    rw [lt_div_iff₀ htotal, not_lt, one_mul]
    rcases le_total hipri limit with hle | hle
    · linarith [mul_nonneg hgain.1 (sub_nonneg.mpr hle)]
    · linarith [mul_le_of_le_one_left (sub_nonneg.mpr hle) hgain.2]
  -- The increment is negative where the exit is reached, so no overage is ignored.
  have hover : hipri + lopri < controller.propGain * (limit - hipri) →
      ¬ 0 < hipri / (hipri + lopri) - limit / (hipri + lopri) := by
    intro h
    rw [← sub_div, not_lt]
    refine div_nonpos_of_nonpos_of_nonneg ?_ htotal.le
    by_contra hpos
    have hneg := mul_nonneg hgain.1 (not_le.mp hpos).le
    linarith
  unfold trafficFracToDowngrade trafficFracToDowngradeRaw
  simp only [htotal.ne', if_false, hx]
  split_ifs with hbelow hcoarse hexit
  · exact iff_of_false (by simp) fun h => hover h hbelow.1
  · exact iff_of_false (by simp) fun h => hover h hcoarse.1
  · exact iff_of_true rfl (hlow.mp (hexit.resolve_right hhigh))
  · exact iff_of_false (by simp) fun h => hexit (.inl (hlow.mpr h))

/--
On the usage of an aggregate and an admission that is at most its total, the controller
exits iff nothing is HIPRI, the admission is the LOPRI usage and one more, and the gain is
large enough for the difference.
-/
theorem trafficFracToDowngrade_isSome_iff
    (flow : FlowMarker) (usageHistoryWindow : ℚ) (demandPredictor : DemandPredictor)
    (updates : List AggState.Update) (hupdates : ∀ u ∈ updates, Balanced u) (s : AggState)
    (hrun : exec (fun s u => AggState.updateUsage s u usageHistoryWindow demandPredictor)
      (AggState.create flow false) updates = some s)
    (hipriAdmission : ℤ)
    (hadmission : 0 ≤ hipriAdmission ∧ hipriAdmission ≤ s.cur.ewmaUsageBps)
    (htotal : 0 < s.cur.ewmaHipriUsageBps + s.cur.ewmaLopriUsageBps)
    (controller : DowngradeFracController)
    (hgain : 0 ≤ controller.propGain ∧ controller.propGain ≤ 1) (maxTaskUsageBps : ℚ) :
    (controller.trafficFracToDowngrade s.cur.ewmaHipriUsageBps s.cur.ewmaLopriUsageBps
        hipriAdmission maxTaskUsageBps).isSome ↔
      ¬ (s.cur.ewmaHipriUsageBps = 0 ∧ hipriAdmission = s.cur.ewmaLopriUsageBps + 1 ∧
        s.cur.ewmaLopriUsageBps < controller.propGain * (s.cur.ewmaLopriUsageBps + 1)) := by
  have hwithin : WithinOne s :=
    exec_invariant_of_allSteps (C := fun _ u => Balanced u)
      (fun s u s' hs hu hstep => hs.updateUsage hu hstep) (withinOne_create flow)
      (fun pre u s' hpre _ => hupdates u (hpre.subset (by simp))) hrun
  have hlopri : (0 : ℚ) ≤ s.cur.ewmaLopriUsageBps := by exact_mod_cast hwithin.lopri
  have hlimit : (0 : ℚ) ≤ hipriAdmission := by exact_mod_cast hadmission.1
  have hsum : (0 : ℚ) < s.cur.ewmaHipriUsageBps + s.cur.ewmaLopriUsageBps := by
    exact_mod_cast htotal
  have hnone := trafficFracToDowngrade_eq_none_iff hgain hlopri hlimit hsum maxTaskUsageBps
  rw [← not_iff_not, not_not, Option.not_isSome_iff_eq_none, hnone]
  constructor
  · intro hexit
    have hmore : s.cur.ewmaHipriUsageBps + s.cur.ewmaLopriUsageBps <
        hipriAdmission - s.cur.ewmaHipriUsageBps := by
      have htotal' : (0 : ℚ) < s.cur.ewmaHipriUsageBps + s.cur.ewmaLopriUsageBps := by
        exact_mod_cast htotal
      have hpos : (0 : ℚ) < hipriAdmission - s.cur.ewmaHipriUsageBps := by
        by_contra hneg
        linarith [mul_nonneg hgain.1 (neg_nonneg.mpr (not_lt.mp hneg))]
      have hle := mul_le_of_le_one_left hpos.le hgain.2
      exact_mod_cast hexit.trans_le hle
    have hhipri := hwithin.hipri
    have husage := hwithin.usage
    have hzero : s.cur.ewmaHipriUsageBps = 0 := by omega
    have hone : hipriAdmission = s.cur.ewmaLopriUsageBps + 1 := by omega
    refine ⟨hzero, hone, ?_⟩
    simpa [hzero, hone] using hexit
  · rintro ⟨hzero, hone, hgain⟩
    simpa [hzero, hone] using hgain

def fewBytes : List AggState.Update :=
  [{ time := 0 }, { time := 10, cumHipriUsageBytes := 1, cumLopriUsageBytes := 2 }]

theorem exists_exec_fewBytes :
    ∃ s, exec (fun s u => AggState.updateUsage s u 120 fun _ _ => 0)
        (AggState.create {} false) fewBytes = some s ∧
      s.cur.ewmaUsageBps = 2 ∧ s.cur.ewmaHipriUsageBps = 0 ∧ s.cur.ewmaLopriUsageBps = 1 := by
  have hcur : (exec (fun s u => AggState.updateUsage s u 120 fun _ _ => 0)
      (AggState.create {} false) fewBytes).map (fun s => (s.cur.ewmaUsageBps,
        s.cur.ewmaHipriUsageBps, s.cur.ewmaLopriUsageBps)) = some (2, 0, 1) := by
    decide +kernel
  obtain ⟨s, hrun, heq⟩ := Option.map_eq_some_iff.mp hcur
  simp only [Prod.mk.injEq] at heq
  exact ⟨s, hrun, heq⟩

theorem trafficFracToDowngrade_isSome_fewBytes :
    ∃ s, exec (fun s u => AggState.updateUsage s u 120 fun _ _ => 0)
        (AggState.create {} false) fewBytes = some s ∧
      (trafficFracToDowngrade {} s.cur.ewmaHipriUsageBps s.cur.ewmaLopriUsageBps
        (1 : ℤ) 1).isSome := by
  obtain ⟨s, hrun, husage, hhipri, hlopri⟩ := exists_exec_fewBytes
  have hbalanced : ∀ u ∈ fewBytes, Balanced u := by
    simp only [fewBytes, List.forall_mem_cons, List.not_mem_nil, false_imp_iff, implies_true,
      and_true]
    exact ⟨⟨rfl, le_rfl, le_rfl⟩, ⟨rfl, le_rfl, le_rfl⟩⟩
  refine ⟨s, hrun, (trafficFracToDowngrade_isSome_iff {} 120 (fun _ _ => 0) fewBytes hbalanced s
    hrun 1 ?_ ?_ {} ?_ 1).mpr ?_⟩
  · rw [husage]
    decide
  · rw [hhipri, hlopri]
    decide
  · norm_num
  · rw [hlopri]
    rintro ⟨-, hone, -⟩
    exact absurd hone (by decide)

/-- An admission of the whole usage, 2, makes the controller exit on an increment of -3/2. -/
theorem trafficFracToDowngrade_none_fewBytes :
    ∃ s, exec (fun s u => AggState.updateUsage s u 120 fun _ _ => 0)
        (AggState.create {} false) fewBytes = some s ∧
      s.cur.ewmaUsageBps = 2 ∧ 0 < s.cur.ewmaHipriUsageBps + s.cur.ewmaLopriUsageBps ∧
      trafficFracToDowngrade {} s.cur.ewmaHipriUsageBps s.cur.ewmaLopriUsageBps (2 : ℤ) 1 =
        none := by
  obtain ⟨s, hrun, husage, hhipri, hlopri⟩ := exists_exec_fewBytes
  refine ⟨s, hrun, husage, ?_, ?_⟩ <;> rw [hhipri, hlopri]
  · decide
  · decide +kernel


end Exit

end DowngradeFracController
end HeypAgents
