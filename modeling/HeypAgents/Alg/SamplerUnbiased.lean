import HeypAgents.Lib.GroupFold
import HeypAgents.Lib.IndependentTrials
import HeypAgents.Alg.MaxMinFairnessDist
import HeypAgents.Alg.Sampler

/-!
# Threshold sampling is unbiased

The estimators of `sampler.h` weight an included usage by the inverse of its
probability.  Over all outcomes of the sampling the estimate of the total usage is
right on average, and the estimated distribution of the usages has the estimated total.
-/

namespace HeypAgents
namespace ThresholdSampler

open IndependentTrials GroupFold

section UsageDist

/-- `counts` are the entries of a hash table. -/
structure UsageDistEstimator where
  approval : ℚ
  thresh : ℚ
  counts : AList (fun _ : ℚ => ℕ) := ∅

def newUsageDistEstimator (s : ThresholdSampler) : UsageDistEstimator where
  approval := s.approval
  thresh := s.thresh

namespace UsageDistEstimator

def recordSample (e : UsageDistEstimator) (usage : ℚ) : UsageDistEstimator :=
  { e with counts := e.counts.insert usage ((e.counts.lookup usage).getD 0 + 1) }

/-- `none` when a division by zero makes a count infinite. -/
def estDist (e : UsageDistEstimator) : Option (List ValCount) :=
  if e.counts.entries.any fun c => thresholdSamplingProbOf e.approval e.thresh c.1 = 0 then none
  else
    some (e.counts.entries.map fun c =>
      { val := c.1
        expectedCount := c.2 / thresholdSamplingProbOf e.approval e.thresh c.1 })

end UsageDistEstimator

variable {s : ThresholdSampler}

theorem foldl_recordSample_usageDist (samples : List ℚ) (e : UsageDistEstimator) :
    samples.foldl UsageDistEstimator.recordSample e =
      { e with counts := groupFold id 0 (fun count _ => count + 1) e.counts samples } := by
  induction samples generalizing e with
  | nil => rfl
  | cons usage samples ih =>
    rw [List.foldl_cons, ih, groupFold_cons]
    rfl

theorem sum_estDist (samples : List ℚ)
    (hprob : ∀ u ∈ samples, thresholdSamplingProbOf s.approval s.thresh u ≠ 0) :
    ∃ dist, (samples.foldl UsageDistEstimator.recordSample s.newUsageDistEstimator).estDist =
        some dist ∧
      (dist.map fun vc => vc.val * vc.expectedCount).sum = (samples.map s.weight).sum := by
  rw [foldl_recordSample_usageDist, UsageDistEstimator.estDist, if_neg]
  · refine ⟨_, rfl, ?_⟩
    rw [List.map_map]
    have hsum := @sum_entries_groupFold _ _ _ _ id 0 (fun count _ => count + 1) ∅ _ _
      (fun usage (count : ℕ) => usage * (count / thresholdSamplingProbOf s.approval s.thresh usage))
      s.weight (fun _ => by simp) ?_ samples
    · exact hsum.trans (by simp)
    · intro count usage
      simp only [id_eq, weight, Rounding.ideal_round]
      push_cast
      ring
  · intro hany
    obtain ⟨c, hc, hzero⟩ := List.any_eq_true.mp hany
    have hmem : c.1 ∈ groupFold id 0 (fun count (_ : ℚ) => count + 1) ∅ samples :=
      List.mem_keys_of_mem hc
    rw [mem_groupFold] at hmem
    obtain ⟨usage, husage, hkey⟩ := hmem.resolve_left (AList.notMem_empty _)
    rw [← hkey] at hzero
    exact hprob usage husage (of_decide_eq_true hzero)

end UsageDist

section Unbiased

variable {s : ThresholdSampler}

/-- The probability of a usage, with which `ShouldInclude` compares a draw from [0, 1). -/
def probOf (s : ThresholdSampler) (usage : ℚ) : ℚ :=
  thresholdSamplingProbOf s.approval s.thresh usage

/-- `EstUsage` after samples were recorded. -/
def estUsageOf (s : ThresholdSampler) (samples : List ℚ) : Option ℚ :=
  (samples.foldl (fun e usage => e.recordSample usage) s.newAggUsageEstimator).estUsage

theorem estUsageOf_eq_some {samples : List ℚ} (h : ∀ u ∈ samples, s.probOf u ≠ 0) :
    s.estUsageOf samples = some (samples.map s.weight).sum :=
  (est_eq_some_iff s samples _).mpr ⟨h, estimate_ideal s samples⟩

variable {numSamplesAtApproval approval : ℚ}

theorem probOf_create (hsamples : 0 < numSamplesAtApproval) (happroval : 0 ≤ approval)
    {usage : ℚ} (husage : 0 ≤ usage) :
    0 ≤ (create numSamplesAtApproval approval).probOf usage ∧
      (create numSamplesAtApproval approval).probOf usage ≤ 1 ∧
      ((create numSamplesAtApproval approval).probOf usage = 0 → usage = 0) := by
  rw [probOf, create, thresholdSamplingProbOf]
  split_ifs with hzero
  · exact ⟨zero_le_one, le_refl _, fun h => absurd h one_ne_zero⟩
  · have hthresh : 0 < numSamplesAtApproval / approval :=
      div_pos hsamples (happroval.lt_of_ne (Ne.symm hzero))
    refine ⟨le_min (mul_nonneg husage hthresh.le) zero_le_one, min_le_right _ _, fun h => ?_⟩
    by_contra hne
    have hpos : 0 < usage * (numSamplesAtApproval / approval) :=
      mul_pos (husage.lt_of_ne (Ne.symm hne)) hthresh
    exact (lt_min hpos one_pos).ne' h

theorem probOf_mul_weight (hsamples : 0 < numSamplesAtApproval) (happroval : 0 ≤ approval)
    {usage : ℚ} (husage : 0 ≤ usage) :
    (create numSamplesAtApproval approval).probOf usage *
      (create numSamplesAtApproval approval).weight usage = usage := by
  rw [weight, Rounding.ideal_round, ← probOf]
  by_cases hzero : (create numSamplesAtApproval approval).probOf usage = 0
  · rw [hzero, zero_mul, (probOf_create hsamples happroval husage).2.2 hzero]
  · rw [mul_div_cancel₀ _ hzero]

/--
In every outcome that can happen the estimate is finite, and its expectation over the
outcomes of including each usage independently with its probability is the sum of the
usages.  For all recorded samples the estimated distribution, in whatever order its entries
come, has the estimated usage as its total.
-/
theorem estUsage_unbiased (hsamples : 0 < numSamplesAtApproval) (happroval : 0 ≤ approval) :
    (∀ usages : List ℚ, (∀ u ∈ usages, 0 ≤ u) →
      (∀ u ∈ usages, 0 ≤ (create numSamplesAtApproval approval).probOf u ∧
        (create numSamplesAtApproval approval).probOf u ≤ 1) ∧
      (∀ outcome ∈ outcomes usages.length,
        prob (usages.map (create numSamplesAtApproval approval).probOf) outcome ≠ 0 →
          ∃ est, (create numSamplesAtApproval approval).estUsageOf (selection usages outcome) =
            some est) ∧
      expectation (usages.map (create numSamplesAtApproval approval).probOf) (fun outcome =>
        ((create numSamplesAtApproval approval).estUsageOf (selection usages outcome)).getD 0) =
        usages.sum) ∧
    ∀ samples : List ℚ, (∀ u ∈ samples, 0 < u) →
      ∃ est dist, (create numSamplesAtApproval approval).estUsageOf samples = some est ∧
        (samples.foldl UsageDistEstimator.recordSample
          (create numSamplesAtApproval approval).newUsageDistEstimator).estDist = some dist ∧
        ∀ entries : List ValCount, entries.Perm dist →
          (entries.map fun vc => vc.val * vc.expectedCount).sum = est := by
  refine ⟨fun usages husages => ⟨fun u hu => ?_, fun outcome _ hprob => ?_, ?_⟩,
    fun samples hpos => ?_⟩
  · obtain ⟨hnonneg, hle, -⟩ := probOf_create hsamples happroval (husages u hu)
    exact ⟨hnonneg, hle⟩
  · exact ⟨_, estUsageOf_eq_some fun u hu => ne_zero_of_mem_selection hprob hu⟩
  · calc expectation (usages.map (create numSamplesAtApproval approval).probOf) (fun outcome =>
          ((create numSamplesAtApproval approval).estUsageOf (selection usages outcome)).getD 0)
        = expectation (usages.map (create numSamplesAtApproval approval).probOf) (fun outcome =>
            ((selection usages outcome).map
              (create numSamplesAtApproval approval).weight).sum) := by
          refine expectation_congr fun outcome _ hprob => ?_
          rw [estUsageOf_eq_some fun u hu => ne_zero_of_mem_selection hprob hu, Option.getD_some]
      _ = (usages.map fun u => (create numSamplesAtApproval approval).probOf u *
            (create numSamplesAtApproval approval).weight u).sum :=
          expectation_sum_selection _ _ _
      _ = usages.sum := by
          rw [List.map_congr_left fun u hu =>
            probOf_mul_weight hsamples happroval (husages u hu), List.map_id']
  · have hprob : ∀ u ∈ samples, (create numSamplesAtApproval approval).probOf u ≠ 0 :=
      fun u hu hzero =>
        (hpos u hu).ne' ((probOf_create hsamples happroval (hpos u hu).le).2.2 hzero)
    obtain ⟨dist, hdist, hsum⟩ := sum_estDist samples hprob
    refine ⟨_, dist, estUsageOf_eq_some hprob, hdist, fun entries hperm => ?_⟩
    rw [(hperm.map _).sum_eq, hsum]

/-- Three hosts, of which one is idle and one is always included. -/
theorem estUsage_unbiased_three_hosts :
    expectation ([0, 2, 50].map (create 5 100).probOf) (fun outcome =>
        ((create 5 100).estUsageOf (selection [0, 2, 50] outcome)).getD 0) = 52 ∧
      ∃ est dist, (create 5 100).estUsageOf [2, 50, 2] = some est ∧
        ([2, 50, 2].foldl UsageDistEstimator.recordSample
          (create 5 100).newUsageDistEstimator).estDist = some dist ∧
        ∀ entries : List ValCount, entries.Perm dist →
          (entries.map fun vc => vc.val * vc.expectedCount).sum = est := by
  obtain ⟨hest, hdist⟩ := @estUsage_unbiased 5 100 (by norm_num) (by norm_num)
  refine ⟨?_, hdist [2, 50, 2] (by decide +kernel)⟩
  rw [(hest [0, 2, 50] (by decide +kernel)).2.2]
  norm_num

end Unbiased

end ThresholdSampler
end HeypAgents
