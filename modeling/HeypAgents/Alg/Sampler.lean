import HeypAgents.Lib.Rounding

/-!
# Threshold sampling

`ThresholdSampler` of `sampler.h`.  A usage is included with a probability that
grows with it up to 1, and an included usage is weighted by the inverse of that
probability.  The results on doubles are rounded as `fp` says, by default not at all.  The
estimate is `none` once a division by zero has made it a NaN or an infinity.
-/

namespace HeypAgents

structure ThresholdSampler where
  approval : ℚ
  thresh : ℚ
deriving DecidableEq, Repr

namespace ThresholdSampler

def create (numSamplesAtApproval approval : ℚ) (fp : Rounding := .ideal) : ThresholdSampler where
  approval := approval
  thresh := fp.round (numSamplesAtApproval / approval)

def thresholdSamplingProbOf (approval thresh usage : ℚ) (fp : Rounding := .ideal) : ℚ :=
  if approval = 0 then 1 else min (fp.round (usage * thresh)) 1

/-- The sum of the weights of the samples that were recorded. -/
structure AggUsageEstimator where
  approval : ℚ
  thresh : ℚ
  est : Option ℚ := some 0
deriving DecidableEq, Repr

def newAggUsageEstimator (s : ThresholdSampler) : AggUsageEstimator where
  approval := s.approval
  thresh := s.thresh

namespace AggUsageEstimator

def recordSample (e : AggUsageEstimator) (usage : ℚ) (fp : Rounding := .ideal) :
    AggUsageEstimator :=
  let p := thresholdSamplingProbOf e.approval e.thresh usage fp
  { e with
    est := if p = 0 then none else e.est.map fun est => fp.round (est + fp.round (usage / p)) }

def estUsage (e : AggUsageEstimator) : Option ℚ := e.est

end AggUsageEstimator

section Estimates

/-- What a sample adds to the estimate. -/
def weight (s : ThresholdSampler) (usage : ℚ) (fp : Rounding := .ideal) : ℚ :=
  fp.round (usage / thresholdSamplingProbOf s.approval s.thresh usage fp)

/-- The estimate when every sample has a probability other than 0. -/
def estimate (s : ThresholdSampler) (usages : List ℚ) (fp : Rounding := .ideal) : ℚ :=
  usages.foldl (fun est usage => fp.round (est + s.weight usage fp)) 0

variable {s : ThresholdSampler} {fp : Rounding}

theorem foldl_recordSample (usages : List ℚ) (e : AggUsageEstimator) (x : ℚ)
    (happroval : e.approval = s.approval) (hthresh : e.thresh = s.thresh) :
    (usages.foldl (fun e usage => e.recordSample usage fp) e).est = some x ↔
      (∀ u ∈ usages, thresholdSamplingProbOf s.approval s.thresh u fp ≠ 0) ∧
        e.est.map (usages.foldl (fun est usage => fp.round (est + s.weight usage fp))) =
          some x := by
  induction usages generalizing e with
  | nil => simp
  | cons u usages ih =>
    rw [List.foldl_cons, ih (e.recordSample u fp) happroval hthresh]
    by_cases hu : thresholdSamplingProbOf s.approval s.thresh u fp = 0
    · simp [AggUsageEstimator.recordSample, happroval, hthresh, hu]
    · cases he : e.est with
      | none => simp [AggUsageEstimator.recordSample, he]
      | some x => simp [AggUsageEstimator.recordSample, happroval, hthresh, hu, he, weight]

theorem est_eq_some_iff (s : ThresholdSampler) (usages : List ℚ) (x : ℚ) :
    (usages.foldl (fun e usage => e.recordSample usage fp) s.newAggUsageEstimator).est = some x ↔
      (∀ u ∈ usages, thresholdSamplingProbOf s.approval s.thresh u fp ≠ 0) ∧
        s.estimate usages fp = x := by
  rw [foldl_recordSample usages s.newAggUsageEstimator x rfl rfl]
  simp [newAggUsageEstimator, estimate]

/-- Without rounding the estimate is the sum of the weights. -/
theorem estimate_ideal (s : ThresholdSampler) (usages : List ℚ) :
    s.estimate usages = (usages.map s.weight).sum := by
  simp [estimate, List.sum_eq_foldl, List.foldl_map]

theorem thresholdSamplingProbOf_nonneg (hthresh : 0 ≤ s.thresh) {usage : ℚ} (husage : 0 ≤ usage) :
    0 ≤ thresholdSamplingProbOf s.approval s.thresh usage fp := by
  unfold thresholdSamplingProbOf
  split_ifs
  · exact zero_le_one
  · exact le_min (fp.round_nonneg (mul_nonneg husage hthresh)) zero_le_one

theorem estimate_nonneg (hthresh : 0 ≤ s.thresh) {usages : List ℚ} (husages : ∀ u ∈ usages, 0 ≤ u) :
    0 ≤ s.estimate usages fp := by
  suffices h : ∀ est, 0 ≤ est →
      0 ≤ usages.foldl (fun est usage => fp.round (est + s.weight usage fp)) est from h 0 le_rfl
  induction usages with
  | nil => exact fun est hest => hest
  | cons u usages ih =>
    rw [List.forall_mem_cons] at husages
    refine fun est hest => ih husages.2 _ (fp.round_nonneg (add_nonneg hest ?_))
    exact fp.round_nonneg (div_nonneg husages.1 (thresholdSamplingProbOf_nonneg hthresh husages.1))

/-- The probability of an integer usage is 0 if the usage is, or the threshold has underflowed. -/
theorem thresholdSamplingProbOf_ne_zero_iff (happroval : 0 < s.approval)
    (hthresh : 0 ≤ s.thresh) (hmem : s.thresh ∈ fp.values) {usage : ℤ} (husage : 0 ≤ usage) :
    thresholdSamplingProbOf s.approval s.thresh (fp.round usage) fp ≠ 0 ↔
      0 < usage ∧ 0 < s.thresh := by
  rw [thresholdSamplingProbOf, if_neg happroval.ne']
  constructor
  · intro h
    refine ⟨husage.lt_of_ne fun hzero => h ?_, hthresh.lt_of_ne fun hzero => h ?_⟩
    · simp [← hzero]
    · simp [← hzero]
  · rintro ⟨hpos, hpos'⟩
    have hone : (1 : ℚ) ≤ fp.round usage := by
      rw [← fp.round_one]
      exact fp.round_mono (by exact_mod_cast hpos)
    have hprob := fp.le_round hmem (le_mul_of_one_le_left hthresh hone)
    exact (lt_min (hpos'.trans_le hprob) one_pos).ne'

end Estimates

end ThresholdSampler
end HeypAgents
