import HeypAgents.Lib.Rounding
import HeypAgents.Proto.Flows

/-!
# How much traffic to downgrade

The fraction of an aggregate's traffic to send as LOPRI, and the admissions and
limits that go with it.  The fractions are exact rationals.  The burstiness factor,
from which rate limits are computed, is rounded as a `double` is.
-/

namespace HeypAgents

/-- The conversion of a `double` to an integer. -/
def truncInt (q : ℚ) : ℤ :=
  if 0 ≤ q then ⌊q⌋ else ⌈q⌉

/-- The conversion to `int64_t`, which out of range gives the least value on x86-64. -/
def doubleToInt64 (q : ℚ) : ℤ :=
  if -2 ^ 63 ≤ truncInt q ∧ truncInt q < 2 ^ 63 then truncInt q else -2 ^ 63

/-- The sum of two `int64_t`, which wraps around. -/
def addInt64 (x y : ℤ) : ℤ := (x + y).bmod (2 ^ 64)

theorem bmod_eq_self {x : ℤ} (hle : -2 ^ 63 ≤ x) (hlt : x < 2 ^ 63) : x.bmod (2 ^ 64) = x :=
  Int.bmod_eq_of_le (by omega) (by omega)

theorem truncInt_nonneg {q : ℚ} (h : 0 ≤ q) : 0 ≤ truncInt q := by
  rw [truncInt, if_pos h]
  exact Int.floor_nonneg.mpr h

inductive FVSource where
  | kPredictedDemand
  | kUsage
deriving DecidableEq, Repr

def getFlowVolume (info : FlowInfo) : FVSource → ℤ
  | .kPredictedDemand => info.predictedDemandBps
  | .kUsage => info.ewmaUsageBps

def clampFracLopri (frac : ℚ) : ℚ :=
  if ¬ 0 ≤ frac then 0 else if ¬ frac ≤ 1 then 1 else frac

/-- The configuration of a `DowngradeFracController`. -/
structure DowngradeFracController where
  maxInc : ℚ := 1
  propGain : ℚ := 3 / 4
  ignoreOverageBelow : ℚ := 0
  ignoreOverageByCoarsenessMultiplier : ℚ := 0
deriving DecidableEq, Repr

namespace DowngradeFracController

variable (config : DowngradeFracController)

/-- `none` is the fatal exit on an increment outside [-1, 1]. -/
def trafficFracToDowngradeRaw
    (cur setpoint input2outputConversion maxTaskUsageFrac : ℚ) : Option ℚ :=
  let err := cur - setpoint
  if 0 < err ∧ err < config.ignoreOverageBelow then
    some 0
  else if 0 < err ∧ err < config.ignoreOverageByCoarsenessMultiplier * maxTaskUsageFrac then
    some 0
  else
    let x := config.propGain * err * input2outputConversion
    if x < -1 ∨ 1 < x then
      none
    else
      let magnitude := |min |x| config.maxInc|
      some (if x < 0 then -magnitude else magnitude)

/--
Without usage the error is a NaN: every comparison fails, `fmin` returns `max_inc`,
and `copysign` takes the sign of the NaN, which the processor sets for 0/0.
-/
def trafficFracToDowngrade
    (hipriUsageBps lopriUsageBps hipriRateLimitBps maxTaskUsageBps : ℚ) : Option ℚ :=
  let totalUsageBps := hipriUsageBps + lopriUsageBps
  if totalUsageBps = 0 then
    some (-|config.maxInc|)
  else
    config.trafficFracToDowngradeRaw (hipriUsageBps / totalUsageBps)
      (hipriRateLimitBps / totalUsageBps) 1 (maxTaskUsageBps / totalUsageBps)

end DowngradeFracController

structure FeedbackState where
  downgradeFrac : ℚ := 0
  ewmaMaxChildUsage : ℚ := -1
deriving DecidableEq, Repr

def FeedbackState.update (s : FeedbackState) (controller : DowngradeFracController)
    (childUsages : List ℤ) (parent : FlowInfo) (hipriAdmission : ℤ) : Option FeedbackState :=
  let kEwmaWeight : ℚ := 3 / 10
  let maxChildUsage : ℚ := childUsages.foldl (fun m u => if (u : ℚ) > m then u else m) 0
  let ewma :=
    if s.ewmaMaxChildUsage < 0 then maxChildUsage
    else kEwmaWeight * maxChildUsage + (1 - kEwmaWeight) * s.ewmaMaxChildUsage
  let inc :=
    if parent.ewmaUsageBps < hipriAdmission then some (-1 / 5)
    else controller.trafficFracToDowngrade parent.ewmaHipriUsageBps
      parent.ewmaLopriUsageBps hipriAdmission ewma
  inc.map fun inc =>
    { downgradeFrac := clampFracLopri (s.downgradeFrac + inc), ewmaMaxChildUsage := ewma }

def fracAboveAdmission (volume hipriAdmission : ℤ) : ℚ :=
  clampFracLopri ((max 0 (volume - hipriAdmission) : ℤ) / volume)

/-- How far the children's demands, which a `double` sums up, exceed the parent's demand. -/
def bweBurstinessFactor (fp : Rounding) (info : AggInfo) : ℚ :=
  let parentDemandBps := fp.round info.parent.predictedDemandBps
  let sumChildDemandBps := info.children.foldl
    (fun sum c => fp.round (sum + fp.round c.predictedDemandBps)) 0
  if parentDemandBps = 0 ∨ sumChildDemandBps = 0 then 1
  else if sumChildDemandBps < parentDemandBps then 1
  else fp.round (sumChildDemandBps / parentDemandBps)

def evenlyDistributeExtra (admission : ℤ) (demands : List ℤ) (waterlevel : ℤ) : ℤ :=
  if demands.isEmpty then admission
  else
    (max 0 (demands.foldl (fun a d => a - min d waterlevel) admission)).tdiv demands.length

def fracAdmittedAtLopri
    (source : FVSource) (parent : FlowInfo) (hipriRateLimitBps lopriRateLimitBps : ℤ) : ℚ :=
  let volume := getFlowVolume parent source
  if lopriRateLimitBps > 0 ∧ volume > 0 ∧ volume > hipriRateLimitBps then
    let totalRateLimitBps : ℚ := hipriRateLimitBps + lopriRateLimitBps
    let totalAdmittedDemandBps := min (volume : ℚ) totalRateLimitBps
    1 - hipriRateLimitBps / totalAdmittedDemandBps
  else
    0

/-- The smallest demand of a child. -/
def smallestChildDemand (child : FlowInfo) (rest : List FlowInfo) : ℤ :=
  rest.foldl (fun m c => min m (getFlowVolume c .kPredictedDemand))
    (getFlowVolume child .kPredictedDemand)

/-- `none` is an infinite fraction, the quotient of a positive demand and no volume. -/
def fracAdmittedAtLopriToProbe (aggInfo : AggInfo) (hipriRateLimitBps lopriRateLimitBps : ℤ)
    (demandMultiplier lopriFrac : ℚ) : Option ℚ :=
  let volume := getFlowVolume aggInfo.parent .kPredictedDemand
  if volume < hipriRateLimitBps then some lopriFrac
  else if (volume : ℚ) > demandMultiplier * hipriRateLimitBps then some lopriFrac
  else
    match aggInfo.children with
    | [] => some lopriFrac
    | child :: rest =>
      let smallestChildDemandBps := smallestChildDemand child rest
      if smallestChildDemandBps > lopriRateLimitBps then some lopriFrac
      else if volume = 0 then
        -- Without a demand the quotient is a NaN, which is not above the fraction.
        if smallestChildDemandBps > 0 then none else some lopriFrac
      else
        let revisedFrac : ℚ := 100001 / 100000 * smallestChildDemandBps / volume
        if revisedFrac > lopriFrac then some revisedFrac else some lopriFrac

end HeypAgents
