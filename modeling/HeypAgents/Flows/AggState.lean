import HeypAgents.Lib.Runs
import HeypAgents.Alg.QosDowngrade

/-!
# The state of an aggregate

`AggState::UpdateUsage`: the counters of an aggregate, the usage that is estimated
from them, and the history from which the demand is predicted.  Times are rational
seconds; an aggregate that was never updated was updated in the infinite past.
-/

namespace HeypAgents
namespace Flows

structure UsageHistoryEntry where
  time : ℚ
  bps : ℤ
deriving DecidableEq, Repr

/-- `DemandPredictor::FromUsage`. -/
abbrev DemandPredictor := ℚ → List UsageHistoryEntry → ℤ

/-- `AggState::Update`. -/
structure AggState.Update where
  time : ℚ
  sumChildUsageBps : ℤ := 0
  sumChildHipriUsageBps : ℤ := 0
  sumChildLopriUsageBps : ℤ := 0
  cumHipriUsageBytes : ℤ := 0
  cumLopriUsageBytes : ℤ := 0
deriving DecidableEq, Repr

/-- `none` is the infinite past. -/
structure AggState where
  usageHistory : List UsageHistoryEntry := []
  updatedTime : Option ℚ := none
  cur : FlowInfo := {}
  smoothUsage : Bool := false
  wasUpdated : Bool := false
  haveBps : Bool := false
deriving DecidableEq, Repr

namespace AggState

def Update.cumUsageBytes (u : Update) : ℤ := u.cumHipriUsageBytes + u.cumLopriUsageBytes

def create (flow : FlowMarker) (smoothUsage : Bool) : AggState where
  cur := { flow := flow }
  smoothUsage := smoothUsage

variable (s : AggState) (u : Update)

/-- The update is older than the last one. -/
def isOlder : Bool := s.updatedTime.any fun t => u.time < t

/-- The update has a lower counter. -/
def countersDecrease : Bool :=
  u.cumHipriUsageBytes < s.cur.cumHipriUsageBytes || u.cumLopriUsageBytes < s.cur.cumLopriUsageBytes

def measured (sumChildBps cumBytes lastCumBytes : ℤ) : ℚ :=
  match s.updatedTime with
  | none => sumChildBps
  | some t =>
    if s.wasUpdated && decide (0 < u.time - t) then
      max ((8 * (cumBytes - lastCumBytes) : ℤ) / (u.time - t)) sumChildBps
    else sumChildBps

def measuredUsageBps : ℚ := s.measured u u.sumChildUsageBps u.cumUsageBytes s.cur.cumUsageBytes

def measuredHipriUsageBps : ℚ :=
  s.measured u u.sumChildHipriUsageBps u.cumHipriUsageBytes s.cur.cumHipriUsageBytes

def measuredLopriUsageBps : ℚ :=
  s.measured u u.sumChildLopriUsageBps u.cumLopriUsageBytes s.cur.cumLopriUsageBytes

/-- The time and the counters of the update. -/
def record : AggState :=
  { s with
    updatedTime := some u.time
    cur := { s.cur with
      currentlyLopri := u.cumHipriUsageBytes == s.cur.cumHipriUsageBytes &&
        decide (u.cumLopriUsageBytes > s.cur.cumLopriUsageBytes)
      cumUsageBytes := u.cumUsageBytes
      cumHipriUsageBytes := u.cumHipriUsageBytes
      cumLopriUsageBytes := u.cumLopriUsageBytes } }

def estimate (measuredBps : ℚ) (oldBps : ℤ) : ℤ :=
  let alpha : ℚ := 3 / 10
  if !s.haveBps || !s.smoothUsage then truncInt measuredBps
  else truncInt (alpha * measuredBps + (1 - alpha) * oldBps)

def collectGarbage (now usageHistoryWindow : ℚ) (history : List UsageHistoryEntry) :
    List UsageHistoryEntry :=
  if (history.head?.any fun entry => now - entry.time > 2 * usageHistoryWindow) then
    history.dropWhile fun entry => !decide (entry.time ≥ now - usageHistoryWindow)
  else history

/-- The update with its estimates. -/
def reestimate (usageHistoryWindow : ℚ) (demandPredictor : DemandPredictor) : AggState :=
  let ewmaUsageBps := s.estimate (s.measuredUsageBps u) s.cur.ewmaUsageBps
  let usageHistory := collectGarbage u.time usageHistoryWindow
    (s.usageHistory ++ [{ time := u.time, bps := ewmaUsageBps }])
  { s.record u with
    wasUpdated := true
    haveBps := true
    usageHistory := usageHistory
    cur := { (s.record u).cur with
      ewmaUsageBps := ewmaUsageBps
      ewmaHipriUsageBps := s.estimate (s.measuredHipriUsageBps u) s.cur.ewmaHipriUsageBps
      ewmaLopriUsageBps := s.estimate (s.measuredLopriUsageBps u) s.cur.ewmaLopriUsageBps
      predictedDemandBps := demandPredictor u.time usageHistory } }

/-- `none` is a failed check that the counters do not decrease. -/
def updateUsage (usageHistoryWindow : ℚ) (demandPredictor : DemandPredictor) : Option AggState :=
  if s.isOlder u then some s
  else if s.countersDecrease u then none
  else if !s.wasUpdated && s.measuredUsageBps u == 0 then
    some { s.record u with wasUpdated := true }
  else some (s.reestimate u usageHistoryWindow demandPredictor)

variable {s u} {s' : AggState} {usageHistoryWindow : ℚ} {demandPredictor : DemandPredictor}

/-- An update is dropped, or recorded with or without estimates. -/
theorem updateUsage_cases (h : s.updateUsage u usageHistoryWindow demandPredictor = some s') :
    s.isOlder u = true ∧ s' = s ∨
      s.isOlder u = false ∧ s.countersDecrease u = false ∧
        (s' = { s.record u with wasUpdated := true } ∨
          s' = s.reestimate u usageHistoryWindow demandPredictor) := by
  unfold updateUsage at h
  split_ifs at h with holder hdecrease hfirst
  · exact .inl ⟨holder, (Option.some.inj h).symm⟩
  · exact .inr ⟨by simpa using holder, by simpa using hdecrease, .inl (Option.some.inj h).symm⟩
  · exact .inr ⟨by simpa using holder, by simpa using hdecrease, .inr (Option.some.inj h).symm⟩

end AggState

end Flows
end HeypAgents
