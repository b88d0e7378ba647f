import Mathlib.Data.List.AList
import HeypAgents.Flows.AggState

/-!
# The flow aggregator

`FlowAggregator` sums the usage of flows up to aggregates.  Flows are reported in
bundles; a flow that has not been reported for a while becomes dead, but its usage
still counts.  The hash maps are association lists, and the order in which they
are iterated is that of the list.
-/

namespace HeypAgents
namespace Flows

/-- `flat_hash_map` with `EqFlow`, which compares all fields. -/
abbrev FlowMap (β : Type) := AList fun _ : FlowMarker => β

structure BundleState where
  active : FlowMap (ℚ × FlowInfo) := ∅
  dead : FlowMap (ℚ × FlowInfo) := ∅

namespace BundleState

/-- Take in one info of a bundle. -/
def report (timestamp : ℚ) (bs : BundleState) (info : FlowInfo) : BundleState :=
  match bs.active.lookup info.flow with
  | none =>
    { active := bs.active.insert info.flow (timestamp, info)
      dead := bs.dead.erase info.flow }
  | some _ => { bs with active := bs.active.insert info.flow (timestamp, info) }

/-- Move a flow to the dead ones. -/
def expireFlow (timestamp : ℚ) (bs : BundleState) (flow : FlowMarker) : BundleState :=
  match bs.active.lookup flow with
  | none => bs
  | some (_, info) =>
    { active := bs.active.erase flow
      dead := bs.dead.insert flow (timestamp, info) }

def toErase (usageHistoryWindow timestamp : ℚ) (bs : BundleState) : List FlowMarker :=
  (bs.active.entries.filter fun entry => entry.2.1 + usageHistoryWindow < timestamp).map Sigma.fst

/-- The body of `Update`. -/
def update (usageHistoryWindow timestamp : ℚ) (infos : List FlowInfo) (bs : BundleState) :
    BundleState :=
  let bs := infos.foldl (report timestamp) bs
  (bs.toErase usageHistoryWindow timestamp).foldl (expireFlow timestamp) bs

end BundleState

section Wips

/-- `AggWIP`; the sums are `int64_t`. -/
structure AggWip where
  oldestActiveTime : Option ℚ := none
  newestDeadTime : Option ℚ := none
  cumHipriUsageBytes : ℤ := 0
  cumLopriUsageBytes : ℤ := 0
  sumEwmaUsageBps : ℤ := 0
  sumEwmaHipriUsageBps : ℤ := 0
  sumEwmaLopriUsageBps : ℤ := 0
  children : List FlowInfo := []
deriving DecidableEq, Repr

namespace AggWip

def addCounters (wip : AggWip) (info : FlowInfo) : AggWip :=
  { wip with
    cumHipriUsageBytes := addInt64 wip.cumHipriUsageBytes info.cumHipriUsageBytes
    cumLopriUsageBytes := addInt64 wip.cumLopriUsageBytes info.cumLopriUsageBytes }

def addActive (wip : AggWip) (time : ℚ) (info : FlowInfo) : AggWip :=
  { wip.addCounters info with
    oldestActiveTime := some (wip.oldestActiveTime.elim time (min · time))
    sumEwmaUsageBps := addInt64 wip.sumEwmaUsageBps info.ewmaUsageBps
    sumEwmaHipriUsageBps :=
      if info.currentlyLopri then wip.sumEwmaHipriUsageBps
      else addInt64 wip.sumEwmaHipriUsageBps info.ewmaUsageBps
    sumEwmaLopriUsageBps :=
      if info.currentlyLopri then addInt64 wip.sumEwmaLopriUsageBps info.ewmaUsageBps
      else wip.sumEwmaLopriUsageBps
    children := wip.children ++ [info] }

def addDead (wip : AggWip) (time : ℚ) (info : FlowInfo) : AggWip :=
  { wip.addCounters info with
    newestDeadTime := some (wip.newestDeadTime.elim time (max · time)) }

def time (wip : AggWip) : ℚ := (wip.oldestActiveTime.or wip.newestDeadTime).getD 0

def asUpdate (wip : AggWip) : AggState.Update where
  time := wip.time
  sumChildUsageBps := wip.sumEwmaUsageBps
  sumChildHipriUsageBps := wip.sumEwmaHipriUsageBps
  sumChildLopriUsageBps := wip.sumEwmaLopriUsageBps
  cumHipriUsageBytes := wip.cumHipriUsageBytes
  cumLopriUsageBytes := wip.cumLopriUsageBytes

end AggWip

variable (getAggFlowFn : FlowMarker → FlowMarker)

/-- `GetAggWIP`, and a change of what it returns. -/
def changeAggWip (add : AggWip → ℚ → FlowInfo → AggWip) (wips : FlowMap AggWip)
    (entry : Sigma fun _ : FlowMarker => ℚ × FlowInfo) : FlowMap AggWip :=
  wips.insert (getAggFlowFn entry.1)
    (add ((wips.lookup (getAggFlowFn entry.1)).getD {}) entry.2.1 entry.2.2)

def addBundleState (wips : FlowMap AggWip) (bs : BundleState) : FlowMap AggWip :=
  bs.dead.entries.foldl (changeAggWip getAggFlowFn AggWip.addDead)
    (bs.active.entries.foldl (changeAggWip getAggFlowFn AggWip.addActive) wips)

end Wips

structure FlowAggregatorConfig where
  usageHistoryWindow : ℚ := 120
  getAggFlowFn : FlowMarker → FlowMarker
  isValidParent : FlowMarker → Bool := fun _ => true
  isValidChild : FlowMarker → Bool := fun _ => true

/-- The id of a bundler is its place in `bundlers`. -/
structure FlowAggregator where
  aggDemandPredictor : DemandPredictor
  config : FlowAggregatorConfig
  bundlers : List FlowMarker := []
  bundleStates : ℕ → BundleState := fun _ => {}
  aggStates : FlowMap AggState := ∅

namespace FlowAggregator

def create (aggDemandPredictor : DemandPredictor) (config : FlowAggregatorConfig) :
    FlowAggregator where
  aggDemandPredictor := aggDemandPredictor
  config := config

def hostFlowOptions : CompareFlowOptions where
  cmpHostFlow := false
  cmpSeqnum := false

def clusterFlowOptions : CompareFlowOptions where
  cmpJob := false
  cmpSrcHost := false
  cmpHostFlow := false
  cmpSeqnum := false

/-- `NewConnToHostAggregator`. -/
def newConnToHost (hostDemandPredictor : DemandPredictor) (usageHistoryWindow : ℚ) :
    FlowAggregator :=
  create hostDemandPredictor
    { usageHistoryWindow := usageHistoryWindow
      getAggFlowFn := toHostFlow
      isValidParent := fun h =>
        expectedFieldsAreSet h hostFlowOptions && unexpectedFieldsAreUnset h hostFlowOptions
      isValidChild := fun flow => expectedFieldsAreSet flow {} }

/-- `NewHostToClusterAggregator`. -/
def newHostToCluster (clusterDemandPredictor : DemandPredictor) (usageHistoryWindow : ℚ) :
    FlowAggregator :=
  create clusterDemandPredictor
    { usageHistoryWindow := usageHistoryWindow
      getAggFlowFn := toClusterFlow
      isValidParent := fun c =>
        expectedFieldsAreSet c clusterFlowOptions && unexpectedFieldsAreUnset c clusterFlowOptions
      isValidChild := fun flow => expectedFieldsAreSet flow hostFlowOptions }

variable (a : FlowAggregator)

def getBundlerID (bundler : FlowMarker) : ℕ × FlowAggregator :=
  match a.bundlers.findIdx? (· == bundler) with
  | some id => (id, a)
  | none => (a.bundlers.length, { a with bundlers := a.bundlers ++ [bundler] })

/-- `none` is a failed check of the id or of a flow. -/
def update (bundlerId : ℕ) (bundle : InfoBundle) : Option FlowAggregator :=
  if bundlerId < a.bundlers.length ∧
      bundle.flowInfos.all fun info => a.config.isValidChild info.flow then
    some { a with
      bundleStates := Function.update a.bundleStates bundlerId
        ((a.bundleStates bundlerId).update a.config.usageHistoryWindow bundle.timestamp
          bundle.flowInfos) }
  else none

/-- The sums over the flows of all bundlers. -/
def aggWips : FlowMap AggWip :=
  ((List.range a.bundlers.length).map a.bundleStates).foldl (addBundleState a.config.getAggFlowFn) ∅

/-- The body of the loop over the aggregates; `none` is a failed check of the counters. -/
def updateAgg (acc : FlowMap AggState × List (ℚ × AggInfo))
    (entry : Sigma fun _ : FlowMarker => AggWip) : Option (FlowMap AggState × List (ℚ × AggInfo)) :=
  let aggState := (acc.1.lookup entry.1).getD (.create entry.1 false)
  (aggState.updateUsage entry.2.asUpdate a.config.usageHistoryWindow a.aggDemandPredictor).map
    fun s => (acc.1.insert entry.1 s,
      acc.2 ++ [(entry.2.time, { parent := s.cur, children := entry.2.children })])

def forEachAgg : Option (FlowAggregator × List (ℚ × AggInfo)) :=
  (a.aggWips.entries.foldlM a.updateAgg (a.aggStates, [])).map fun result =>
    ({ a with aggStates := result.1 }, result.2)

end FlowAggregator

inductive AggregatorCall where
  | update (bundle : InfoBundle)
  | forEachAgg

def FlowAggregator.call (a : FlowAggregator) : AggregatorCall → Option FlowAggregator
  | .update bundle =>
    (a.getBundlerID bundle.bundler).2.update (a.getBundlerID bundle.bundler).1 bundle
  | .forEachAgg => a.forEachAgg.map Prod.fst

section Parents

variable {predictor : DemandPredictor} {window : ℚ} {flow : FlowMarker}

theorem not_isValidParent_newConnToHost (flow : FlowMarker) :
    (FlowAggregator.newConnToHost predictor window).config.isValidParent flow = false := by
  rw [Bool.eq_false_iff]
  intro hvalid
  have hfields : (expectedFieldsAreSet flow FlowAggregator.hostFlowOptions &&
      unexpectedFieldsAreUnset flow FlowAggregator.hostFlowOptions) = true := hvalid
  rw [Bool.and_eq_true] at hfields
  exact not_fields_of_cmpJob rfl hfields

theorem isValidParent_toClusterFlow
    (hset : expectedFieldsAreSet flow FlowAggregator.hostFlowOptions = true) :
    (FlowAggregator.newHostToCluster predictor window).config.isValidParent
      (toClusterFlow flow) = true := by
  simp only [expectedFieldsAreSet, FlowAggregator.hostFlowOptions, Bool.not_true, Bool.false_or,
    Bool.and_eq_true, bne_iff_ne] at hset
  obtain ⟨⟨⟨⟨⟨hsrc, hdst⟩, -⟩, -⟩, -⟩, -⟩ := hset
  simp [FlowAggregator.newHostToCluster, FlowAggregator.create, expectedFieldsAreSet,
    unexpectedFieldsAreUnset, FlowAggregator.clusterFlowOptions, toClusterFlow, hsrc, hdst]

/--
For a child that an aggregator of one of the two kinds accepts, the flow that it belongs to
is a valid parent iff the aggregator is the one from hosts to clusters.
-/
theorem isValidParent_getAggFlowFn_iff {a : FlowAggregator}
    (hkind : a = FlowAggregator.newConnToHost predictor window ∨
      a = FlowAggregator.newHostToCluster predictor window)
    (hchild : a.config.isValidChild flow = true) :
    a.config.isValidParent (a.config.getAggFlowFn flow) = true ↔
      a = FlowAggregator.newHostToCluster predictor window := by
  constructor
  · intro hparent
    refine hkind.resolve_left fun hconn => ?_
    rw [hconn, not_isValidParent_newConnToHost] at hparent
    cases hparent
  · rintro rfl
    exact isValidParent_toClusterFlow hchild

/-- A connection with all its fields. -/
def connection : FlowMarker where
  srcDc := "chicago"
  dstDc := "new_york"
  job := "web"
  hostId := 4
  srcAddr := "10.0.0.1"
  dstAddr := "10.0.1.1"
  protocol := .tcp
  srcPort := 7000
  dstPort := 443
  seqnum := 1

/-- The cluster-level flow of a connection is valid. -/
theorem isValidParent_toClusterFlow_connection :
    let a := FlowAggregator.newHostToCluster (fun _ _ => 0) 120
    a.config.isValidParent (a.config.getAggFlowFn connection) = true :=
  (isValidParent_getAggFlowFn_iff (.inr rfl) (by decide)).mpr rfl

/-- The host-level flow of a connection is not. -/
theorem not_isValidParent_toHostFlow_connection :
    let a := FlowAggregator.newConnToHost (fun _ _ => 0) 120
    a.config.isValidChild connection = true ∧
      a.config.isValidParent (a.config.getAggFlowFn connection) = false := by
  decide

end Parents

end Flows
end HeypAgents
