import HeypAgents.ClusterAgent.FastAggregator
import HeypAgents.Lib.Interleaving
import HeypAgents.Lib.SortedMap

/-!
# The fast cluster controller

`FastClusterController` of `fast-controller.cc`.  A round takes a snapshot, moves the
hash ring of every aggregate, updates the states of the hosts whose class changes and
sends their listeners a new bundle.  The calls of the controller are atomic; within a
round the tasks of a group interleave at every access to a host's state.

`child_states_` is a list of the hosts in the order of their ids and a function from
ids to states; its capacity is not bounded.
-/

namespace HeypAgents

structure ChildState where
  aggIsLopri : List Bool := []
  /-- The listeners of the host, by their ids. -/
  listeners : List ℕ := []
  genSeen : ℤ := 0
  broadcastedLatestState : Bool := false
  sawDataThisRun : Bool := false
deriving DecidableEq, Repr

def ChildState.isLopri (state : ChildState) (aggId : ℕ) : Bool := state.aggIsLopri.getD aggId false

/-- The result of `ParIndexedMap::GetID`. -/
structure GetResult where
  id : ℕ
  justCreated : Bool
deriving DecidableEq, Repr

structure FastClusterControllerConfig where
  targetNumSamples : ℤ := 200
  numThreads : ℕ := 8
  downgradeFracController : Option DowngradeFracController := none
deriving DecidableEq, Repr

structure FastClusterController (n : ℕ) where
  aggId2flow : Fin n → FlowMarker
  approvalBps : Fin n → ℤ
  fracController : Option DowngradeFracController
  numWorkers : ℕ
  numWorkers_pos : 0 < numWorkers
  aggregator : FastAggregator n
  aggStates : Fin n → FeedbackState := fun _ => {}
  aggSelectors : Fin n → HashingDowngradeSelector := fun _ => {}
  nextLisId : ℕ := 1
  hosts : List UInt64 := []
  childStates : ℕ → ChildState := fun _ => {}
  host2par : SortedMap UInt64 ℕ UInt64.toNat := {}
  newHostIdPairs : List (UInt64 × ℕ) := []

namespace FastClusterController

variable {n : ℕ}

/-- `Create` fails if two of the cluster-wide allocations have the same flow. -/
def create (config : FastClusterControllerConfig) (clusterWideAllocs : Fin n → FlowAlloc)
    (distinct : ∀ i j, eqClusterFlow (clusterWideAllocs i).flow (clusterWideAllocs j).flow =
      true → i = j)
    (numThreads_pos : 0 < config.numThreads) : FastClusterController n where
  aggId2flow i := toClusterFlow (clusterWideAllocs i).flow
  approvalBps i := (clusterWideAllocs i).hipriRateLimitBps
  fracController := config.downgradeFracController
  numWorkers := config.numThreads
  numWorkers_pos := numThreads_pos
  aggregator :=
    { config :=
        { flows := fun i => (clusterWideAllocs i).flow
          samplers := fun i =>
            .create config.targetNumSamples (clusterWideAllocs i).hipriRateLimitBps .binary64
          distinct := distinct } }

def onID (states : ℕ → ChildState) (id : ℕ) (func : ChildState → ChildState) : ℕ → ChildState :=
  Function.update states id (func (states id))

def getID (c : FastClusterController n) (hostId : UInt64) : GetResult :=
  match c.hosts.findIdx? (· == hostId) with
  | some id => ⟨id, false⟩
  | none => ⟨c.hosts.length, true⟩

def registerListener (c : FastClusterController n) (hostId : UInt64) : FastClusterController n :=
  let res := c.getID hostId
  { c with
    hosts := if res.justCreated then c.hosts ++ [hostId] else c.hosts
    newHostIdPairs :=
      if res.justCreated then c.newHostIdPairs ++ [(hostId, res.id)] else c.newHostIdPairs
    nextLisId := c.nextLisId + 1
    childStates := onID c.childStates res.id fun state =>
      { state with listeners := state.listeners.insert c.nextLisId } }

/-- The destructor of a listener. -/
def dropListener (c : FastClusterController n) (hostParId lisId : ℕ) : FastClusterController n :=
  { c with
    childStates := onID c.childStates hostParId fun state =>
      { state with listeners := state.listeners.erase lisId } }

def updateInfo (c : FastClusterController n) (info : InfoBundle) : FastClusterController n :=
  { c with aggregator := c.aggregator.updateInfo info }

structure AggPlan where
  aggState : FeedbackState
  selector : HashingDowngradeSelector
  downgradeDiff : DowngradeDiff
deriving DecidableEq, Repr

/-- Step 2.1; `none` is the fatal exit of the feedback controller. -/
def fracLopri (c : FastClusterController n) (aggId : Fin n) (info : FastAggInfo) :
    Option (FeedbackState × ℚ) :=
  match c.fracController with
  | some controller =>
    ((c.aggStates aggId).update controller (info.children.map (·.volumeBps)) info.parent
      (c.approvalBps aggId)).map fun aggState => (aggState, aggState.downgradeFrac)
  | none => some (c.aggStates aggId,
      fracAboveAdmission info.parent.ewmaUsageBps (c.approvalBps aggId))

def planAgg (c : FastClusterController n) (aggId : Fin n) (info : FastAggInfo) : Option AggPlan :=
  (c.fracLopri aggId info).map fun (aggState, frac) =>
    { aggState := aggState
      selector := ((c.aggSelectors aggId).pickChildren frac).1
      downgradeDiff := ((c.aggSelectors aggId).pickChildren frac).2 }

/-- A round after step 2.2. -/
structure Round (n : ℕ) where
  controller : FastClusterController n
  snapInfos : Fin n → FastAggInfo
  plan : Fin n → AggPlan

def catchUp (c : FastClusterController n) : FastClusterController n :=
  { c with
    aggregator := (c.aggregator.collectSnapshot c.aggSelectors).2
    host2par := c.newHostIdPairs.foldl (fun m p => m.insert p.1 p.2) c.host2par
    newHostIdPairs := [] }

def beginRound (c : FastClusterController n) : Option (Round n) :=
  let snapInfos := (c.aggregator.collectSnapshot c.aggSelectors).1
  if h : ∀ aggId, (c.planAgg aggId (snapInfos aggId)).isSome then
    some
      { controller := c.catchUp
        snapInfos := snapInfos
        plan := fun aggId => (c.planAgg aggId (snapInfos aggId)).get (h aggId) }
  else none

def forEachSelected (id2par : SortedMap UInt64 ℕ UInt64.toNat) (ids : UnorderedIds) :
    List (UInt64 × ℕ) :=
  (ids.ranges.flatMap fun r => id2par.range r.lo r.hi) ++
    ids.points.filterMap fun p => id2par.entries.find? fun e => e.1.toNat = p

def setAggIsLopri (aggId : ℕ) (isLopri : Bool) (aggIsLopri : List Bool) : List Bool :=
  (if aggIsLopri.length ≤ aggId then
    aggIsLopri ++ List.replicate (aggId + 1 - aggIsLopri.length) false
  else aggIsLopri).set aggId isLopri

inductive UpdateAction (n : ℕ) where
  | sawGen (aggId : Fin n) (parId : ℕ) (gen : ℤ)
  | setLopri (aggId : Fin n) (parId : ℕ) (isLopri : Bool)
deriving DecidableEq, Repr

def UpdateAction.parId : UpdateAction n → ℕ
  | .sawGen _ parId _ => parId
  | .setLopri _ parId _ => parId

def UpdateAction.run (state : ChildState) : UpdateAction n → ChildState
  | .sawGen _ _ gen =>
    { state with genSeen := max gen state.genSeen, sawDataThisRun := true }
  | .setLopri aggId _ isLopri =>
    { state with
      aggIsLopri := setAggIsLopri aggId isLopri state.aggIsLopri
      broadcastedLatestState := false }

def applyUpdate (states : ℕ → ChildState) (action : UpdateAction n) : ℕ → ChildState :=
  onID states action.parId fun state => action.run state

def kMaxChildBandwidthBps : ℤ := 100 * 2 ^ 30

def bundleFor (aggId2flow : Fin n → FlowMarker) (state : ChildState) : AllocBundle where
  flowAllocs := (List.finRange n).map fun (i : Fin n) =>
    if state.isLopri i then
      { flow := aggId2flow i
        hipriRateLimitBps := 0
        lopriRateLimitBps := kMaxChildBandwidthBps }
    else
      { flow := aggId2flow i
        hipriRateLimitBps := kMaxChildBandwidthBps
        lopriRateLimitBps := 0 }
  gen := if state.sawDataThisRun then state.genSeen else 0

/-- A call of a listener. -/
structure Delivery where
  parId : ℕ
  lisId : ℕ
  bundle : AllocBundle
deriving DecidableEq, Repr

/-- `none` is the failed check on the number of flags. -/
def broadcastStateUnconditional (aggId2flow : Fin n → FlowMarker) (parId : ℕ)
    (state : ChildState) : Option (List Delivery) :=
  if state.aggIsLopri.length ≤ n then
    some (state.listeners.map fun lisId => ⟨parId, lisId, bundleFor aggId2flow state⟩)
  else none

structure Bcast where
  states : ℕ → ChildState
  sent : List Delivery := []

def broadcastStateIfUpdated (aggId2flow : Fin n → FlowMarker) (b : Bcast) (parId : ℕ) :
    Option Bcast :=
  if (b.states parId).broadcastedLatestState then some b
  else
    (broadcastStateUnconditional aggId2flow parId (b.states parId)).map fun sent =>
      { states := onID b.states parId fun state => { state with broadcastedLatestState := true }
        sent := b.sent ++ sent }

def strided (parIds : List ℕ) (bcastShard numBcastShard : ℕ) : List ℕ :=
  (((List.range ((parIds.length + numBcastShard - 1) / numBcastShard)).map
    fun i => bcastShard + i * numBcastShard).takeWhile fun j => j < parIds.length).filterMap
      fun j => parIds[j]?

namespace Round

variable (r : Round n)

def updateTask (aggId : Fin n) : List (UpdateAction n) :=
  ((r.snapInfos aggId).infoGen.filterMap fun hg =>
    (r.controller.host2par.find hg.hostId).map fun parId => .sawGen aggId parId hg.gen) ++
  (forEachSelected r.controller.host2par (r.plan aggId).downgradeDiff.toDowngrade).map
    (fun e => .setLopri aggId e.2 true) ++
  (forEachSelected r.controller.host2par (r.plan aggId).downgradeDiff.toUpgrade).map
    (fun e => .setLopri aggId e.2 false)

def updateTasks : List (List (UpdateAction n)) := (List.finRange n).map r.updateTask

def parIdsToBcast (aggId : Fin n) : List ℕ :=
  (forEachSelected r.controller.host2par (r.plan aggId).downgradeDiff.toDowngrade ++
    forEachSelected r.controller.host2par (r.plan aggId).downgradeDiff.toUpgrade).map (·.2)

def bcastTask (bcastShard : ℕ) : List ℕ :=
  (List.finRange n).flatMap fun aggId =>
    strided (r.parIdsToBcast aggId) bcastShard r.controller.numWorkers

def bcastTasks : List (List ℕ) := (List.range r.controller.numWorkers).map r.bcastTask

/-- The states after step 2. -/
def updated (updates : List (ℕ × UpdateAction n)) : ℕ → ChildState :=
  (updates.map (·.2)).foldl applyUpdate r.controller.childStates

def broadcast (states : ℕ → ChildState) (bcasts : List (ℕ × ℕ)) : Option Bcast :=
  (bcasts.map (·.2)).foldlM (broadcastStateIfUpdated r.controller.aggId2flow) { states := states }

/-- The hosts whose data this round saw. -/
def sawData : List ℕ :=
  (List.finRange n).flatMap fun aggId =>
    (r.snapInfos aggId).infoGen.filterMap fun hg => r.controller.host2par.find hg.hostId

def resetSawData (states : ℕ → ChildState) : ℕ → ChildState :=
  r.sawData.foldl
    (fun states parId => onID states parId fun state => { state with sawDataThisRun := false })
    states

def finish (updates : List (ℕ × UpdateAction n)) (bcasts : List (ℕ × ℕ)) :
    Option (FastClusterController n × List Delivery) :=
  if IsInterleaving r.updateTasks updates ∧ IsInterleaving r.bcastTasks bcasts then
    (r.broadcast (r.updated updates) bcasts).map fun b =>
      ({ r.controller with
          childStates := r.resetSawData b.states
          aggStates := fun aggId => (r.plan aggId).aggState
          aggSelectors := fun aggId => (r.plan aggId).selector },
        b.sent)
  else none

end Round

def computeAndBroadcast (c : FastClusterController n)
    (updates : List (ℕ × UpdateAction n)) (bcasts : List (ℕ × ℕ)) :
    Option (FastClusterController n × List Delivery) :=
  c.beginRound.bind fun r => r.finish updates bcasts

inductive Call (n : ℕ) where
  | registerListener (hostId : UInt64)
  | dropListener (hostParId lisId : ℕ)
  | updateInfo (info : InfoBundle)
  | computeAndBroadcast (updates : List (ℕ × UpdateAction n)) (bcasts : List (ℕ × ℕ))
deriving DecidableEq, Repr

def step (c : FastClusterController n) : Call n → Option (FastClusterController n)
  | .registerListener hostId => some (c.registerListener hostId)
  | .dropListener hostParId lisId => some (c.dropListener hostParId lisId)
  | .updateInfo info => some (c.updateInfo info)
  | .computeAndBroadcast updates bcasts =>
    (c.computeAndBroadcast updates bcasts).map (·.1)

abbrev oneAgg : FastClusterController 1 :=
  create { targetNumSamples := 100, numThreads := 2 }
    (fun _ => { flow := { srcDc := "a", dstDc := "b" }, hipriRateLimitBps := 100 })
    (by decide) (by decide)

end FastClusterController
end HeypAgents
