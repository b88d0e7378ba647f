import HeypAgents.Alg.HashingSelector
import HeypAgents.Alg.QosDowngrade
import HeypAgents.Alg.Sampler

/-!
# The fast aggregator

`FastAggregator` of `fast-aggregator.cc`, for callers that do not overlap.  Reports
are kept in 8 shards by host id, each with two buffers; a snapshot swaps the buffers
of every shard, aggregates each shard on its own and combines the parts.

There are `n` aggregates.  Usages and generations are ideal integers, the estimates are
doubles, and the sums of the parts are kept in `int64_t`, which wraps.
-/

namespace HeypAgents

structure HostInfoGen where
  hostId : UInt64
  gen : ℤ
deriving DecidableEq, Repr

structure FastAggInfo where
  parent : FlowInfo := {}
  children : List ChildFlowInfo := []
  infoGen : List HostInfoGen := []
  aggId : ℕ
deriving DecidableEq, Repr

/-- The conversion of an estimate to `int64_t`; a NaN is out of range. -/
def toInt64 : Option ℚ → ℤ
  | none => -2 ^ 63
  | some q => doubleToInt64 q

namespace FastAggregator

abbrev kNumInfoShards : ℕ := 8

structure PrioEstimators where
  hipri : ThresholdSampler.AggUsageEstimator
  lopri : ThresholdSampler.AggUsageEstimator
deriving DecidableEq, Repr

structure Info (n : ℕ) where
  aggId : Fin n
  childId : UInt64
  volumeBps : ℤ
  currentlyLopri : Bool
deriving DecidableEq, Repr

def Info.toChild {n : ℕ} (info : Info n) : ChildFlowInfo where
  childId := info.childId
  volumeBps := info.volumeBps
  currentlyLopri := info.currentlyLopri

structure InfoShard (n : ℕ) where
  gens : List HostInfoGen := []
  infos : List (Info n) := []
deriving DecidableEq, Repr

/--
The members that do not change.  The constructor asserts that the ids of the flows are
0, ..., n - 1, so no two aggregates have the same cluster-level flow.  `fp` is the arithmetic
of the estimates.
-/
structure Config (n : ℕ) where
  flows : Fin n → FlowMarker
  samplers : Fin n → ThresholdSampler
  distinct : ∀ i j, eqClusterFlow (flows i) (flows j) = true → i = j
  fp : Rounding := .binary64

section Config

variable {n : ℕ} (c : Config n)

def Config.aggFlowToId : ClusterFlowMap (Fin n) := (List.finRange n).map fun i => (c.flows i, i)

def shardOf (info : InfoBundle) : Fin kNumInfoShards :=
  ⟨info.bundler.hostId.toNat % 2 ^ 32 % kNumInfoShards, Nat.mod_lt _ (by decide)⟩

def Config.got (info : InfoBundle) : List (Info n) :=
  info.flowInfos.filterMap fun fi =>
    (c.aggFlowToId.find fi.flow).map fun id =>
      { aggId := id
        childId := info.bundler.hostId
        volumeBps := fi.ewmaUsageBps
        currentlyLopri := fi.currentlyLopri }

def hostInfoGen (info : InfoBundle) : HostInfoGen where
  hostId := info.bundler.hostId
  gen := info.gen

end Config

section Aggregate

variable {n : ℕ} (c : Config n) (downgradeSelectors : Fin n → HashingDowngradeSelector)

/-- What `Aggregate` returns for one shard. -/
structure Part (n : ℕ) where
  agg : Fin n → FastAggInfo
  volumeBps : Fin n → PrioEstimators

def emptyPart : Part n where
  agg i := { aggId := i }
  volumeBps i :=
    { hipri := (c.samplers i).newAggUsageEstimator
      lopri := (c.samplers i).newAggUsageEstimator }

/-- The volume is converted to a double. -/
def PrioEstimators.record
    (fp : Rounding) (e : PrioEstimators) (isLopri : Bool) (volumeBps : ℤ) : PrioEstimators :=
  if isLopri then { e with lopri := e.lopri.recordSample (fp.round volumeBps) fp }
  else { e with hipri := e.hipri.recordSample (fp.round volumeBps) fp }

def Part.addInfo (part : Part n) (info : Info n) : Part n where
  agg := Function.update part.agg info.aggId
    { part.agg info.aggId with
      children := (part.agg info.aggId).children ++ [info.toChild] }
  volumeBps := Function.update part.volumeBps info.aggId
    ((part.volumeBps info.aggId).record c.fp
      ((downgradeSelectors info.aggId).isLopri info.childId) info.volumeBps)

def Part.addGen (part : Part n) (gen : HostInfoGen) : Part n where
  agg i := { part.agg i with infoGen := (part.agg i).infoGen ++ [gen] }
  volumeBps := part.volumeBps

def aggregate (shard : InfoShard n) : Part n :=
  shard.gens.foldl Part.addGen (shard.infos.foldl (Part.addInfo c downgradeSelectors) (emptyPart c))

structure UsageSums where
  hipri : ℤ := 0
  lopri : ℤ := 0
  total : ℤ := 0

def UsageSums.add (sums : UsageSums) (e : PrioEstimators) : UsageSums :=
  let hipriPart := toInt64 e.hipri.estUsage
  let lopriPart := toInt64 e.lopri.estUsage
  { hipri := addInt64 sums.hipri hipriPart
    lopri := addInt64 sums.lopri lopriPart
    total := addInt64 sums.total (addInt64 hipriPart lopriPart) }

def combine (parts : Fin kNumInfoShards → Part n) (i : Fin n) : FastAggInfo :=
  let sums := (List.finRange kNumInfoShards).foldl
    (fun (sums : UsageSums) part => sums.add ((parts part).volumeBps i)) {}
  { (parts 0).agg i with
    children := ((List.finRange kNumInfoShards).drop 1).foldl
      (fun children part => children ++ ((parts part).agg i).children)
      ((parts 0).agg i).children
    parent :=
      { flow := c.flows i
        ewmaUsageBps := sums.total
        ewmaHipriUsageBps := sums.hipri
        ewmaLopriUsageBps := sums.lopri
        predictedDemandBps := sums.total } }

end Aggregate

end FastAggregator

structure FastAggregator (n : ℕ) where
  config : FastAggregator.Config n
  infoShards : Fin FastAggregator.kNumInfoShards → Fin 2 → FastAggregator.InfoShard n :=
    fun _ _ => {}
  activeInfoShardIds : Fin FastAggregator.kNumInfoShards → Fin 2 := fun _ => ⟨0, Nat.two_pos⟩

namespace FastAggregator

variable {n : ℕ}

def updateInfo (a : FastAggregator n) (info : InfoBundle) : FastAggregator n :=
  let shard := shardOf info
  let curId := a.activeInfoShardIds shard
  let cur := a.infoShards shard curId
  { a with
    infoShards := Function.update a.infoShards shard
      (Function.update (a.infoShards shard) curId
        { infos := cur.infos ++ a.config.got info
          gens := cur.gens ++ [hostInfoGen info] }) }

/-- What a snapshot takes from each shard. -/
def snapshotParts (a : FastAggregator n) (downgradeSelectors : Fin n → HashingDowngradeSelector) :
    Fin kNumInfoShards → Part n :=
  fun i => aggregate a.config downgradeSelectors (a.infoShards i (a.activeInfoShardIds i))

/-- The buffer that is not active. -/
def nextId (curId : Fin 2) : Fin 2 := curId + ⟨1, Nat.one_lt_two⟩

def collectSnapshot (a : FastAggregator n) (downgradeSelectors : Fin n → HashingDowngradeSelector) :
    (Fin n → FastAggInfo) × FastAggregator n :=
  (combine a.config (a.snapshotParts downgradeSelectors),
    { a with
      infoShards := fun i =>
        Function.update (a.infoShards i) (nextId (a.activeInfoShardIds i)) {}
      activeInfoShardIds := fun i => nextId (a.activeInfoShardIds i) })

end FastAggregator
end HeypAgents
