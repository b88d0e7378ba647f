import HeypAgents.ClusterAgent.QosEncoding
import HeypAgents.Flows.FlowAggregatorConservation

/-!
# The full cluster controller

`FullClusterController` of `full-controller.cc`.  A round aggregates all reports,
allocates for every aggregate, groups the allocations by host and sends every host's
bundle to its listeners.  The calls of the controller are atomic.

The allocator is any `PerAggAllocator`.  `ClusterAllocator` runs it for the aggregates
in parallel; a round is given the order in which these tasks finish.
-/

namespace HeypAgents

open Flows GroupFold
open QosEncoding (lookupAlloc)

/--
An allocator with states `σ`.  Every allocator copies the flows of its allocations from
the children; `none` is a fatal exit.
-/
structure PerAggAllocator (σ : Type) where
  allocAgg : σ → ℚ → AggInfo → Option (σ × List FlowAlloc)
  flow_of_child : ∀ {state time info state' allocs},
    allocAgg state time info = some (state', allocs) →
    ∀ alloc ∈ allocs, ∃ child ∈ info.children, alloc.flow = child.flow

structure FullClusterController.Listener where
  hostId : UInt64
  lisId : ℕ
deriving DecidableEq, Repr

structure FullClusterController (σ : Type) where
  aggregator : FlowAggregator
  allocator : PerAggAllocator σ
  allocatorState : σ
  lastAllocBundle : AList fun _ : UInt64 => AllocBundle := ∅
  nextLisId : ℕ := 1
  /-- The ids of the callbacks of a host. -/
  newBundleFuncs : UInt64 → List ℕ := fun _ => []

/-- `BweAggAllocator` as an allocator; it has no state of its own. -/
def BweAggAllocator.perAgg (fp : Rounding) (part : HybridQsort.StdPartition ℤ) :
    PerAggAllocator BweAggAllocator where
  allocAgg a _ info := (a.allocAgg fp part info).map fun allocs => (a, allocs.map (·.alloc))
  flow_of_child := by
    intro a time info a' allocs h alloc halloc
    obtain ⟨childAllocs, hallocs, heq⟩ := Option.map_eq_some_iff.mp h
    obtain ⟨-, rfl⟩ := Prod.mk.inj heq
    obtain ⟨childAlloc, hmem, rfl⟩ := List.mem_map.mp halloc
    unfold BweAggAllocator.allocAgg at hallocs
    split at hallocs
    · obtain rfl := Option.some.inj hallocs
      cases hmem
    · split_ifs at hallocs
      obtain rfl := Option.some.inj hallocs
      obtain ⟨child, hchild, rfl⟩ := List.mem_map.mp hmem
      exact ⟨child, hchild, rfl⟩

def ClusterAllocator.getAllocs {σ : Type} (allocator : PerAggAllocator σ) (state : σ)
    (infos : List (ℚ × AggInfo)) : Option (σ × List (List FlowAlloc)) :=
  infos.foldlM (fun acc info =>
    (allocator.allocAgg acc.1 info.1 info.2).map fun r => (r.1, acc.2 ++ [r.2])) (state, [])

def bundleByHost (partialSets : List (List FlowAlloc)) : AList fun _ : UInt64 => AllocBundle :=
  groupFold (fun alloc : FlowAlloc => alloc.flow.hostId) {}
    (fun bundle alloc => { bundle with flowAllocs := bundle.flowAllocs ++ [alloc] }) ∅
    partialSets.flatten

namespace FullClusterController

variable {σ : Type}

def create (aggregator : FlowAggregator) (allocator : PerAggAllocator σ) (state : σ) :
    FullClusterController σ where
  aggregator := aggregator
  allocator := allocator
  allocatorState := state

section Calls

variable (c : FullClusterController σ)

def registerListener (hostId : UInt64) : FullClusterController σ × Listener :=
  ({ c with
      newBundleFuncs := Function.update c.newBundleFuncs hostId
        ((c.newBundleFuncs hostId).insert c.nextLisId)
      nextLisId := c.nextLisId + 1 },
    { hostId := hostId, lisId := c.nextLisId })

/-- The destructor of a listener. -/
def destroyListener (lis : Listener) : FullClusterController σ :=
  if lis.hostId ≠ 0 then
    { c with
      newBundleFuncs := Function.update c.newBundleFuncs lis.hostId
        ((c.newBundleFuncs lis.hostId).erase lis.lisId) }
  else c

def withIntendedQos (hostId : UInt64) (info : FlowInfo) : FlowInfo :=
  let info := { info with ewmaHipriUsageBps := 0, ewmaLopriUsageBps := 0 }
  match lookupAlloc c.lastAllocBundle.lookup hostId info.flow with
  | 0 => { info with currentlyLopri := false }
  | 1 => { info with currentlyLopri := true }
  | _ => info

def updateInfo (bundlerId : ℕ) (info : InfoBundle) : Option (FullClusterController σ) :=
  (c.aggregator.update bundlerId { info with
    flowInfos := info.flowInfos.map (c.withIntendedQos info.bundler.hostId) }).map fun aggregator =>
      { c with aggregator := aggregator }

def getBundlerID (bundler : FlowMarker) : ℕ × FullClusterController σ :=
  ((c.aggregator.getBundlerID bundler).1,
    { c with aggregator := (c.aggregator.getBundlerID bundler).2 })

/-- The callbacks for the bundles, in order. -/
def broadcast (bundles : AList fun _ : UInt64 => AllocBundle) : List (Listener × AllocBundle) :=
  bundles.entries.flatMap fun e =>
    (c.newBundleFuncs e.1).map fun lisId => ({ hostId := e.1, lisId := lisId }, e.2)

def computeAndBroadcast (order : List (ℚ × AggInfo)) :
    Option (FullClusterController σ × List (Listener × AllocBundle)) := do
  let (aggregator, infos) ← c.aggregator.forEachAgg
  if order.Perm infos then
    let (state, partialSets) ← ClusterAllocator.getAllocs c.allocator c.allocatorState order
    some ({ c with
        aggregator := aggregator
        allocatorState := state
        lastAllocBundle := bundleByHost partialSets },
      c.broadcast (bundleByHost partialSets))
  else none

end Calls

end FullClusterController
end HeypAgents
