import Mathlib.Data.List.Sort
import HeypAgents.Lib.WaterFilling
import HeypAgents.Alg.NthElement

/-!
# The single-link max-min fairness problem

`SingleLinkMaxMinFairnessProblem::ComputeWaterlevel` with its two solvers.  The
demands and the capacity are ideal integers.  `NthElement` is the one of the
repository, so the partial-sort solver inherits its misses.
-/

namespace HeypAgents
namespace MaxMinFairness

open HybridQsort (StdPartition)

inductive SolveMethod where
  | kFullSort
  | kPartialSort
deriving DecidableEq, Repr

/-- `SingleLinkMaxMinFairnessProblemOptions`. -/
structure Options where
  solveMethod : SolveMethod := .kPartialSort
  enableTinyFlowOpt : Bool := true
deriving DecidableEq, Repr

/-- The loop of `SolveFullSort` over the demands that are still to be satisfied. -/
def fullSortLoop (capacity waterlevel : ℤ) : List ℤ → ℤ
  | [] => waterlevel
  | nextDemand :: rest =>
    let delta := nextDemand - waterlevel
    let numUnsatisfied : ℤ := (nextDemand :: rest).length
    let ask := delta * numUnsatisfied
    if ask ≤ capacity then
      fullSortLoop (capacity - ask) (waterlevel + delta) rest
    else
      waterlevel + capacity.tdiv numUnsatisfied

def solveFullSort (capacity waterlevel : ℤ) (sortedDemands : List ℤ) : ℤ :=
  fullSortLoop capacity waterlevel (sortedDemands.mergeSort fun a b => decide (a ≤ b))

/-- The members of `PartialSortAllocator`; the area of interest is `[lower, upper]`. -/
structure PartialSortAllocator where
  sortedDemands : List ℤ
  residualCapacity : ℤ
  lowerLimit : ℤ
  upperLimit : ℤ
  waterlevel : ℤ
deriving DecidableEq, Repr

namespace PartialSortAllocator

def partitionIdx (s : PartialSortAllocator) : ℤ := s.lowerLimit + (s.upperLimit - s.lowerLimit) / 2

/-- The demands in `[lower, upper]`. -/
def area (s : PartialSortAllocator) : List ℤ :=
  (s.sortedDemands.take (s.upperLimit + 1).toNat).drop s.lowerLimit.toNat

def areaIdx (s : PartialSortAllocator) : ℕ := (s.partitionIdx - s.lowerLimit).toNat

def askOfA (waterlevel : ℤ) (A : List ℤ) : ℤ × ℤ :=
  A.foldl (fun (acc : ℤ × ℤ) d => (acc.1 + (d - waterlevel), d)) (0, 0)

def loopCond (s : PartialSortAllocator) : Bool := decide (s.lowerLimit ≤ s.upperLimit)

variable (part : StdPartition ℤ)

/-- The demands after the call of `NthElement`. -/
def partitioned (s : PartialSortAllocator) : List ℤ :=
  s.sortedDemands.take s.lowerLimit.toNat ++
    (NthElement.nthElement (WeakOrder.ofLinearOrder ℤ) part s.area s.areaIdx ++
      s.sortedDemands.drop (s.upperLimit + 1).toNat)

def loopBody (s : PartialSortAllocator) : PartialSortAllocator :=
  let sorted := s.partitioned part
  let p := s.partitionIdx
  let A := (sorted.take (p + 1).toNat).drop s.lowerLimit.toNat
  let maxDemandA := (askOfA s.waterlevel A).2
  let ask := (askOfA s.waterlevel A).1 + (maxDemandA - s.waterlevel) * (sorted.length - p - 1)
  if ask ≤ s.residualCapacity then
    { s with
      sortedDemands := sorted
      waterlevel := maxDemandA
      residualCapacity := s.residualCapacity - ask
      lowerLimit := p + 1 }
  else if s.lowerLimit = s.upperLimit then
    { s with sortedDemands := sorted, upperLimit := s.lowerLimit - 1 }
  else
    { s with sortedDemands := sorted, upperLimit := p }

def width (s : PartialSortAllocator) : ℕ := (s.upperLimit - s.lowerLimit + 1).toNat

/-- The evenly divided remainder after the loop. -/
def divideRemainder (s : PartialSortAllocator) : ℤ :=
  let nextUnsatisfied := max s.lowerLimit s.upperLimit
  if nextUnsatisfied < s.sortedDemands.length then
    s.waterlevel + s.residualCapacity.tdiv (s.sortedDemands.length - nextUnsatisfied)
  else
    s.waterlevel

def computeWaterlevel (s : PartialSortAllocator) : ℤ :=
  if s.sortedDemands.isEmpty then s.waterlevel
  else divideRemainder (While.loop loopCond (loopBody part) s.width s)

/-- Every call of `NthElement` in the loop finds its position. -/
def Lands (s : PartialSortAllocator) : Prop :=
  While.Always loopCond (loopBody part)
    (fun s => NthElement.Lands (WeakOrder.ofLinearOrder ℤ) part s.area s.areaIdx)
    s.width s

end PartialSortAllocator

/-- The allocator that `SolvePartialSort` constructs. -/
def partialSortStart (capacity waterlevel : ℤ) (sortedDemands : List ℤ) : PartialSortAllocator where
  sortedDemands := sortedDemands
  residualCapacity := capacity
  lowerLimit := 0
  upperLimit := sortedDemands.length - 1
  waterlevel := waterlevel

def solvePartialSort
    (part : StdPartition ℤ) (capacity waterlevel : ℤ) (sortedDemands : List ℤ) : ℤ :=
  (partialSortStart capacity waterlevel sortedDemands).computeWaterlevel part

/-- The state of the filter for tiny demands. -/
structure TinyFilter where
  unfiltered : List ℤ
  capacity : ℤ
  waterlevel : ℤ
deriving DecidableEq, Repr

namespace TinyFilter

def step (thresh : ℤ) (f : TinyFilter) (demand : ℤ) : TinyFilter :=
  if demand ≤ thresh then
    { f with capacity := f.capacity - demand, waterlevel := max f.waterlevel demand }
  else
    { f with unfiltered := f.unfiltered ++ [demand] }

end TinyFilter

/-- `capacity / max(num_demands, 1)`, or -1 without the tiny-flow fast path. -/
def tinyDemandThresh (options : Options) (capacity : ℤ) (demands : List ℤ) : ℤ :=
  if options.enableTinyFlowOpt then capacity.tdiv (max (demands.length : ℤ) 1) else -1

def filterTiny (options : Options) (capacity : ℤ) (demands : List ℤ) : TinyFilter :=
  let f := demands.foldl (TinyFilter.step (tinyDemandThresh options capacity demands))
    { unfiltered := [], capacity := capacity, waterlevel := 0 }
  { f with capacity := f.capacity - f.waterlevel * f.unfiltered.length }

/-- `SingleLinkMaxMinFairnessProblem::ComputeWaterlevel`. -/
def computeWaterlevel
    (part : StdPartition ℤ) (options : Options) (capacity : ℤ) (demands : List ℤ) : ℤ :=
  let f := filterTiny options capacity demands
  match options.solveMethod with
  | .kFullSort => solveFullSort f.capacity f.waterlevel f.unfiltered
  | .kPartialSort => solvePartialSort part f.capacity f.waterlevel f.unfiltered

end MaxMinFairness
end HeypAgents
