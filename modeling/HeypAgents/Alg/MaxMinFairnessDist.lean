import HeypAgents.Alg.MaxMinFairness

/-!
# The single-link max-min fairness problem for distributions

`SingleLinkMaxMinFairnessDistProblem::ComputeWaterlevel`: a demand comes with its expected
count.  Doubles are exact rationals.  The order in which `std::sort` leaves demands with
equal values is left open, and so is that of `std::partition`.
-/

namespace HeypAgents

structure ValCount where
  val : ℚ := 0
  expectedCount : ℚ := 0
deriving DecidableEq, Repr

namespace MaxMinFairnessDist

open HybridQsort (StdPartition)
open MaxMinFairness (SolveMethod Options)

/-- `ValCountComparator`. -/
def valCountComparator : WeakOrder ValCount where
  lt a b := decide (a.val < b.val)
  asymm a b h := by
    simp only [decide_eq_true_eq, decide_eq_false_iff_not] at h ⊢
    exact h.asymm
  negTrans a b c h := by
    simp only [decide_eq_true_eq] at h ⊢
    exact (lt_or_ge a.val b.val).imp_right fun hb => hb.trans_lt h

@[simp] theorem valCountComparator_le {a b : ValCount} :
    valCountComparator.le a b ↔ a.val ≤ b.val := by
  simp [WeakOrder.le, valCountComparator]

/-- A `std::sort` by value. -/
structure StdSort where
  run : List ValCount → List ValCount
  perm : ∀ xs, (run xs).Perm xs
  sorted : ∀ xs, (run xs).Pairwise fun a b => a.val ≤ b.val

def StdSort.stable : StdSort where
  run xs := xs.insertionSort fun a b => a.val ≤ b.val
  perm xs := List.perm_insertionSort _ xs
  sorted xs := by
    have htotal : Std.Total fun a b : ValCount => a.val ≤ b.val := ⟨fun a b => le_total a.val b.val⟩
    have htrans : IsTrans ValCount fun a b => a.val ≤ b.val := ⟨fun _ _ _ => le_trans⟩
    exact List.pairwise_insertionSort _ xs

def expectedGeCount (sorted : List ValCount) : ℚ × List ℚ :=
  sorted.foldr (fun d acc => (acc.1 + d.expectedCount, (acc.1 + d.expectedCount) :: acc.2)) (0, [])

/-- The loop of `SolveFullSort` over the demands that are still to be satisfied. -/
def fullSortLoop (capacity waterlevel : ℚ) : List (ValCount × ℚ) → ℚ
  | [] => waterlevel
  | (nextDemand, numUnsatisfied) :: rest =>
    let delta := nextDemand.val - waterlevel
    let ask := delta * numUnsatisfied
    if ask ≤ capacity then fullSortLoop (capacity - ask) (waterlevel + delta) rest
    else waterlevel + capacity / numUnsatisfied

def solveFullSort (sort : StdSort) (capacity waterlevel : ℚ) (sortedDemands : List ValCount) : ℚ :=
  let sorted := sort.run sortedDemands
  fullSortLoop capacity waterlevel (sorted.zip (expectedGeCount sorted).2)

def sumCounts (data : List ValCount) : ℚ := data.foldl (fun sum x => sum + x.expectedCount) 0

/-- `subspan(pos, len)`, which ends where the span does. -/
def subspan (data : List ValCount) (pos len : ℕ) : List ValCount := (data.drop pos).take len

/-- The members of `PartialSortAllocator`; the area of interest is `[lower, upper]`. -/
structure PartialSortAllocator where
  sortedDemands : List ValCount
  residualCapacity : ℚ
  lowerLimit : ℤ
  upperLimit : ℤ
  countAboveUpperLimit : ℚ
  waterlevel : ℚ
deriving DecidableEq, Repr

namespace PartialSortAllocator

def partitionIdx (s : PartialSortAllocator) : ℤ := s.lowerLimit + (s.upperLimit - s.lowerLimit) / 2

/-- The demands in `[lower, upper]`. -/
def area (s : PartialSortAllocator) : List ValCount :=
  (s.sortedDemands.take (s.upperLimit + 1).toNat).drop s.lowerLimit.toNat

def areaIdx (s : PartialSortAllocator) : ℕ := (s.partitionIdx - s.lowerLimit).toNat

def askOfA (waterlevel : ℚ) (A : List ValCount) : ℚ × ℚ :=
  A.foldl (fun (acc : ℚ × ℚ) vc => (acc.1 + (vc.val * vc.expectedCount - waterlevel), vc.val))
    (0, 0)

def loopCond (s : PartialSortAllocator) : Bool := decide (s.lowerLimit ≤ s.upperLimit)

variable (part : StdPartition ValCount)

/-- The demands after the call of `NthElement`. -/
def partitioned (s : PartialSortAllocator) : List ValCount :=
  s.sortedDemands.take s.lowerLimit.toNat ++
    (NthElement.nthElement valCountComparator part s.area s.areaIdx ++
      s.sortedDemands.drop (s.upperLimit + 1).toNat)

/-- The demands in `[lower, partition point]`. -/
def partA (s : PartialSortAllocator) : List ValCount :=
  ((s.partitioned part).take (s.partitionIdx + 1).toNat).drop s.lowerLimit.toNat

def maxDemandA (s : PartialSortAllocator) : ℚ := (askOfA s.waterlevel (s.partA part)).2

/-- The span has `upper_limit_` elements, not those up to this position. -/
def expectedCountB (s : PartialSortAllocator) : ℚ :=
  sumCounts (subspan (s.partitioned part) (s.partitionIdx + 1).toNat s.upperLimit.toNat)

def ask (s : PartialSortAllocator) : ℚ :=
  (askOfA s.waterlevel (s.partA part)).1 +
    (s.maxDemandA part - s.waterlevel) * (s.expectedCountB part + s.countAboveUpperLimit)

def loopBody (s : PartialSortAllocator) : PartialSortAllocator :=
  if s.ask part ≤ s.residualCapacity then
    { s with
      sortedDemands := s.partitioned part
      waterlevel := s.maxDemandA part
      residualCapacity := s.residualCapacity - s.ask part
      lowerLimit := s.partitionIdx + 1 }
  else if s.lowerLimit = s.upperLimit then
    { s with
      sortedDemands := s.partitioned part
      countAboveUpperLimit := s.countAboveUpperLimit +
        sumCounts (subspan (s.partitioned part) s.lowerLimit.toNat s.upperLimit.toNat)
      upperLimit := s.lowerLimit - 1 }
  else
    { s with
      sortedDemands := s.partitioned part
      countAboveUpperLimit := s.countAboveUpperLimit + s.expectedCountB part
      upperLimit := s.partitionIdx }

def width (s : PartialSortAllocator) : ℕ := (s.upperLimit - s.lowerLimit + 1).toNat

def divideRemainder (s : PartialSortAllocator) : ℚ :=
  let nextUnsatisfied := max s.lowerLimit s.upperLimit
  if nextUnsatisfied < s.sortedDemands.length then
    s.waterlevel + s.residualCapacity / sumCounts (s.sortedDemands.drop nextUnsatisfied.toNat)
  else s.waterlevel

def computeWaterlevel (s : PartialSortAllocator) : ℚ :=
  if s.sortedDemands.isEmpty then s.waterlevel
  else divideRemainder (While.loop loopCond (loopBody part) s.width s)

end PartialSortAllocator

/-- The allocator that `SolvePartialSort` constructs. -/
def partialSortStart
    (capacity waterlevel : ℚ) (sortedDemands : List ValCount) : PartialSortAllocator where
  sortedDemands := sortedDemands
  residualCapacity := capacity
  lowerLimit := 0
  upperLimit := sortedDemands.length - 1
  countAboveUpperLimit := 0
  waterlevel := waterlevel

def solvePartialSort
    (part : StdPartition ValCount) (capacity waterlevel : ℚ) (sortedDemands : List ValCount) : ℚ :=
  (partialSortStart capacity waterlevel sortedDemands).computeWaterlevel part

structure TinyFilter where
  unfiltered : List ValCount
  capacity : ℚ
  waterlevel : ℚ
deriving DecidableEq, Repr

def TinyFilter.step (thresh : ℚ) (f : TinyFilter) (demand : ValCount) : TinyFilter :=
  if demand.val ≤ thresh then
    { f with
      capacity := f.capacity - demand.val * demand.expectedCount
      waterlevel := max f.waterlevel demand.val }
  else
    { f with unfiltered := f.unfiltered ++ [demand] }

/-- `capacity / max(num_demands, 1)`, or -1 without the tiny-flow fast path. -/
def tinyDemandThresh (options : Options) (capacity : ℚ) (demands : List ValCount) : ℚ :=
  if options.enableTinyFlowOpt then capacity / max (demands.length : ℚ) 1 else -1

def filterTiny (options : Options) (capacity : ℚ) (demands : List ValCount) : TinyFilter :=
  let f := demands.foldl (TinyFilter.step (tinyDemandThresh options capacity demands))
    { unfiltered := [], capacity := capacity, waterlevel := 0 }
  { f with capacity := f.capacity - f.waterlevel * f.unfiltered.length }

/-- `SingleLinkMaxMinFairnessDistProblem::ComputeWaterlevel`. -/
def computeWaterlevel
    (sort : StdSort) (part : StdPartition ValCount) (options : Options) (capacity : ℚ)
    (demands : List ValCount) : ℚ :=
  let f := filterTiny options capacity demands
  match options.solveMethod with
  | .kFullSort => solveFullSort sort f.capacity f.waterlevel f.unfiltered
  | .kPartialSort => solvePartialSort part f.capacity f.waterlevel f.unfiltered

end MaxMinFairnessDist
end HeypAgents
