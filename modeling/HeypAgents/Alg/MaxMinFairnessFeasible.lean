import HeypAgents.Alg.MaxMinFairnessOptimal

/-!
# What the computed waterlevel hands out

The books of the partial sort balance in every iteration, whatever element
`NthElement` leaves at its position, so the level never hands out more than the
capacity.  That demands which fit are served in full is another matter: it needs the
calls to find their positions, and fails for 514 demands.
-/

namespace HeypAgents
namespace MaxMinFairness

open WaterFilling
open HybridQsort (StdPartition)
open PartialSortAllocator

section PartialSort

variable {part : StdPartition ℤ} {capacity top : ℤ} {U below area above : List ℤ}
  {s : PartialSortAllocator}

structure AccountInv (capacity : ℤ) (U : List ℤ) (top : ℤ) (s : PartialSortAllocator)
    (below area above : List ℤ) : Prop where
  limits : Limits s below area above
  perm : (below ++ (area ++ above)).Perm U
  accounts : Accounts capacity below (area ++ above) s.waterlevel s.residualCapacity
  upper_le : s.upperLimit ≤ top

theorem AccountInv.loopBody (h : AccountInv capacity U top s below area above)
    (hcond : loopCond s = true) :
    ∃ below' area' above', AccountInv capacity U top (loopBody part s) below' area' above' := by
  rcases h.limits.loopBody_cases part hcond with
    ⟨A, v, B, hAB, -, hlimits, hfits, hwater, hres, hupper⟩ |
    ⟨area', above', hrest, hlimits, hwater, hres, hupper⟩
  · have hperm : (A ++ (B ++ above)).Perm (area ++ above) := by
      simpa using hAB.append_right above
    refine ⟨below ++ A, B, above, hlimits, ?_, ?_, hupper.le.trans h.upper_le⟩
    · rw [List.append_assoc]
      exact (hperm.append_left below).trans h.perm
    · rw [hwater, hres]
      exact h.accounts.settle hperm hfits
  · refine ⟨below, area', above', hlimits, (hrest.append_left below).trans h.perm, ?_,
      hupper.trans h.upper_le⟩
    rw [hwater, hres]
    refine ⟨?_, h.accounts.residual_nonneg⟩
    rw [hrest.length_eq]
    exact h.accounts.balance

structure Divided (capacity : ℤ) (U : List ℤ) (top w : ℤ) (settled pending : List ℤ) : Prop where
  perm : (settled ++ pending).Perm U
  length_le : (settled.length : ℤ) ≤ top + 1
  handed_out : settled.sum + pending.length * w ≤ capacity

theorem AccountInv.divideRemainder (h : AccountInv capacity U top s below area above)
    (hexit : loopCond s = false) : Divided capacity U top s.divideRemainder below above := by
  obtain ⟨rfl, hmax, hsize⟩ := h.limits.at_exit hexit
  have hupper := h.limits.upper
  have htop := h.upper_le
  have haccounts := h.accounts
  rw [List.nil_append] at haccounts
  refine ⟨h.perm, ?_, ?_⟩
  · rw [List.length_nil] at hupper
    omega
  · have hdivide := haccounts.divide
    simp only [PartialSortAllocator.divideRemainder, hmax]
    rw [hsize, Int.tdiv_eq_ediv_of_nonneg haccounts.residual_nonneg]
    split_ifs with hrest
    · exact hdivide
    · obtain rfl : above = [] := by
        rw [← List.length_eq_zero_iff]
        omega
      simpa using hdivide

theorem AccountInv.loop (part : StdPartition ℤ)
    (h : AccountInv capacity U top s below area above) {fuel : ℕ} (hfuel : s.width ≤ fuel) :
    ∃ settled pending, Divided capacity U top
      (While.loop loopCond (PartialSortAllocator.loopBody part) fuel s).divideRemainder
      settled pending := by
  obtain ⟨⟨below', area', above', hinv⟩, hexit⟩ := While.loop_spec (C := fun _ => True) (m := width)
    (I := fun s => ∃ below area above, AccountInv capacity U top s below area above)
    loopCond (PartialSortAllocator.loopBody part)
    (fun s hs hcond _ => by
      obtain ⟨below, area, above, hs⟩ := hs
      exact hs.loopBody hcond)
    (fun s _ hcond => width_loopBody_lt hcond)
    hfuel (While.always_of_forall (fun _ => trivial) _ _) ⟨_, _, _, h⟩
  exact ⟨below', above', hinv.divideRemainder hexit⟩

theorem solvePartialSort_feasible (part : StdPartition ℤ) {level residual : ℤ}
    (h : Accounts capacity [] U level residual) :
    served U (solvePartialSort part residual level U) ≤ capacity := by
  unfold solvePartialSort PartialSortAllocator.computeWaterlevel
  split_ifs with hempty
  · obtain rfl : U = [] := by simpa [partialSortStart] using hempty
    have hbalance := h.balance
    have hres := h.residual_nonneg
    simp only [List.sum_nil, List.length_nil, Nat.cast_zero, zero_mul, zero_add] at hbalance
    rw [served_nil]
    omega
  · have hstart : AccountInv capacity U (U.length - 1) (partialSortStart residual level U)
        [] U [] :=
      ⟨⟨by simp [partialSortStart], rfl, by simp [partialSortStart]⟩, by simp,
        by simpa [partialSortStart] using h, le_rfl⟩
    obtain ⟨settled, pending, hdivided⟩ := hstart.loop part le_rfl
    rw [← served_perm hdivided.perm]
    exact (served_le_settled_add settled pending _).trans hdivided.handed_out

/-- The capacity is respected, whether the calls of `NthElement` land or not. -/
theorem computeWaterlevel_feasible (part : StdPartition ℤ) (options : Options) {demands : List ℤ}
    (hcap : 0 ≤ capacity) (hd : ∀ d ∈ demands, 0 ≤ d) :
    served demands (computeWaterlevel part options capacity demands) ≤ capacity := by
  obtain ⟨tiny, h⟩ := filterTiny_filling options hcap hd
  unfold computeWaterlevel
  cases options.solveMethod with
  | kFullSort => exact (solveFullSort_isWaterlevel h).feasible
  | kPartialSort =>
    have hfeasible := solvePartialSort_feasible part h.accounts_pending
    dsimp only
    rw [← served_perm h.perm, served_append]
    linarith [served_le_sum tiny (solvePartialSort part
      (filterTiny options capacity demands).capacity
      (filterTiny options capacity demands).waterlevel
      (filterTiny options capacity demands).unfiltered)]

end PartialSort

section Fitting

variable {part : StdPartition ℤ} {capacity : ℤ} {demands : List ℤ}

theorem unfiltered_length_lt
    (hcap : 0 ≤ capacity) (hne : demands ≠ []) (hfit : demands.sum ≤ capacity) :
    (filterTiny {} capacity demands).unfiltered.length < demands.length := by
  obtain ⟨tiny, h⟩ := filtered_foldl (tinyDemandThresh {} capacity demands) capacity demands
  have hlen := h.perm.length_eq
  rw [List.length_append] at hlen
  have hpos := List.length_pos_iff.mpr hne
  have hthresh : tinyDemandThresh {} capacity demands = capacity / demands.length := by
    rw [tinyDemandThresh, if_pos rfl, Int.tdiv_eq_ediv_of_nonneg hcap, max_eq_left (by omega)]
  have htiny : tiny ≠ [] := by
    rintro rfl
    have hlarge : ∀ d ∈ demands, capacity / demands.length + 1 ≤ d := fun d hd => by
      rw [← hthresh]
      exact h.unfiltered_gt d (by simpa using h.perm.mem_iff.mpr hd)
    have hsum := List.card_nsmul_le_sum demands _ hlarge
    have hshare := Int.lt_mul_ediv_self_add (x := capacity) (k := demands.length) (by omega)
    rw [nsmul_eq_mul, mul_add, mul_one] at hsum
    omega
  have htiny_pos := List.length_pos_iff.mpr htiny
  show List.length _ < _
  simp only [filterTiny]
  omega

/-- At most 513 demands that fit leave at most 512 after the filter, so all calls land. -/
theorem callsLand_of_fits (hcap : 0 ≤ capacity)
    (hlen : demands.length ≤ HybridQsort.kScratchSize + 1) (hne : demands ≠ [])
    (hfit : demands.sum ≤ capacity) : CallsLand part {} capacity demands := by
  have hunfiltered := unfiltered_length_lt hcap hne hfit
  exact callsLand_of_unfiltered_length_le (by omega)

end Fitting

section Unmet

variable (part : StdPartition ℤ)

def largeDemands : List ℤ := block 301 ++ (block 302 ++ [303])

def unmetDemands : List ℤ := 0 :: largeDemands

theorem largeDemands_length : largeDemands.length = 513 := by
  simp [largeDemands]

theorem unmetDemands_sum : unmetDemands.sum = 154671 := by
  simp [unmetDemands, largeDemands]

theorem nthElement_largeDemands :
    NthElement.nthElement (WeakOrder.ofLinearOrder ℤ) part largeDemands 256 =
      block 301 ++ 303 :: block 302 :=
  @nthElement_of_split part largeDemands (block 302) 302 301 303 largeDemands_length
    (by decide +kernel) (by decide +kernel)

theorem Divided.le_302 {w : ℤ} {settled pending : List ℤ}
    (h : Divided 154671 largeDemands 256 w settled pending) : w ≤ 302 := by
  have hlen := h.perm.length_eq
  rw [List.length_append, largeDemands_length] at hlen
  have hall : ∀ d ∈ largeDemands, 301 ≤ d := by decide +kernel
  have hsum := List.card_nsmul_le_sum settled 301 fun d hd =>
    hall d (h.perm.mem_iff.mp (List.mem_append_left _ hd))
  rw [nsmul_eq_mul] at hsum
  have hsettled := h.length_le
  by_contra hover
  have hlevel : (pending.length : ℤ) * 303 ≤ pending.length * w :=
    mul_le_mul_of_nonneg_left (by omega) (by omega)
  have hhanded := h.handed_out
  omega

/--
Raising the level to the misplaced demand of 303 does not fit, so the search goes on
below it and the 256 demands after it are never reached.
-/
theorem computeWaterlevel_unmetDemands_le :
    computeWaterlevel part {} 154671 unmetDemands ≤ 302 := by
  have hfilter : filterTiny {} 154671 unmetDemands =
      { unfiltered := largeDemands, capacity := 154671, waterlevel := 0 } := by
    decide +kernel
  have hall : Limits (partialSortStart 154671 0 largeDemands) [] largeDemands [] :=
    ⟨by simp [partialSortStart], rfl, by simp [partialSortStart]⟩
  have hcond : loopCond (partialSortStart 154671 0 largeDemands) = true := by
    simp [loopCond, partialSortStart, largeDemands_length]
  have hfirst : loopBody part (partialSortStart 154671 0 largeDemands) =
      { sortedDemands := block 301 ++ [303] ++ block 302, residualCapacity := 154671,
        waterlevel := 0, lowerLimit := 0, upperLimit := 256 } := by
    have hidx : (partialSortStart 154671 0 largeDemands).areaIdx = 256 := by
      simp [partialSortStart, areaIdx, partitionIdx, largeDemands_length]
    rw [hall.loopBody_eq hcond (by rw [hidx]; exact nthElement_largeDemands part)
      (by rw [hidx]; exact block_length 301)]
    simp [askFor, partialSortStart, partitionIdx, largeDemands_length]
  have hinv : AccountInv 154671 largeDemands 256
      { sortedDemands := block 301 ++ [303] ++ block 302, residualCapacity := 154671,
        waterlevel := 0, lowerLimit := 0, upperLimit := 256 }
      [] (block 301 ++ [303]) (block 302) := by
    refine ⟨⟨by simp, rfl, by simp⟩, ?_, ⟨by simp, by decide⟩, le_rfl⟩
    simpa [largeDemands] using
      (List.perm_append_comm : ([303] ++ block 302).Perm (block 302 ++ [303])).append_left
        (block 301)
  have hwidth : (partialSortStart 154671 0 largeDemands).width = 513 := by
    simp [width, partialSortStart, largeDemands_length]
  have hempty : (partialSortStart 154671 0 largeDemands).sortedDemands.isEmpty = false := by
    simp [partialSortStart, largeDemands]
  simp only [computeWaterlevel, hfilter, solvePartialSort,
    PartialSortAllocator.computeWaterlevel, hempty, hwidth]
  rw [if_neg Bool.false_ne_true, While.loop, if_pos hcond, hfirst]
  obtain ⟨settled, pending, hdivided⟩ := hinv.loop part (show _ ≤ 512 from by decide)
  exact hdivided.le_302

end Unmet

end MaxMinFairness
end HeypAgents
