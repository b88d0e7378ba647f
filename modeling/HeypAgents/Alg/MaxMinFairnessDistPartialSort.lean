import HeypAgents.Lib.ListWindow
import HeypAgents.Alg.MaxMinFairnessDistFullSort

/-!
# Partial sort for distributions of demands

The partial sort was written for demands that count once.  An iteration charges the level
once for each entry of A, and the span that it sums up for B reaches into the part above.
What it asks for is therefore off, and with it the decision whether A fits and what is left
of the capacity.

As long as every iteration that settles A asks for what A needs, and every iteration that
gives A up could not have settled it, the loop fills the capacity as the full sort does.
-/

namespace HeypAgents
namespace MaxMinFairnessDist

open WeightedFilling
open ListWindow
open HybridQsort (StdPartition)

namespace PartialSortAllocator

variable (part : StdPartition ValCount)

/-- What an iteration asks for in excess of what it takes to settle A and to raise the rest. -/
def overcharge (s : PartialSortAllocator) : ℚ :=
  s.waterlevel * (total ValCount.expectedCount (s.partA part) - (s.partA part).length) +
    (s.maxDemandA part - s.waterlevel) *
      (s.expectedCountB part + s.countAboveUpperLimit -
        total ValCount.expectedCount ((s.partitioned part).drop (s.partitionIdx + 1).toNat))

/--
The condition on the state before an iteration: the call of `NthElement` finds its
position, an iteration that settles A charges nothing in excess, and one that does not
lacks the capacity for it.
-/
structure Exact (s : PartialSortAllocator) : Prop where
  lands : NthElement.Lands valCountComparator part s.area s.areaIdx
  charge : s.ask part ≤ s.residualCapacity → s.overcharge part = 0
  refuse : s.residualCapacity < s.ask part → s.residualCapacity < s.ask part - s.overcharge part

/-- Every iteration of the loop starts in an exact state. -/
def AlwaysExact (s : PartialSortAllocator) : Prop :=
  While.Always loopCond (loopBody part) (Exact part) s.width s

end PartialSortAllocator

open PartialSortAllocator

section Iteration

variable {part : StdPartition ValCount} {s : PartialSortAllocator}
  {below area above as bs : List ValCount} {v : ValCount}

def Limits (s : PartialSortAllocator) (below area above : List ValCount) : Prop :=
  Window s.sortedDemands s.lowerLimit s.upperLimit below area above

theorem askOfA_concat (waterlevel : ℚ) (as : List ValCount) (v : ValCount) :
    askOfA waterlevel (as ++ [v]) =
      (volume ValCount.val ValCount.expectedCount (as ++ [v]) -
        (as ++ [v]).length * waterlevel, v.val) := by
  have hsum : ∀ (A : List ValCount) (acc : ℚ × ℚ),
      (A.foldl (fun (acc : ℚ × ℚ) vc =>
        (acc.1 + (vc.val * vc.expectedCount - waterlevel), vc.val)) acc).1 =
        acc.1 + (volume ValCount.val ValCount.expectedCount A - A.length * waterlevel) := by
    intro A
    induction A with
    | nil => simp [volume]
    | cons a A ih =>
      intro acc
      rw [List.foldl_cons, ih, volume_cons, List.length_cons]
      push_cast
      ring
  refine Prod.ext ?_ ?_
  · rw [askOfA, hsum, zero_add]
  · simp [askOfA, List.foldl_append]

/-- The area as `NthElement` leaves it, around the partition point. -/
structure Split (part : StdPartition ValCount) (s : PartialSortAllocator)
    (below area above as : List ValCount) (v : ValCount) (bs : List ValCount) : Prop where
  limits : Limits s below area above
  nth : NthElement.nthElement valCountComparator part area s.areaIdx = as ++ v :: bs
  idx : as.length = s.areaIdx
  point : s.partitionIdx + 1 = below.length + (as ++ [v]).length

theorem Limits.exists_split (part : StdPartition ValCount) (h : Limits s below area above)
    (hcond : loopCond s = true) : ∃ as v bs, Split part s below area above as v bs := by
  obtain ⟨hlt, hidx⟩ := Window.mid_lt h (of_decide_eq_true hcond)
  have hperm := NthElement.nthElement_perm valCountComparator part area s.areaIdx
  obtain ⟨as, v, bs, hnth, has⟩ := exists_split_at (hperm.length_eq.symm ▸ hlt)
  refine ⟨as, v, bs, h, hnth, has, ?_⟩
  rw [List.length_append, List.length_singleton, has]
  simp only [partitionIdx]
  omega

namespace Split

theorem perm (h : Split part s below area above as v bs) : ((as ++ [v]) ++ bs).Perm area := by
  rw [List.append_assoc]
  exact h.nth ▸ NthElement.nthElement_perm valCountComparator part area s.areaIdx

theorem partitioned_eq (h : Split part s below area above as v bs) :
    s.partitioned part = below ++ (as ++ [v]) ++ (bs ++ above) := by
  have harea : s.area = area := Window.area_eq h.limits
  rw [partitioned, harea, h.nth, Window.take_lower h.limits, Window.drop_upper h.limits]
  simp

theorem partA_eq (h : Split part s below area above as v bs) : s.partA part = as ++ [v] := by
  rw [partA, h.partitioned_eq]
  exact Window.lowerPart h.limits h.point

theorem maxDemandA_eq (h : Split part s below area above as v bs) : s.maxDemandA part = v.val := by
  rw [maxDemandA, h.partA_eq, askOfA_concat]

theorem ask_eq (h : Split part s below area above as v bs) :
    s.ask part =
      WeightedFilling.ask ValCount.val ValCount.expectedCount s.waterlevel (as ++ [v]) v.val
        (bs ++ above) + s.overcharge part := by
  have hrest : (s.partitioned part).drop (s.partitionIdx + 1).toNat = bs ++ above := by
    rw [h.partitioned_eq]
    exact Window.rest h.limits h.point
  rw [PartialSortAllocator.ask, overcharge, hrest, h.maxDemandA_eq, h.partA_eq, askOfA_concat,
    WeightedFilling.ask]
  ring

theorem eq_nil_of_single (h : Split part s below area above as v bs)
    (hsingle : s.lowerLimit = s.upperLimit) : as = [] ∧ bs = [] := by
  have hlen := h.perm.length_eq
  have hlower := Window.lower_eq h.limits
  have hupper := Window.upper_eq h.limits
  simp only [List.length_append, List.length_singleton] at hlen
  rw [← List.length_eq_zero_iff, ← List.length_eq_zero_iff]
  omega

end Split

theorem width_loopBody_lt (hcond : loopCond s = true) : (loopBody part s).width < s.width := by
  have hle : s.lowerLimit ≤ s.upperLimit := of_decide_eq_true hcond
  unfold loopBody
  split_ifs <;> simp only [width, partitionIdx] <;> omega

end Iteration

section Run

variable {part : StdPartition ValCount} {capacity : ℚ} {D : List ValCount}
  {s : PartialSortAllocator} {run : List PartialSortAllocator}
  {below area above as bs : List ValCount} {v : ValCount}

/--
After some exact iterations the allocator fills the capacity, and the level cannot be
raised to any of the demands above the area.
-/
structure RunInv (capacity : ℚ) (D : List ValCount) (s : PartialSortAllocator)
    (below area above : List ValCount) : Prop where
  limits : Limits s below area above
  filling : Filling ValCount.val ValCount.expectedCount capacity D below (area ++ above)
    s.waterlevel s.residualCapacity
  ordered : ∀ x ∈ area, ∀ y ∈ above, x.val ≤ y.val
  short : ∀ y ∈ above, capacity < served ValCount.val ValCount.expectedCount D y.val

theorem Split.ordered (h : Split part s below area above as v bs)
    (hlands : NthElement.Lands valCountComparator part s.area s.areaIdx)
    (hordered : ∀ x ∈ area, ∀ y ∈ above, x.val ≤ y.val) :
    (∀ a ∈ as ++ [v], a.val ≤ v.val) ∧ ∀ b ∈ bs ++ above, v.val ≤ b.val := by
  have harea : s.area = area := Window.area_eq h.limits
  have hlt : s.areaIdx < area.length := by
    have hlen := h.perm.length_eq
    simp only [List.length_append, List.length_singleton] at hlen
    have := h.idx
    omega
  rw [harea] at hlands
  obtain ⟨as', v', bs', hnth, has, hle, hge⟩ := NthElement.nthElement_selected hlt hlands
  rw [h.nth] at hnth
  obtain ⟨rfl, htail⟩ := List.append_inj hnth (h.idx.trans has.symm)
  obtain ⟨rfl, rfl⟩ := List.cons.inj htail
  simp only [valCountComparator_le] at hle hge
  have hv : v ∈ area := h.perm.mem_iff.mp (by simp)
  refine ⟨fun a ha => ?_, fun b hb => ?_⟩
  · rcases List.mem_append.mp ha with ha | ha
    · exact hle a ha
    · rw [List.mem_singleton.mp ha]
  · rcases List.mem_append.mp hb with hb | hb
    · exact hge b hb
    · exact hordered v hv b hb

/-- An exact iteration settles A or gives it up as the fair level asks. -/
theorem RunInv.loopBody (h : RunInv capacity D s below area above) (hcond : loopCond s = true)
    (hexact : s.Exact part) :
    ∃ below' area' above', RunInv capacity D (loopBody part s) below' area' above' := by
  obtain ⟨as, v, bs, hsplit⟩ := h.limits.exists_split part hcond
  obtain ⟨hA, hB⟩ := hsplit.ordered hexact.lands h.ordered
  have hmove : ((as ++ [v]) ++ (bs ++ above)).Perm (area ++ above) := by
    rw [← List.append_assoc]
    exact hsplit.perm.append_right above
  have hv : v ∈ as ++ [v] := by simp
  have hask := hsplit.ask_eq
  unfold PartialSortAllocator.loopBody
  rw [hsplit.partitioned_eq, hsplit.maxDemandA_eq]
  by_cases hfits : s.ask part ≤ s.residualCapacity
  · rw [if_pos hfits]
    rw [hexact.charge hfits, add_zero] at hask
    refine ⟨below ++ (as ++ [v]), bs, above,
      Window.behind h.limits hsplit.perm.length_eq hsplit.point, ?_, ?_, h.short⟩
    · dsimp only
      rw [hask] at hfits ⊢
      exact h.filling.settle hmove hv hA hB hfits
    · exact fun x hx y hy => h.ordered x (hsplit.perm.mem_iff.mp (by simp [hx])) y hy
  · rw [if_neg hfits]
    -- A does not fit even without what is charged in excess, so the fair level is below `v`
    have hover : capacity < served ValCount.val ValCount.expectedCount D v.val := by
      rw [← not_le, ← h.filling.ask_le_iff hmove hv hA hB, not_le]
      linarith [hexact.refuse (not_le.mp hfits)]
    have hshort : ∀ y ∈ bs ++ above, capacity < served ValCount.val ValCount.expectedCount D y.val :=
      fun y hy => hover.trans_le (served_mono h.filling.positive (hB y hy))
    split_ifs with hsingle
    · obtain ⟨rfl, rfl⟩ := hsplit.eq_nil_of_single hsingle
      refine ⟨below, [], v :: above, Window.closed h.limits, h.filling.reorder hmove, by simp, ?_⟩
      rintro y (_ | ⟨_, hy⟩)
      · exact hover
      · exact h.short y hy
    · exact ⟨below, as ++ [v], bs ++ above, Window.ahead h.limits hsplit.point,
        h.filling.reorder hmove, fun x hx y hy => (hA x hx).trans (hB y hy), hshort⟩

theorem runInv_start {demands : List ValCount}
    (h : Filling ValCount.val ValCount.expectedCount capacity demands [] demands 0 capacity) :
    RunInv capacity demands (partialSortStart capacity 0 demands) [] demands [] where
  limits := ⟨by simp [partialSortStart], rfl, by simp [partialSortStart]⟩
  filling := by simpa [partialSortStart] using h
  ordered := by simp
  short := by simp

/-- The whole loop, if all its iterations are exact. -/
theorem runInv_loop {demands : List ValCount}
    (h : Filling ValCount.val ValCount.expectedCount capacity demands [] demands 0 capacity)
    (hexact : (partialSortStart capacity 0 demands).AlwaysExact part) :
    ∃ below above, RunInv capacity demands
      (While.loop loopCond (loopBody part) (partialSortStart capacity 0 demands).width
        (partialSortStart capacity 0 demands)) below [] above := by
  obtain ⟨⟨below, area, above, hinv⟩, hexit⟩ := While.loop_spec
    (I := fun s => ∃ below area above, RunInv capacity demands s below area above)
    (m := width) loopCond (loopBody part)
    (fun s ⟨_, _, _, hs⟩ hcond hC => hs.loopBody hcond hC)
    (fun s _ hcond => width_loopBody_lt hcond)
    le_rfl hexact ⟨_, _, _, runInv_start h⟩
  have hlt := of_decide_eq_false hexit
  obtain rfl := Window.eq_nil hinv.limits (not_le.mp hlt)
  exact ⟨below, above, hinv⟩

end Run

section Division

variable {part : StdPartition ValCount} {s : PartialSortAllocator} {below above : List ValCount}

theorem sumCounts_eq (data : List ValCount) :
    sumCounts data = total ValCount.expectedCount data := by
  have hfold : ∀ (data : List ValCount) (sum : ℚ),
      data.foldl (fun sum x => sum + x.expectedCount) sum =
        sum + total ValCount.expectedCount data := by
    intro data
    induction data with
    | nil => simp [total]
    | cons d data ih =>
      intro sum
      rw [List.foldl_cons, ih, total_cons, add_assoc]
  rw [sumCounts, hfold, zero_add]

theorem Limits.divideRemainder_eq (h : Limits s below [] above) :
    s.divideRemainder =
      if above = [] then s.waterlevel
      else s.waterlevel + s.residualCapacity / total ValCount.expectedCount above := by
  have hlower := Window.lower_eq h
  have hupper := Window.upper_eq h
  have hsize := Window.length_sub_lower h
  have hrest : s.sortedDemands.drop s.lowerLimit.toNat = above := by
    rw [Window.array h, hlower, Int.toNat_natCast, List.drop_left, List.nil_append]
  rw [List.nil_append] at hsize
  have hmax : max s.lowerLimit s.upperLimit = s.lowerLimit := by
    rw [List.length_nil] at hupper
    omega
  have hiff : s.lowerLimit < s.sortedDemands.length ↔ ¬ above = [] := by
    rw [← List.length_eq_zero_iff]
    omega
  simp only [divideRemainder, hmax, hrest, sumCounts_eq, hiff, ite_not]

end Division

section Agreement

variable {part : StdPartition ValCount} {capacity : ℚ} {demands : List ValCount}

theorem solvePartialSort_isLevel (hcapacity : 0 ≤ capacity) (hproper : Proper demands)
    (hne : demands ≠ []) (hexact : (partialSortStart capacity 0 demands).AlwaysExact part) :
    IsLevel ValCount.val ValCount.expectedCount capacity demands
      (solvePartialSort part capacity 0 demands) := by
  obtain ⟨below, above, hinv⟩ := runInv_loop (hproper.filling hcapacity) hexact
  have hempty : (partialSortStart capacity 0 demands).sortedDemands.isEmpty = false := by
    simpa [partialSortStart] using hne
  have hfilling := hinv.filling
  rw [List.nil_append] at hfilling
  rw [solvePartialSort, PartialSortAllocator.computeWaterlevel, hempty,
    if_neg Bool.false_ne_true, hinv.limits.divideRemainder_eq]
  split_ifs with hnone
  · subst hnone
    exact hfilling.finish
  · exact hfilling.stuck hnone hinv.short

/-- Both methods agree if every iteration of the partial sort starts in an exact state. -/
theorem partialSort_eq_fullSort (sort : StdSort) (part : StdPartition ValCount)
    (capacity : ℚ) (hcapacity : 0 ≤ capacity) (demands : List ValCount)
    (hdemands : ∀ d ∈ demands, 0 ≤ d.val ∧ 0 < d.expectedCount)
    (hexact : (partialSortStart capacity 0 demands).AlwaysExact part) :
    computeWaterlevel sort part ⟨.kPartialSort, false⟩ capacity demands =
      computeWaterlevel sort part ⟨.kFullSort, false⟩ capacity demands := by
  have hsolve : computeWaterlevel sort part ⟨.kPartialSort, false⟩ capacity demands =
      solvePartialSort part capacity 0 demands := by
    rw [computeWaterlevel, filterTiny_off hdemands]
  rw [hsolve]
  rcases eq_or_ne demands [] with rfl | hne
  · rw [computeWaterlevel, filterTiny_off hdemands]
    exact (solveFullSort_nil sort _ _).symm
  · exact (solvePartialSort_isLevel hcapacity hdemands hne hexact).unique
      (fun d hd => (hdemands d hd).2) hne
      (computeWaterlevel_off_isLevel sort part hcapacity hdemands)

/--
Three demands share a capacity of 6: the first iteration gives the largest up, the second
settles the smallest, and the third asks for too much but could not settle the other either.
-/
theorem partialSort_eq_fullSort_three :
    computeWaterlevel .stable .stable ⟨.kPartialSort, false⟩ 6 [⟨1, 1⟩, ⟨4, 1⟩, ⟨10, 1⟩] =
        computeWaterlevel .stable .stable ⟨.kFullSort, false⟩ 6 [⟨1, 1⟩, ⟨4, 1⟩, ⟨10, 1⟩] ∧
      computeWaterlevel .stable .stable ⟨.kPartialSort, false⟩ 6 [⟨1, 1⟩, ⟨4, 1⟩, ⟨10, 1⟩] =
        5 / 2 := by
  have hdemands : ∀ d ∈ [(⟨1, 1⟩ : ValCount), ⟨4, 1⟩, ⟨10, 1⟩],
      0 ≤ d.val ∧ 0 < d.expectedCount := by
    norm_num
  refine ⟨partialSort_eq_fullSort .stable .stable 6 (by norm_num) _ hdemands ?_,
    by decide +kernel⟩
  -- one state after the other, each with at most three demands in its area
  refine fun _ => ⟨⟨NthElement.lands_of_length_le (by decide +kernel) _, by decide +kernel,
    by decide +kernel⟩, fun _ => ⟨⟨NthElement.lands_of_length_le (by decide +kernel) _,
    by decide +kernel, by decide +kernel⟩, fun _ => ⟨⟨NthElement.lands_of_length_le
    (by decide +kernel) _, by decide +kernel, by decide +kernel⟩, trivial⟩⟩⟩

/--
Three demands of 2 have got 1 each, which is taken off their ask only once.  Among five
single demands, the span for B has one that is already counted as above it.
-/
theorem partialSort_differs :
    (computeWaterlevel .stable .stable ⟨.kPartialSort, false⟩ 8 [⟨1, 1⟩, ⟨2, 3⟩] = 7 / 3 ∧
      computeWaterlevel .stable .stable ⟨.kFullSort, false⟩ 8 [⟨1, 1⟩, ⟨2, 3⟩] = 2) ∧
    (computeWaterlevel .stable .stable ⟨.kPartialSort, false⟩ 10
        [⟨1, 1⟩, ⟨2, 1⟩, ⟨3, 1⟩, ⟨4, 1⟩, ⟨5, 1⟩] = 2 ∧
      computeWaterlevel .stable .stable ⟨.kFullSort, false⟩ 10
        [⟨1, 1⟩, ⟨2, 1⟩, ⟨3, 1⟩, ⟨4, 1⟩, ⟨5, 1⟩] = 7 / 3) := by
  decide +kernel

end Agreement

end MaxMinFairnessDist
end HeypAgents
