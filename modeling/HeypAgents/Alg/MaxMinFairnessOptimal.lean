import Mathlib.Data.List.Induction
import HeypAgents.Lib.ListWindow
import HeypAgents.Alg.MaxMinFairness

/-!
# Max-min fairness of the computed waterlevel

Both solvers are water fillings.  Sorting settles one demand at a time; the
partial sort settles the lower part of its area of interest or discards the upper
part, which needs every call of `NthElement` to find its position.  The tiny-flow
filter is a filling as well, so it changes nothing.
-/

namespace HeypAgents
namespace MaxMinFairness

open WaterFilling
open ListWindow
open HybridQsort (StdPartition)

theorem fullSortLoop_isWaterlevel {capacity level residual : ℤ} {D settled pending : List ℤ}
    (h : Filling capacity D settled pending level residual) (hsorted : pending.Pairwise (· ≤ ·)) :
    IsWaterlevel capacity D (fullSortLoop residual level pending) := by
  induction pending generalizing settled level residual with
  | nil => exact h.finish
  | cons d rest ih =>
    obtain ⟨hle, hrest⟩ := List.pairwise_cons.mp hsorted
    have hask : (d - level) * ((d :: rest).length : ℤ) =
        [d].sum - [d].length * level + (d - level) * rest.length := by
      simp only [List.length_cons, List.sum_cons, List.sum_nil, List.length_nil]
      push_cast
      ring
    have hiff := h.ask_le_iff (A := [d]) (.refl _) (by simp) (by simp) hle
    rw [← hask] at hiff
    simp only [fullSortLoop]
    split_ifs with hfits
    · have hnext := h.settle (A := [d]) (.refl _) (by simp) (by simp) hle (by rwa [← hask])
      rw [← hask] at hnext
      rw [add_sub_cancel]
      exact ih hnext hrest
    · rw [Int.tdiv_eq_ediv_of_nonneg h.residual_nonneg]
      refine h.stuck (by simp) fun p hp => ?_
      have hover := lt_of_not_ge (mt hiff.mpr hfits)
      rcases List.mem_cons.mp hp with rfl | hp
      · exact hover
      · exact hover.trans_le (served_mono D (hle p hp))

theorem solveFullSort_isWaterlevel {capacity level residual : ℤ} {D settled pending : List ℤ}
    (h : Filling capacity D settled pending level residual) :
    IsWaterlevel capacity D (solveFullSort residual level pending) := by
  have hperm := List.mergeSort_perm pending fun a b => decide (a ≤ b)
  have hsorted : (pending.mergeSort fun a b => decide (a ≤ b)).Pairwise (· ≤ ·) := by
    have htrans : ∀ a b c : ℤ, decide (a ≤ b) → decide (b ≤ c) → decide (a ≤ c) := by
      simpa using fun a b c => le_trans
    have htotal : ∀ a b : ℤ, (decide (a ≤ b) || decide (b ≤ a)) = true := by
      simpa using le_total
    simpa using List.pairwise_mergeSort htrans htotal pending
  exact fullSortLoop_isWaterlevel (h.reorder hperm) hsorted

variable {as bs : List ℤ} {v : ℤ}

section PartialSort

variable {part : StdPartition ℤ} {capacity : ℤ} {D tiny below area above : List ℤ}
  {s : PartialSortAllocator}

open PartialSortAllocator

/-- The array cut at the limits. -/
structure Limits (s : PartialSortAllocator) (below area above : List ℤ) : Prop where
  demands : s.sortedDemands = below ++ (area ++ above)
  lower : s.lowerLimit = below.length
  upper : s.upperLimit + 1 = below.length + area.length

/--
The invariant of the class comment: demands below the area are satisfied, demands
above it cannot be, and the residual capacity is what the level leaves.
-/
structure AllocInv (capacity : ℤ) (D tiny : List ℤ) (s : PartialSortAllocator)
    (below area above : List ℤ) : Prop where
  limits : Limits s below area above
  filling : Filling capacity D (tiny ++ below) (area ++ above) s.waterlevel s.residualCapacity
  ordered : ∀ x ∈ area, ∀ y ∈ above, x ≤ y
  unreached : ∀ y ∈ above, capacity < served D y

theorem Limits.window (h : Limits s below area above) :
    Window s.sortedDemands s.lowerLimit s.upperLimit below area above :=
  ⟨h.demands, h.lower, h.upper⟩

theorem Limits.of_window (h : Window s.sortedDemands s.lowerLimit s.upperLimit below area above) :
    Limits s below area above :=
  ⟨h.array, h.lower_eq, h.upper_eq⟩

theorem Limits.area_eq (h : Limits s below area above) : s.area = area := h.window.area_eq

theorem Limits.partitioned_eq (h : Limits s below area above) :
    s.partitioned part = below ++
      (NthElement.nthElement (WeakOrder.ofLinearOrder ℤ) part area s.areaIdx ++ above) := by
  rw [partitioned, h.window.drop_upper, h.area_eq, h.window.take_lower]

theorem Limits.areaIdx_lt (h : Limits s below area above) (hcond : loopCond s = true) :
    s.areaIdx < area.length ∧ s.partitionIdx = below.length + s.areaIdx :=
  h.window.mid_lt (of_decide_eq_true hcond)

theorem Limits.partitionIdx_succ {as : List ℤ} (v : ℤ) (h : Limits s below area above)
    (hcond : loopCond s = true) (has : as.length = s.areaIdx) :
    s.partitionIdx + 1 = below.length + (as ++ [v]).length := by
  obtain ⟨-, hidx⟩ := h.areaIdx_lt hcond
  rw [List.length_append, List.length_singleton]
  omega

theorem Limits.at_exit (h : Limits s below area above) (hexit : loopCond s = false) :
    area = [] ∧ max s.lowerLimit s.upperLimit = s.lowerLimit ∧
      (s.sortedDemands.length : ℤ) - s.lowerLimit = above.length := by
  have hlt : s.upperLimit < s.lowerLimit := not_le.mp (of_decide_eq_false hexit)
  obtain rfl := h.window.eq_nil hlt
  exact ⟨rfl, max_eq_left hlt.le, h.window.length_sub_lower⟩

theorem askOfA_concat (waterlevel v : ℤ) (A : List ℤ) :
    askOfA waterlevel (A ++ [v]) = ((A ++ [v]).sum - (A ++ [v]).length * waterlevel, v) := by
  have hsum : ∀ (B : List ℤ) (acc : ℤ × ℤ),
      (B.foldl (fun (acc : ℤ × ℤ) d => (acc.1 + (d - waterlevel), d)) acc).1 =
        acc.1 + (B.sum - B.length * waterlevel) := by
    intro B
    induction B with
    | nil => simp
    | cons b B ih =>
      intro acc
      rw [List.foldl_cons, ih]
      simp only [List.sum_cons, List.length_cons]
      push_cast
      ring
  refine Prod.ext ?_ ?_
  · rw [askOfA, hsum]
    simp
  · simp [askOfA, List.foldl_append]

def askFor (level : ℤ) (A : List ℤ) (v : ℤ) (rest : List ℤ) : ℤ :=
  A.sum - A.length * level + (v - level) * rest.length

theorem Limits.cut_eq (h : Limits s below area above) (hcond : loopCond s = true)
    (hsplit : NthElement.nthElement (WeakOrder.ofLinearOrder ℤ) part area s.areaIdx = as ++ v :: bs)
    (has : as.length = s.areaIdx) :
    s.partitioned part = below ++ (as ++ [v]) ++ (bs ++ above) ∧
      ((below ++ (as ++ [v]) ++ (bs ++ above)).take (s.partitionIdx + 1).toNat).drop
        s.lowerLimit.toNat = as ++ [v] ∧
      ((below ++ (as ++ [v]) ++ (bs ++ above)).length : ℤ) - s.partitionIdx - 1 =
        (bs ++ above).length := by
  have hpoint := h.partitionIdx_succ v hcond has
  refine ⟨?_, h.window.lowerPart hpoint, ?_⟩
  · rw [h.partitioned_eq, hsplit]
    simp
  · rw [List.length_append, List.length_append]
    omega

theorem Limits.loopBody_eq (h : Limits s below area above) (hcond : loopCond s = true)
    (hsplit : NthElement.nthElement (WeakOrder.ofLinearOrder ℤ) part area s.areaIdx = as ++ v :: bs)
    (has : as.length = s.areaIdx) :
    loopBody part s =
      if askFor s.waterlevel (as ++ [v]) v (bs ++ above) ≤ s.residualCapacity then
        { sortedDemands := below ++ (as ++ [v]) ++ (bs ++ above)
          waterlevel := v
          residualCapacity := s.residualCapacity - askFor s.waterlevel (as ++ [v]) v (bs ++ above)
          lowerLimit := s.partitionIdx + 1
          upperLimit := s.upperLimit }
      else if s.lowerLimit = s.upperLimit then
        { s with
          sortedDemands := below ++ (as ++ [v]) ++ (bs ++ above)
          upperLimit := s.lowerLimit - 1 }
      else
        { s with
          sortedDemands := below ++ (as ++ [v]) ++ (bs ++ above)
          upperLimit := s.partitionIdx } := by
  obtain ⟨hsorted, hA, hrest⟩ := h.cut_eq hcond hsplit has
  simp only [loopBody, hsorted, hA, askOfA_concat, hrest]
  rfl

theorem Limits.exists_split (part : StdPartition ℤ)
    (h : Limits s below area above) (hcond : loopCond s = true) :
    ∃ as v bs,
      NthElement.nthElement (WeakOrder.ofLinearOrder ℤ) part area s.areaIdx = as ++ v :: bs ∧
        as.length = s.areaIdx ∧ (as ++ v :: bs).Perm area := by
  have hperm := NthElement.nthElement_perm (WeakOrder.ofLinearOrder ℤ) part area s.areaIdx
  obtain ⟨hlt, -⟩ := h.areaIdx_lt hcond
  rw [← hperm.length_eq] at hlt
  obtain ⟨as, v, bs, hsplit, has⟩ := exists_split_at hlt
  exact ⟨as, v, bs, hsplit, has, hsplit ▸ hperm⟩

/--
What an iteration does to the books, whatever element `NthElement` leaves at the
partition point: the lower part is settled, or the area loses its upper part.
-/
theorem Limits.loopBody_cases (part : StdPartition ℤ)
    (h : Limits s below area above) (hcond : loopCond s = true) :
    (∃ A v B, (A ++ B).Perm area ∧ v ∈ A ∧
      Limits (loopBody part s) (below ++ A) B above ∧
      askFor s.waterlevel A v (B ++ above) ≤ s.residualCapacity ∧
      (loopBody part s).waterlevel = v ∧
      (loopBody part s).residualCapacity =
        s.residualCapacity - askFor s.waterlevel A v (B ++ above) ∧
      (loopBody part s).upperLimit = s.upperLimit) ∨
    (∃ area' above', (area' ++ above').Perm (area ++ above) ∧
      Limits (loopBody part s) below area' above' ∧
      (loopBody part s).waterlevel = s.waterlevel ∧
      (loopBody part s).residualCapacity = s.residualCapacity ∧
      (loopBody part s).upperLimit ≤ s.upperLimit) := by
  obtain ⟨as, v, bs, hsplit, has, hperm⟩ := h.exists_split part hcond
  have hpoint := h.partitionIdx_succ v hcond has
  have hAB : ((as ++ [v]) ++ bs).Perm area := by simpa using hperm
  have hrest : ((as ++ [v]) ++ (bs ++ above)).Perm (area ++ above) := by
    simpa using hperm.append_right above
  rw [h.loopBody_eq hcond hsplit has]
  split_ifs with hfits hsingle
  · exact .inl ⟨as ++ [v], v, bs, hAB, by simp, .of_window (h.window.behind hAB.length_eq hpoint),
      hfits, rfl, rfl, rfl⟩
  · refine .inr ⟨[], (as ++ [v]) ++ (bs ++ above), hrest, .of_window h.window.closed, rfl, rfl, ?_⟩
    dsimp only
    omega
  · refine .inr ⟨as ++ [v], bs ++ above, hrest, .of_window (h.window.ahead hpoint), rfl, rfl, ?_⟩
    have hlen := hAB.length_eq
    have hupper := h.upper
    rw [List.length_append] at hlen
    dsimp only
    omega

theorem AllocInv.loopBody (h : AllocInv capacity D tiny s below area above)
    (hcond : loopCond s = true)
    (hlands : NthElement.Lands (WeakOrder.ofLinearOrder ℤ) part s.area s.areaIdx) :
    ∃ below' area' above', AllocInv capacity D tiny (loopBody part s) below' area' above' := by
  obtain ⟨hlt, -⟩ := h.limits.areaIdx_lt hcond
  rw [h.limits.area_eq] at hlands
  obtain ⟨as, v, bs, hsplit, has, hle, hge⟩ := NthElement.nthElement_selected hlt hlands
  simp only [WeakOrder.ofLinearOrder_le] at hle hge
  have hperm : (as ++ v :: bs).Perm area := hsplit ▸ NthElement.nthElement_perm _ part area s.areaIdx
  have hcut : ((as ++ [v]) ++ bs).Perm area := by simpa using hperm
  have hpoint := h.limits.partitionIdx_succ v hcond has
  have hAB : ((as ++ [v]) ++ (bs ++ above)).Perm (area ++ above) := by
    simpa using hperm.append_right above
  have hA : ∀ a ∈ as ++ [v], a ≤ v := by
    intro a ha
    rcases List.mem_append.mp ha with ha | ha
    · exact hle a ha
    · exact (List.mem_singleton.mp ha).le
  have hB : ∀ b ∈ bs ++ above, v ≤ b := by
    intro b hb
    rcases List.mem_append.mp hb with hb | hb
    · exact hge b hb
    · exact h.ordered v (hperm.mem_iff.mp (by simp)) b hb
  have hv : v ∈ as ++ [v] := by simp
  have hiff := h.filling.ask_le_iff hAB hv hA hB
  rw [h.limits.loopBody_eq hcond hsplit has]
  split_ifs with hfits hsingle
  · refine ⟨below ++ (as ++ [v]), bs, above,
      .of_window (h.limits.window.behind hcut.length_eq hpoint), ?_, ?_, h.unreached⟩
    · rw [← List.append_assoc]
      exact h.filling.settle hAB hv hA hB hfits
    · exact fun x hx y hy => h.ordered x (hperm.mem_iff.mp (by simp [hx])) y hy
  · have hover : capacity < served D v := lt_of_not_ge (mt hiff.mpr hfits)
    obtain rfl : as = [] := by
      have hlower := h.limits.lower
      have hupper := h.limits.upper
      rw [← List.length_eq_zero_iff]
      omega
    refine ⟨below, [], ([] ++ [v]) ++ (bs ++ above), .of_window h.limits.window.closed,
      h.filling.reorder hAB, by simp, ?_⟩
    intro y hy
    rcases List.mem_append.mp hy with hy | hy
    · rw [List.mem_singleton.mp hy]
      exact hover
    · exact hover.trans_le (served_mono D (hB y hy))
  · have hover : capacity < served D v := lt_of_not_ge (mt hiff.mpr hfits)
    refine ⟨below, as ++ [v], bs ++ above, .of_window (h.limits.window.ahead hpoint),
      h.filling.reorder hAB, ?_, ?_⟩
    · exact fun x hx y hy => (hA x hx).trans (hB y hy)
    · exact fun y hy => hover.trans_le (served_mono D (hB y hy))

theorem width_loopBody_lt (hcond : loopCond s = true) : (loopBody part s).width < s.width := by
  have hle : s.lowerLimit ≤ s.upperLimit := by simpa [loopCond] using hcond
  unfold loopBody
  dsimp only
  split_ifs <;> simp only [width, partitionIdx] <;> omega

theorem sortedDemands_length_loopBody (hcond : loopCond s = true) :
    (loopBody part s).sortedDemands.length = s.sortedDemands.length := by
  have hle : s.lowerLimit ≤ s.upperLimit := by simpa [loopCond] using hcond
  have hpart : (s.partitioned part).length = s.sortedDemands.length :=
    length_replace hle (NthElement.nthElement_perm _ part s.area s.areaIdx).length_eq
  unfold loopBody
  dsimp only
  split_ifs <;> exact hpart

theorem AllocInv.divideRemainder_isWaterlevel (h : AllocInv capacity D tiny s below area above)
    (hexit : loopCond s = false) : IsWaterlevel capacity D s.divideRemainder := by
  obtain ⟨rfl, hmax, hsize⟩ := h.limits.at_exit hexit
  have hfilling := h.filling
  rw [List.nil_append] at hfilling
  simp only [divideRemainder, hmax]
  rw [hsize]
  split_ifs with hrest
  · rw [Int.tdiv_eq_ediv_of_nonneg hfilling.residual_nonneg]
    refine hfilling.stuck ?_ h.unreached
    rw [← List.length_pos_iff]
    omega
  · obtain rfl : above = [] := by
      rw [← List.length_eq_zero_iff]
      omega
    exact hfilling.finish

theorem solvePartialSort_isWaterlevel {level residual : ℤ} {pending : List ℤ}
    (h : Filling capacity D tiny pending level residual)
    (hlands : (partialSortStart residual level pending).Lands part) :
    IsWaterlevel capacity D (solvePartialSort part residual level pending) := by
  unfold solvePartialSort PartialSortAllocator.computeWaterlevel
  split_ifs with hempty
  · obtain rfl : pending = [] := by simpa [partialSortStart] using hempty
    exact h.finish
  · have hstart : AllocInv capacity D tiny (partialSortStart residual level pending)
        [] pending [] :=
      ⟨⟨by simp [partialSortStart], rfl, by simp [partialSortStart]⟩,
        by simpa [partialSortStart] using h, by simp, by simp⟩
    obtain ⟨⟨below, area, above, hinv⟩, hexit⟩ := While.loop_spec
      (I := fun s => ∃ below area above, AllocInv capacity D tiny s below area above)
      (m := width) loopCond (loopBody part)
      (fun s ⟨_, _, _, hs⟩ hcond hC => hs.loopBody hcond hC)
      (fun s _ hcond => width_loopBody_lt hcond)
      le_rfl hlands ⟨_, _, _, hstart⟩
    exact hinv.divideRemainder_isWaterlevel hexit

end PartialSort

section TinyFilter

variable {thresh capacity : ℤ}

structure Filtered (thresh capacity : ℤ) (demands tiny : List ℤ) (f : TinyFilter) : Prop where
  perm : (tiny ++ f.unfiltered).Perm demands
  tiny_le : ∀ d ∈ tiny, d ≤ thresh
  unfiltered_gt : ∀ d ∈ f.unfiltered, thresh < d
  tiny_level : ∀ d ∈ tiny, d ≤ f.waterlevel
  level_mem : f.waterlevel = 0 ∨ f.waterlevel ∈ tiny
  level_nonneg : 0 ≤ f.waterlevel
  capacity : f.capacity + tiny.sum = capacity

variable {f : TinyFilter}

theorem Filtered.step {demands tiny : List ℤ}
    (h : Filtered thresh capacity demands tiny f) (d : ℤ) :
    ∃ tiny', Filtered thresh capacity (demands ++ [d]) tiny' (f.step thresh d) := by
  unfold TinyFilter.step
  split_ifs with htiny
  · refine ⟨tiny ++ [d], ?_, ?_, h.unfiltered_gt, ?_, ?_, ?_, ?_⟩
    · refine List.Perm.trans ?_ (h.perm.append_right [d])
      simpa using (List.perm_append_comm :
        ([d] ++ f.unfiltered).Perm (f.unfiltered ++ [d])).append_left tiny
    · intro e he
      rcases List.mem_append.mp he with he | he
      · exact h.tiny_le e he
      · rwa [List.mem_singleton.mp he]
    · intro e he
      rcases List.mem_append.mp he with he | he
      · exact (h.tiny_level e he).trans (le_max_left _ _)
      · rw [List.mem_singleton.mp he]
        exact le_max_right _ _
    · rcases max_choice f.waterlevel d with hmax | hmax
      · rw [hmax]
        exact h.level_mem.imp_right (List.mem_append_left _)
      · exact .inr (by rw [hmax]; simp)
    · exact h.level_nonneg.trans (le_max_left _ _)
    · have := h.capacity
      simp only [List.sum_append, List.sum_singleton]
      omega
  · refine ⟨tiny, ?_, h.tiny_le, ?_, h.tiny_level, h.level_mem, h.level_nonneg, h.capacity⟩
    · rw [← List.append_assoc]
      exact h.perm.append_right [d]
    · intro e he
      rcases List.mem_append.mp he with he | he
      · exact h.unfiltered_gt e he
      · rw [List.mem_singleton.mp he]
        omega

theorem filtered_foldl (thresh capacity : ℤ) (demands : List ℤ) :
    ∃ tiny, Filtered thresh capacity demands tiny
      (demands.foldl (TinyFilter.step thresh)
        { unfiltered := [], capacity := capacity, waterlevel := 0 }) := by
  induction demands using List.reverseRecOn with
  | nil => exact ⟨[], by simp, by simp, by simp, by simp, .inl rfl, le_rfl, by simp⟩
  | append_singleton demands d ih =>
    obtain ⟨tiny, h⟩ := ih
    rw [List.foldl_append]
    exact h.step d

theorem Filtered.residual_nonneg {demands tiny : List ℤ}
    (h : Filtered thresh capacity demands tiny f)
    (hthresh : 0 ≤ thresh) (hfits : demands.length * thresh ≤ capacity) :
    f.waterlevel ≤ thresh ∧ 0 ≤ f.capacity - f.waterlevel * f.unfiltered.length := by
  have hle : f.waterlevel ≤ thresh := by
    rcases h.level_mem with hzero | hmem
    · omega
    · exact h.tiny_le _ hmem
  refine ⟨hle, ?_⟩
  have hsum : tiny.sum ≤ tiny.length * thresh := by
    rw [← served_of_le h.tiny_le]
    exact served_le_length_mul tiny thresh
  have hlen : (demands.length : ℤ) = tiny.length + f.unfiltered.length := by
    rw [← h.perm.length_eq]
    simp
  have hcharge : f.waterlevel * f.unfiltered.length ≤ thresh * f.unfiltered.length :=
    mul_le_mul_of_nonneg_right hle (by positivity)
  have hcapacity := h.capacity
  rw [hlen] at hfits
  linarith

theorem Filtered.filling {demands tiny : List ℤ}
    (h : Filtered thresh capacity demands tiny f) (hd : ∀ d ∈ demands, 0 ≤ d) (hcap : 0 ≤ capacity)
    (hthresh : 0 ≤ thresh ∧ demands.length * thresh ≤ capacity ∨ thresh = -1) :
    Filling capacity demands tiny f.unfiltered f.waterlevel
      (f.capacity - f.waterlevel * f.unfiltered.length) := by
  have htiny : ∀ d ∈ tiny, 0 ≤ d := fun d hmem =>
    hd d (h.perm.mem_iff.mp (List.mem_append_left _ hmem))
  have hlevel : (tiny = [] ∧ f.waterlevel = 0) ∨ f.waterlevel ∈ tiny := by
    rcases h.level_mem with hzero | hmem
    · cases tiny with
      | nil => exact .inl ⟨rfl, hzero⟩
      | cons d rest =>
        have h₁ := htiny d (by simp)
        have h₂ := h.tiny_level d (by simp)
        obtain hd0 : f.waterlevel = d := by omega
        exact .inr (by simp [hd0])
    · exact .inr hmem
  have hcapacity := h.capacity
  rcases hthresh with ⟨hnonneg, hfits⟩ | rfl
  · obtain ⟨hle, hres⟩ := h.residual_nonneg hnonneg hfits
    refine ⟨h.perm, h.tiny_level, fun d hmem => ?_, hlevel, h.level_nonneg, by linarith, hres⟩
    exact hle.trans (h.unfiltered_gt d hmem).le
  · obtain rfl : tiny = [] := by
      refine List.eq_nil_iff_forall_not_mem.mpr fun d hmem => ?_
      have := htiny d hmem
      have := h.tiny_le d hmem
      omega
    obtain hzero : f.waterlevel = 0 := by simpa using hlevel
    refine ⟨h.perm, h.tiny_level, fun d hmem => ?_, hlevel, h.level_nonneg, by linarith, ?_⟩
    · rw [hzero]
      exact hd d (h.perm.mem_iff.mp hmem)
    · simp only [List.sum_nil, add_zero] at hcapacity
      rw [hzero, zero_mul, hcapacity]
      omega

theorem tinyDemandThresh_fits
    (options : Options) {capacity : ℤ} (hcap : 0 ≤ capacity) (demands : List ℤ) :
    0 ≤ tinyDemandThresh options capacity demands ∧
        demands.length * tinyDemandThresh options capacity demands ≤ capacity ∨
      tinyDemandThresh options capacity demands = -1 := by
  unfold tinyDemandThresh
  split_ifs
  · left
    rw [Int.tdiv_eq_ediv_of_nonneg hcap]
    have hpos : (0 : ℤ) < max (demands.length : ℤ) 1 := by omega
    have hnonneg : 0 ≤ capacity / max (demands.length : ℤ) 1 := Int.ediv_nonneg hcap hpos.le
    refine ⟨hnonneg, ?_⟩
    calc (demands.length : ℤ) * (capacity / max (demands.length : ℤ) 1)
        ≤ max (demands.length : ℤ) 1 * (capacity / max (demands.length : ℤ) 1) :=
          mul_le_mul_of_nonneg_right (le_max_left _ _) hnonneg
      _ ≤ capacity := Int.mul_ediv_self_le hpos.ne'
  · exact .inr rfl

theorem filterTiny_filling (options : Options) {capacity : ℤ} {demands : List ℤ}
    (hcap : 0 ≤ capacity) (hd : ∀ d ∈ demands, 0 ≤ d) :
    ∃ tiny, Filling capacity demands tiny (filterTiny options capacity demands).unfiltered
      (filterTiny options capacity demands).waterlevel
      (filterTiny options capacity demands).capacity := by
  obtain ⟨tiny, h⟩ := filtered_foldl (tinyDemandThresh options capacity demands) capacity demands
  exact ⟨tiny, h.filling hd hcap (tinyDemandThresh_fits options hcap demands)⟩

theorem filterTiny_off
    (capacity : ℤ) {demands : List ℤ} (hd : ∀ d ∈ demands, 0 ≤ d) (method : SolveMethod) :
    filterTiny { solveMethod := method, enableTinyFlowOpt := false } capacity demands =
      { unfiltered := demands, capacity := capacity, waterlevel := 0 } := by
  have hfold : ∀ (ds acc : List ℤ), (∀ d ∈ ds, 0 ≤ d) →
      ds.foldl (TinyFilter.step (-1)) { unfiltered := acc, capacity := capacity, waterlevel := 0 } =
        { unfiltered := acc ++ ds, capacity := capacity, waterlevel := 0 } := by
    intro ds
    induction ds with
    | nil => simp
    | cons d ds ih =>
      intro acc hds
      have hpos : ¬ d ≤ -1 := by
        have := hds d (by simp)
        omega
      rw [List.foldl_cons, TinyFilter.step, if_neg hpos,
        ih _ fun e he => hds e (List.mem_cons_of_mem d he)]
      simp
  simp [filterTiny, tinyDemandThresh, hfold demands [] hd]

end TinyFilter

section Optimal

variable (part : StdPartition ℤ)

/-- Under `kPartialSort` every call of `NthElement` finds its position. -/
def CallsLand (options : Options) (capacity : ℤ) (demands : List ℤ) : Prop :=
  options.solveMethod = .kPartialSort →
    (partialSortStart (filterTiny options capacity demands).capacity
      (filterTiny options capacity demands).waterlevel
      (filterTiny options capacity demands).unfiltered).Lands part

variable {part} {options : Options} {capacity : ℤ} {demands : List ℤ}

theorem computeWaterlevel_isWaterlevel (hcap : 0 ≤ capacity) (hd : ∀ d ∈ demands, 0 ≤ d)
    (hlands : CallsLand part options capacity demands) :
    IsWaterlevel capacity demands (computeWaterlevel part options capacity demands) := by
  obtain ⟨tiny, h⟩ := filterTiny_filling options hcap hd
  unfold computeWaterlevel
  cases hmethod : options.solveMethod with
  | kFullSort => exact solveFullSort_isWaterlevel h
  | kPartialSort => exact solvePartialSort_isWaterlevel h (hlands hmethod)

theorem callsLand_of_unfiltered_length_le
    (hlen : (filterTiny options capacity demands).unfiltered.length ≤ HybridQsort.kScratchSize) :
    CallsLand part options capacity demands := by
  intro _
  refine While.always_of_invariant
    (I := fun s => s.sortedDemands.length ≤ HybridQsort.kScratchSize) ?_ ?_ _ hlen
  · intro s hs hcond
    rw [sortedDemands_length_loopBody hcond]
    exact hs
  · intro s hs _
    refine NthElement.lands_of_length_le ?_ _
    rw [PartialSortAllocator.area, List.length_drop, List.length_take]
    omega

theorem callsLand_of_length_le
    (options : Options) (hlen : demands.length ≤ HybridQsort.kScratchSize) :
    CallsLand part options capacity demands := by
  obtain ⟨tiny, h⟩ := filtered_foldl (tinyDemandThresh options capacity demands) capacity demands
  have hunfiltered : (filterTiny options capacity demands).unfiltered.length ≤ demands.length := by
    rw [← h.perm.length_eq, List.length_append]
    exact Nat.le_add_left _ _
  exact callsLand_of_unfiltered_length_le (hunfiltered.trans hlen)

/--
If the calls of `NthElement` find their positions, the waterlevel is the fair one and does
not depend on the options.
-/
theorem computeWaterlevel_maxMinFair (hcap : 0 ≤ capacity) (hd : ∀ d ∈ demands, 0 ≤ d)
    (hlands : CallsLand part options capacity demands) :
    IsWaterlevel capacity demands (computeWaterlevel part options capacity demands) ∧
      ∀ options', CallsLand part options' capacity demands →
        computeWaterlevel part options' capacity demands =
          computeWaterlevel part options capacity demands := by
  have hfair := computeWaterlevel_isWaterlevel hcap hd hlands
  exact ⟨hfair, fun options' hlands' =>
    (computeWaterlevel_isWaterlevel hcap hd hlands').unique hfair⟩

/-- Three demands that share a capacity of five. -/
theorem computeWaterlevel_maxMinFair_three :
    IsWaterlevel 5 [3, 1, 2] (computeWaterlevel StdPartition.stable {} 5 [3, 1, 2]) ∧
      ∀ options', CallsLand StdPartition.stable options' 5 [3, 1, 2] →
        computeWaterlevel StdPartition.stable options' 5 [3, 1, 2] =
          computeWaterlevel StdPartition.stable {} 5 [3, 1, 2] :=
  computeWaterlevel_maxMinFair (by decide) (by decide) (callsLand_of_length_le _ (by decide))

end Optimal

section Missed

open PartialSortAllocator

variable {part : StdPartition ℤ}

/-- 256 demands of `v`. -/
def block (v : ℤ) : List ℤ := List.replicate 256 v

@[simp] theorem block_length (v : ℤ) : (block v).length = 256 := List.length_replicate

@[simp] theorem block_sum (v : ℤ) : (block v).sum = 256 * v := by
  rw [block, List.sum_replicate, nsmul_eq_mul, Nat.cast_ofNat]

def missedDemands : List ℤ := block 0 ++ (block 1 ++ [2])

theorem missedDemands_length : missedDemands.length = 513 := by
  simp [missedDemands]

/--
A partition of 513 demands that ends at position 256: the search goes on among the
equal demands below it, and what the partition left at position 256 stays there.
-/
theorem nthElement_of_split {xs above : List ℤ} {pivot x v : ℤ} (hlen : xs.length = 513)
    (hmedian : HybridQsort.medianOfThree (WeakOrder.ofLinearOrder ℤ) xs = some pivot)
    (hsplit : HybridQsort.hoareLomutoHybridPartition (WeakOrder.ofLinearOrder ℤ) pivot xs =
      (block x ++ v :: above, 256)) :
    NthElement.nthElement (WeakOrder.ofLinearOrder ℤ) part xs 256 = block x ++ v :: above := by
  have hpivot : HybridQsort.choosePivotAndPartition (WeakOrder.ofLinearOrder ℤ) part xs =
      some ⟨block x ++ v :: above, 256, 256⟩ := by
    simp [HybridQsort.choosePivotAndPartition, hmedian, hsplit, hlen]
  have hstart : NthElement.loopStart xs = { xs := xs, first := 0, last := 513 } := by
    simp [NthElement.loopStart, hlen]
  have hall : NthElement.Segments { xs := xs, first := 0, last := 513 } [] xs [] :=
    ⟨by simp, rfl, by simp [hlen]⟩
  have hfirst : NthElement.loopBody (WeakOrder.ofLinearOrder ℤ) part 256
      { xs := xs, first := 0, last := 513 } =
      { xs := block x ++ v :: above, first := 0, last := 256 } := by
    simp [NthElement.loopBody, hall.range_eq, hall.setRange_eq, hpivot, HybridQsort.kScratchSize]
  have hlow : NthElement.Segments
      { xs := block x ++ v :: above, first := 0, last := 256 } [] (block x) (v :: above) :=
    ⟨rfl, rfl, by simp⟩
  have hsecond : NthElement.loopBody (WeakOrder.ofLinearOrder ℤ) part 256
      { xs := block x ++ v :: above, first := 0, last := 256 } =
      { xs := block x ++ v :: above, first := 0, last := 256, returned := true } := by
    have hequal : NthElement.nthElementScratch (WeakOrder.ofLinearOrder ℤ) (block x) 256 =
        block x :=
      List.perm_replicate.mp (NthElement.nthElement_small_spec _ (block x) 256).2.1
    simp [NthElement.loopBody, hlow.range_eq, hlow.setRange_eq, hequal, HybridQsort.kScratchSize]
  rw [NthElement.nthElement, hlen, hstart, While.loop,
    if_pos (by simp [NthElement.loopCond]), hfirst,
    While.loop, if_pos (by simp [NthElement.loopCond]), hsecond,
    While.loop_of_not_cond (by simp [NthElement.loopCond])]

theorem nthElement_missedDemands :
    NthElement.nthElement (WeakOrder.ofLinearOrder ℤ) part missedDemands 256 =
      block 0 ++ 2 :: block 1 :=
  @nthElement_of_split part missedDemands (block 1) 1 0 2 missedDemands_length
    (by decide +kernel) (by decide +kernel)

/-- The demands that are left are all `v`, and do not exceed the level. -/
structure Uniform (v : ℤ) (s : PartialSortAllocator) (below area : List ℤ) : Prop where
  limits : Limits s below area []
  equal : ∀ x ∈ area, x = v
  last : area = [] → s.waterlevel = v
  level : v ≤ s.waterlevel
  residual : 0 ≤ s.residualCapacity

theorem askFor_uniform_nonpos
    {level v : ℤ} (hlevel : v ≤ level) (hequal : ∀ x ∈ as, x = v) :
    askFor level (as ++ [v]) v bs ≤ 0 := by
  have hsum : (as ++ [v]).sum = (as ++ [v]).length * v := by
    rw [List.eq_replicate_of_mem hequal]
    simp
    ring
  rw [askFor, hsum, ← mul_sub, mul_comm (v - level), ← add_mul]
  exact mul_nonpos_of_nonneg_of_nonpos (by positivity) (by omega)

theorem Uniform.loopBody {s : PartialSortAllocator} {below area : List ℤ}
    (h : Uniform v s below area) (hcond : loopCond s = true) :
    ∃ below' area', Uniform v (loopBody part s) below' area' := by
  obtain ⟨-, hidx⟩ := h.limits.areaIdx_lt hcond
  obtain ⟨as, u, bs, hsplit, has, hperm⟩ := h.limits.exists_split part hcond
  have hmem : ∀ x ∈ as ++ u :: bs, x = v := fun x hx => h.equal x (hperm.mem_iff.mp hx)
  obtain rfl : u = v := hmem u (by simp)
  have hask : askFor s.waterlevel (as ++ [u]) u (bs ++ []) ≤ 0 :=
    askFor_uniform_nonpos h.level fun x hx => hmem x (List.mem_append_left _ hx)
  have hlen := hperm.length_eq
  have hlower := h.limits.lower
  have hupper := h.limits.upper
  have hres := h.residual
  simp only [List.length_append, List.length_cons] at hlen
  rw [h.limits.loopBody_eq hcond hsplit has, if_pos (hask.trans hres)]
  refine ⟨below ++ (as ++ [u]), bs, ⟨rfl, ?_, ?_⟩, fun x hx => hmem x (by simp [hx]),
    fun _ => rfl, le_rfl, ?_⟩
  · simp only [List.length_append, List.length_singleton]
    omega
  · simp only [List.length_append, List.length_singleton]
    omega
  · show 0 ≤ s.residualCapacity - _
    omega

theorem loop_of_uniform {s : PartialSortAllocator} {below area : List ℤ} {fuel : ℕ}
    (h : Limits s below area []) (hne : area ≠ []) (harea : ∀ x ∈ area, x = v)
    (hlevel : v ≤ s.waterlevel) (hres : 0 ≤ s.residualCapacity) (hfuel : s.width ≤ fuel) :
    divideRemainder (While.loop loopCond (loopBody part) fuel s) = v := by
  obtain ⟨⟨below', area', huniform⟩, hexit⟩ := While.loop_spec (C := fun _ => True) (m := width)
    (I := fun t => ∃ below area, Uniform v t below area)
    loopCond (loopBody part)
    (fun t ⟨below, area, huniform⟩ hcond _ => huniform.loopBody hcond)
    (fun t _ hcond => width_loopBody_lt hcond)
    hfuel (While.always_of_forall (fun _ => trivial) _ _)
    ⟨below, area, h, harea, fun hnil => absurd hnil hne, hlevel, hres⟩
  have hlt : (While.loop loopCond (loopBody part) fuel s).upperLimit <
      (While.loop loopCond (loopBody part) fuel s).lowerLimit := by
    simpa [loopCond] using hexit
  have hsize := congrArg List.length huniform.limits.demands
  have hlower := huniform.limits.lower
  have hupper := huniform.limits.upper
  simp only [List.length_append, List.length_nil, add_zero] at hsize
  have hnil : area' = [] := by
    rw [← List.length_eq_zero_iff]
    omega
  rw [divideRemainder, if_neg (by omega), huniform.last hnil]

theorem computeWaterlevel_missedDemands (part : StdPartition ℤ) :
    computeWaterlevel part { enableTinyFlowOpt := false } 1000 missedDemands = 1 := by
  have hnonneg : ∀ d ∈ missedDemands, 0 ≤ d := by
    decide +kernel
  have hall : Limits (partialSortStart 1000 0 missedDemands) [] missedDemands [] :=
    ⟨by simp [partialSortStart], rfl, by simp [partialSortStart]⟩
  have hfirst : loopBody part (partialSortStart 1000 0 missedDemands) =
      { sortedDemands := block 0 ++ [2] ++ block 1, waterlevel := 2, residualCapacity := 486,
        lowerLimit := 257, upperLimit := 512 } := by
    have hidx : (partialSortStart 1000 0 missedDemands).areaIdx = 256 := by
      simp [partialSortStart, areaIdx, partitionIdx, missedDemands_length]
    rw [hall.loopBody_eq (by simp [loopCond, partialSortStart, missedDemands_length])
      (by rw [hidx]; exact nthElement_missedDemands) (by rw [hidx]; exact block_length 0)]
    simp [askFor, partialSortStart, partitionIdx, missedDemands_length]
  have hones : Limits
      { sortedDemands := block 0 ++ [2] ++ block 1, waterlevel := 2, residualCapacity := 486,
        lowerLimit := 257, upperLimit := 512 } (block 0 ++ [2]) (block 1) [] :=
    ⟨by simp, by simp, by simp⟩
  have hne : missedDemands.isEmpty = false := by
    decide +kernel
  have hwidth : (partialSortStart 1000 0 missedDemands).width = 513 := by
    simp [width, partialSortStart, missedDemands_length]
  have hcond : loopCond (partialSortStart 1000 0 missedDemands) = true := by
    simp [loopCond, partialSortStart, missedDemands_length]
  rw [computeWaterlevel, filterTiny_off 1000 hnonneg]
  simp only [solvePartialSort, PartialSortAllocator.computeWaterlevel]
  rw [if_neg (by simpa [partialSortStart] using hne), hwidth, While.loop, if_pos hcond, hfirst]
  refine loop_of_uniform hones (by simp [← List.length_pos_iff]) ?_ (by decide) (by decide)
    (by decide)
  exact fun x hx => List.eq_of_mem_replicate hx

/--
A capacity of 1000 covers the total demand of 258, so the fair level is the largest
demand, 2; the partial sort returns 1.
-/
theorem not_isWaterlevel_missedDemands :
    ¬ IsWaterlevel 1000 missedDemands
      (computeWaterlevel StdPartition.stable { enableTinyFlowOpt := false } 1000
        missedDemands) := by
  intro hfair
  have hsum : missedDemands.sum ≤ 1000 := by
    decide +kernel
  have hpeak : peak missedDemands = 2 := by
    decide +kernel
  have hlevel := hfair.satisfied hsum
  rw [computeWaterlevel_missedDemands, hpeak] at hlevel
  omega

end Missed

end MaxMinFairness
end HeypAgents
