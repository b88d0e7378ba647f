import HeypAgents.Alg.MaxMinFairnessOptimal

/-!
# When the waterlevel is positive

Whatever element `NthElement` leaves at its position, the level is positive iff some
demand is positive and the capacity gives every positive demand at least one unit.
-/

namespace HeypAgents
namespace MaxMinFairness

open WaterFilling
open HybridQsort (StdPartition)
open PartialSortAllocator

section PartialSort

variable {part : StdPartition ℤ} {U below area above : List ℤ} {level residual : ℤ}
  {s : PartialSortAllocator}

/--
Either nothing has been settled yet, or the level is positive and settling was
possible from the start.
-/
structure PositiveInv (U : List ℤ) (level residual : ℤ) (s : PartialSortAllocator)
    (below area above : List ℤ) : Prop where
  limits : Limits s below area above
  perm : s.sortedDemands.Perm U
  residual_nonneg : 0 ≤ s.residualCapacity
  progress :
    (below = [] ∧ s.waterlevel = level ∧ s.residualCapacity = residual) ∨
      (1 ≤ s.waterlevel ∧ (1 ≤ level ∨ (U.length : ℤ) ≤ residual))

theorem length_le_askFor {A rest : List ℤ} {v : ℤ} (hA : ∀ a ∈ A, 1 ≤ a) (hv : 1 ≤ v) :
    ((A.length + rest.length : ℕ) : ℤ) ≤ askFor 0 A v rest := by
  have hsum : (A.length : ℤ) ≤ A.sum := by
    simpa using List.card_nsmul_le_sum A 1 hA
  have hrest : (rest.length : ℤ) ≤ v * rest.length := le_mul_of_one_le_left (by positivity) hv
  rw [askFor]
  push_cast
  linarith

theorem PositiveInv.loopBody (h : PositiveInv U level residual s below area above)
    (hU : ∀ u ∈ U, 1 ≤ u) (hlevel : 0 ≤ level) (hcond : loopCond s = true) :
    ∃ below' area' above', PositiveInv U level residual (loopBody part s) below' area' above' := by
  have hdemands : (below ++ (area ++ above)).Perm U := h.limits.demands ▸ h.perm
  rcases h.limits.loopBody_cases part hcond with
    ⟨A, v, B, hAB, hv, hlimits, hfits, hwater, hres, -⟩ |
    ⟨area', above', hrest, hlimits, hwater, hres, -⟩
  · have hperm : (below ++ A ++ (B ++ above)).Perm U := by
      refine List.Perm.trans ?_ hdemands
      simpa using (hAB.append_right above).append_left below
    have hmem : ∀ x ∈ A, 1 ≤ x := fun x hx => hU x (hperm.mem_iff.mp (by simp [hx]))
    refine ⟨below ++ A, B, above, hlimits, hlimits.demands ▸ hperm, ?_, .inr ⟨?_, ?_⟩⟩
    · rw [hres]
      exact sub_nonneg.mpr hfits
    · rw [hwater]
      exact hmem v hv
    · rcases h.progress with ⟨rfl, hstart, hfull⟩ | ⟨-, hdone⟩
      · rcases hlevel.eq_or_lt with rfl | hpos
        · right
          rw [hstart, hfull] at hfits
          rw [← hperm.length_eq, List.nil_append, List.length_append]
          exact (length_le_askFor hmem (hmem v hv)).trans hfits
        · exact .inl hpos
      · exact hdone
  · refine ⟨below, area', above', hlimits, ?_, hres ▸ h.residual_nonneg, ?_⟩
    · rw [hlimits.demands]
      exact (hrest.append_left below).trans hdemands
    · rw [hwater, hres]
      exact h.progress

theorem PositiveInv.divideRemainder_pos_iff (h : PositiveInv U level residual s below area above)
    (hne : U ≠ []) (hlevel : 0 ≤ level) (hexit : loopCond s = false) :
    0 ≤ s.divideRemainder ∧ (1 ≤ s.divideRemainder ↔ 1 ≤ level ∨ (U.length : ℤ) ≤ residual) := by
  have hlt : s.upperLimit < s.lowerLimit := by simpa [loopCond] using hexit
  have hlower := h.limits.lower
  have hupper := h.limits.upper
  have hlen := h.perm.length_eq
  have hpos := List.length_pos_iff.mpr hne
  simp only [divideRemainder, max_eq_left hlt.le]
  rcases h.progress with ⟨rfl, hwater, hres⟩ | ⟨hwater, hdone⟩
  · have hzero : s.lowerLimit = 0 := by simpa using hlower
    have hrem := h.residual_nonneg
    rw [hres] at hrem
    rw [if_pos (by omega), hzero, sub_zero, hlen, hwater, hres, Int.tdiv_eq_ediv_of_nonneg hrem]
    have hdiv : 0 ≤ residual / U.length := Int.ediv_nonneg hrem (by positivity)
    have hiff : 1 ≤ residual / (U.length : ℤ) ↔ (U.length : ℤ) ≤ residual := by
      rw [Int.le_ediv_iff_mul_le (by exact_mod_cast hpos), one_mul]
    exact ⟨by omega, by rw [← hiff]; omega⟩
  · have hnonneg : s.waterlevel ≤ (if s.lowerLimit < ↑s.sortedDemands.length then
        s.waterlevel + s.residualCapacity.tdiv (↑s.sortedDemands.length - s.lowerLimit)
        else s.waterlevel) := by
      split_ifs with hrest
      · have := Int.tdiv_nonneg h.residual_nonneg (b := ↑s.sortedDemands.length - s.lowerLimit)
          (by omega)
        omega
      · exact le_rfl
    exact ⟨by omega, ⟨fun _ => hdone, fun _ => by omega⟩⟩

theorem solvePartialSort_pos_iff (part : StdPartition ℤ)
    (hU : ∀ u ∈ U, 1 ≤ u) (hlevel : 0 ≤ level) (hres : 0 ≤ residual) :
    0 ≤ solvePartialSort part residual level U ∧
      (1 ≤ solvePartialSort part residual level U ↔
        1 ≤ level ∨ (U ≠ [] ∧ (U.length : ℤ) ≤ residual)) := by
  unfold solvePartialSort PartialSortAllocator.computeWaterlevel
  split_ifs with hempty
  · obtain rfl : U = [] := by simpa [partialSortStart] using hempty
    exact ⟨hlevel, by simp [partialSortStart]⟩
  · have hne : U ≠ [] := by simpa [partialSortStart] using hempty
    have hstart : PositiveInv U level residual (partialSortStart residual level U) [] U [] :=
      ⟨⟨by simp [partialSortStart], rfl, by simp [partialSortStart]⟩, .refl _, hres,
        .inl ⟨rfl, rfl, rfl⟩⟩
    obtain ⟨⟨below, area, above, hinv⟩, hexit⟩ := While.loop_spec (C := fun _ => True) (m := width)
      (I := fun s => ∃ below area above, PositiveInv U level residual s below area above)
      loopCond (PartialSortAllocator.loopBody part)
      (fun s hs hcond _ => by
        obtain ⟨below, area, above, hs⟩ := hs
        exact hs.loopBody hU hlevel hcond)
      (fun s _ hcond => width_loopBody_lt hcond)
      le_rfl (While.always_of_forall (fun _ => trivial) _ _) ⟨_, _, _, hstart⟩
    simpa [hne] using hinv.divideRemainder_pos_iff hne hlevel hexit

end PartialSort

section Default

/-- The number of positive demands. -/
def numPositive (D : List ℤ) : ℕ := D.countP fun d => 0 < d

theorem numPositive_le_length (D : List ℤ) : numPositive D ≤ D.length := List.countP_le_length

variable {part : StdPartition ℤ} {capacity : ℤ} {D : List ℤ}

theorem served_zero (hD : ∀ d ∈ D, 0 ≤ d) : served D 0 = 0 := by
  rw [served_of_ge hD, mul_zero]

theorem Filtered.of_level_zero {thresh : ℤ} {tiny : List ℤ} {f : TinyFilter}
    (h : Filtered thresh capacity D tiny f) (hD : ∀ d ∈ D, 0 ≤ d) (hthresh : 0 ≤ thresh)
    (hzero : f.waterlevel = 0) :
    f.unfiltered.length = numPositive D ∧ f.capacity = capacity := by
  have htiny : ∀ d ∈ tiny, d ≤ 0 := fun d hd => hzero ▸ h.tiny_level d hd
  constructor
  · have hnone : tiny.countP (fun d => 0 < d) = 0 := by
      rw [List.countP_eq_zero]
      intro d hd
      simpa using htiny d hd
    have hall : f.unfiltered.countP (fun d => 0 < d) = f.unfiltered.length := by
      rw [List.countP_eq_length]
      intro d hd
      simpa using hthresh.trans_lt (h.unfiltered_gt d hd)
    rw [numPositive, ← h.perm.countP_eq, List.countP_append, hnone, hall, zero_add]
  · have hsum : served tiny 0 = tiny.sum := served_of_le htiny
    rw [served_zero fun d hd => hD d (h.perm.mem_iff.mp (List.mem_append_left _ hd))] at hsum
    linarith [h.capacity]

/--
Under the default options the waterlevel is positive iff some demand is positive and the
capacity gives every positive demand at least one unit.
-/
theorem computeWaterlevel_pos_iff (part : StdPartition ℤ) (hD : ∀ d ∈ D, 0 ≤ d)
    (hcap : 0 ≤ capacity) :
    0 ≤ computeWaterlevel part {} capacity D ∧
      (1 ≤ computeWaterlevel part {} capacity D ↔
        0 < numPositive D ∧ (numPositive D : ℤ) ≤ capacity) := by
  obtain ⟨tiny, h⟩ := filtered_foldl (tinyDemandThresh {} capacity D) capacity D
  obtain ⟨hthresh, hfits⟩ : 0 ≤ tinyDemandThresh {} capacity D ∧
      D.length * tinyDemandThresh {} capacity D ≤ capacity := by
    refine (tinyDemandThresh_fits {} hcap D).resolve_right fun hneg => ?_
    have := Int.tdiv_nonneg hcap (b := max (D.length : ℤ) 1) (by omega)
    simp [tinyDemandThresh] at hneg
    omega
  obtain ⟨hle, hres⟩ := h.residual_nonneg hthresh hfits
  have hlarge : ∀ d ∈ (filterTiny {} capacity D).unfiltered, 1 ≤ d := fun d hd =>
    hthresh.trans_lt (h.unfiltered_gt d hd)
  obtain ⟨hnonneg, hiff⟩ := solvePartialSort_pos_iff part hlarge h.level_nonneg hres
  refine ⟨hnonneg, hiff.trans ?_⟩
  simp only [filterTiny]
  generalize D.foldl (TinyFilter.step (tinyDemandThresh {} capacity D))
    { unfiltered := [], capacity := capacity, waterlevel := 0 } = f at h hle ⊢
  rcases h.level_nonneg.eq_or_lt with hzero | hpos
  · obtain ⟨hlen, hcapacity⟩ := h.of_level_zero hD hthresh hzero.symm
    rw [← hzero, zero_mul, sub_zero, hcapacity, hlen, ← List.length_pos_iff, hlen]
    omega
  · have hmem : f.waterlevel ∈ D :=
      h.perm.mem_iff.mp (List.mem_append_left _ (h.level_mem.resolve_left hpos.ne'))
    have hcount : 0 < numPositive D :=
      List.countP_pos_iff.mpr ⟨f.waterlevel, hmem, by simpa using hpos⟩
    have hlength : (D.length : ℤ) ≤ D.length * tinyDemandThresh {} capacity D :=
      le_mul_of_one_le_right (by positivity) (by omega)
    have := numPositive_le_length D
    constructor
    · exact fun _ => ⟨hcount, by omega⟩
    · exact fun _ => .inl hpos

end Default

end MaxMinFairness
end HeypAgents
