import HeypAgents.Lib.WeightedFilling
import HeypAgents.Alg.MaxMinFairnessDist

/-!
# Full sort for distributions of demands

Without the tiny-flow fast path, sorting is a weighted filling and its level is the fair
one.  The fast path settles the tiny demands, and charges their level once for each entry
that is left.  An entry has as many demands as its expected count says, so the charge is
the right one only if these counts add up to the number of the entries.
-/

namespace HeypAgents
namespace MaxMinFairnessDist

open WeightedFilling
open HybridQsort (StdPartition)

section FullSort

variable {capacity level residual : ℚ} {D settled pending : List ValCount}

def withGeCounts (sorted : List ValCount) : List (ValCount × ℚ) :=
  sorted.zip (expectedGeCount sorted).2

theorem expectedGeCount_fst (sorted : List ValCount) :
    (expectedGeCount sorted).1 = total ValCount.expectedCount sorted := by
  induction sorted with
  | nil => rfl
  | cons d rest ih =>
    rw [total_cons, ← ih, add_comm]
    rfl

theorem withGeCounts_cons (d : ValCount) (rest : List ValCount) :
    withGeCounts (d :: rest) =
      (d, total ValCount.expectedCount (d :: rest)) :: withGeCounts rest := by
  rw [total_cons, ← expectedGeCount_fst, add_comm]
  rfl

theorem fullSortLoop_eq_fill (residual level : ℚ) (pending : List ValCount) :
    fullSortLoop residual level (withGeCounts pending) =
      Filling.fill ValCount.val ValCount.expectedCount residual level pending := by
  induction pending generalizing residual level with
  | nil => rfl
  | cons d rest ih =>
    rw [withGeCounts_cons, fullSortLoop, Filling.fill]
    simp only [add_sub_cancel, ih]

theorem fullSortLoop_isLevel
    (h : Filling ValCount.val ValCount.expectedCount capacity D settled pending level residual)
    (hsorted : pending.Pairwise fun a b => a.val ≤ b.val) :
    IsLevel ValCount.val ValCount.expectedCount capacity D
      (fullSortLoop residual level (withGeCounts pending)) := by
  rw [fullSortLoop_eq_fill]
  exact h.fill_isLevel hsorted

theorem solveFullSort_isLevel (sort : StdSort)
    (h : Filling ValCount.val ValCount.expectedCount capacity D settled pending level residual) :
    IsLevel ValCount.val ValCount.expectedCount capacity D
      (solveFullSort sort residual level pending) :=
  fullSortLoop_isLevel (h.reorder (sort.perm pending)) (sort.sorted pending)

end FullSort

section Filter

def tinyPart (thresh : ℚ) (demands : List ValCount) : List ValCount :=
  demands.filter fun d => d.val ≤ thresh

def bigPart (thresh : ℚ) (demands : List ValCount) : List ValCount :=
  demands.filter fun d => !decide (d.val ≤ thresh)

def topVal (demands : List ValCount) : ℚ := demands.foldl (fun w d => max w d.val) 0

variable {thresh capacity : ℚ} {demands : List ValCount}

theorem foldl_step (demands : List ValCount) (f : TinyFilter) :
    demands.foldl (TinyFilter.step thresh) f =
      { unfiltered := f.unfiltered ++ bigPart thresh demands
        capacity := f.capacity -
          volume ValCount.val ValCount.expectedCount (tinyPart thresh demands)
        waterlevel := (tinyPart thresh demands).foldl (fun w d => max w d.val) f.waterlevel } := by
  induction demands generalizing f with
  | nil => simp [bigPart, tinyPart, volume]
  | cons d demands ih =>
    rw [List.foldl_cons, ih]
    by_cases htiny : d.val ≤ thresh
    · have htinyPart : tinyPart thresh (d :: demands) = d :: tinyPart thresh demands :=
        List.filter_cons_of_pos (by simpa using htiny)
      have hbigPart : bigPart thresh (d :: demands) = bigPart thresh demands :=
        List.filter_cons_of_neg (by simpa using htiny)
      rw [htinyPart, hbigPart, volume_cons, TinyFilter.step, if_pos htiny, mul_comm,
        ← sub_sub, List.foldl_cons]
    · simp [TinyFilter.step, htiny, bigPart, tinyPart]

/-- The filter keeps the big demands and charges for the tiny ones. -/
theorem filterTiny_eq (options : MaxMinFairness.Options) (capacity : ℚ) (demands : List ValCount) :
    filterTiny options capacity demands =
      { unfiltered := bigPart (tinyDemandThresh options capacity demands) demands
        capacity := capacity - volume ValCount.val ValCount.expectedCount
            (tinyPart (tinyDemandThresh options capacity demands) demands) -
          topVal (tinyPart (tinyDemandThresh options capacity demands) demands) *
            (bigPart (tinyDemandThresh options capacity demands) demands).length
        waterlevel := topVal (tinyPart (tinyDemandThresh options capacity demands) demands) } := by
  simp only [filterTiny, foldl_step, List.nil_append]
  rfl

theorem foldl_max_spec (demands : List ValCount) (w : ℚ) :
    w ≤ demands.foldl (fun w d => max w d.val) w ∧
      (∀ d ∈ demands, d.val ≤ demands.foldl (fun w d => max w d.val) w) ∧
      (demands.foldl (fun w d => max w d.val) w = w ∨
        ∃ d ∈ demands, d.val = demands.foldl (fun w d => max w d.val) w) := by
  induction demands generalizing w with
  | nil => simp
  | cons d demands ih =>
    obtain ⟨hstart, hle, hmem⟩ := ih (max w d.val)
    rw [List.foldl_cons]
    refine ⟨(le_max_left _ _).trans hstart, ?_, ?_⟩
    · exact List.forall_mem_cons.mpr ⟨(le_max_right _ _).trans hstart, hle⟩
    · rcases hmem with hmem | ⟨e, he, heq⟩
      · rw [hmem]
        rcases max_choice w d.val with hmax | hmax
        · exact .inl hmax
        · exact .inr ⟨d, List.mem_cons_self, hmax.symm⟩
      · exact .inr ⟨e, List.mem_cons_of_mem d he, heq⟩

theorem le_topVal : ∀ d ∈ demands, d.val ≤ topVal demands := (foldl_max_spec demands 0).2.1

theorem topVal_mem (hpos : ∀ d ∈ demands, 0 ≤ d.val) (hne : demands ≠ []) :
    ∃ d ∈ demands, d.val = topVal demands := by
  rcases (foldl_max_spec demands 0).2.2 with hzero | hmem
  · obtain ⟨d, hd⟩ := List.exists_mem_of_ne_nil demands hne
    refine ⟨d, hd, le_antisymm (le_topVal d hd) ?_⟩
    rw [topVal, hzero]
    exact hpos d hd
  · exact hmem

def Proper (demands : List ValCount) : Prop := ∀ d ∈ demands, 0 ≤ d.val ∧ 0 < d.expectedCount

theorem Proper.filling (hproper : Proper demands) (hcapacity : 0 ≤ capacity) :
    Filling ValCount.val ValCount.expectedCount capacity demands [] demands 0 capacity :=
  Filling.start hcapacity (fun d hd => (hproper d hd).1) fun d hd => (hproper d hd).2

theorem filterTiny_off (hproper : Proper demands) (method : MaxMinFairness.SolveMethod) :
    filterTiny ⟨method, false⟩ capacity demands =
      { unfiltered := demands, capacity := capacity, waterlevel := 0 } := by
  have hthresh : tinyDemandThresh ⟨method, false⟩ capacity demands = -1 := rfl
  have htiny : tinyPart (-1) demands = [] :=
    List.filter_eq_nil_iff.mpr fun d hd => by
      have := (hproper d hd).1
      simp only [decide_eq_true_eq]
      linarith
  have hbig : bigPart (-1) demands = demands :=
    List.filter_eq_self.mpr fun d hd => by
      have := (hproper d hd).1
      simp only [Bool.not_eq_true', decide_eq_false_iff_not]
      linarith
  rw [filterTiny_eq, hthresh, htiny, hbig]
  simp [volume, topVal]

end Filter

section FairLevel

variable {capacity : ℚ} {demands : List ValCount}

theorem computeWaterlevel_off_isLevel (sort : StdSort) (part : StdPartition ValCount)
    (hcapacity : 0 ≤ capacity) (hproper : Proper demands) :
    IsLevel ValCount.val ValCount.expectedCount capacity demands
      (computeWaterlevel sort part ⟨.kFullSort, false⟩ capacity demands) := by
  rw [computeWaterlevel, filterTiny_off hproper]
  exact solveFullSort_isLevel sort (hproper.filling hcapacity)

/--
At the level of the full sort the demands take the capacity or, if it covers them, all they
ask for, and then the level is the largest value.
-/
theorem fullSort_maxMinFair (sort : StdSort) (part : StdPartition ValCount) (capacity : ℚ)
    (hcapacity : 0 ≤ capacity) (demands : List ValCount)
    (hdemands : ∀ d ∈ demands, 0 ≤ d.val ∧ 0 < d.expectedCount) :
    let w := computeWaterlevel sort part ⟨.kFullSort, false⟩ capacity demands
    (demands.map fun d => d.expectedCount * min d.val w).sum =
        min capacity (demands.map fun d => d.expectedCount * d.val).sum ∧
      ((demands.map fun d => d.expectedCount * d.val).sum ≤ capacity →
        (∀ d ∈ demands, d.val ≤ w) ∧ (demands ≠ [] → ∃ d ∈ demands, d.val = w)) := by
  intro w
  have hlevel := computeWaterlevel_off_isLevel sort part hcapacity hdemands
  exact ⟨hlevel.served_eq, hlevel.covered⟩

/-- One and a half demands of 1, and two of 3, share a capacity of 5. -/
theorem fullSort_maxMinFair_two_entries :
    ([⟨1, 3 / 2⟩, ⟨3, 2⟩].map fun d : ValCount => d.expectedCount * min d.val
        (computeWaterlevel .stable .stable ⟨.kFullSort, false⟩ 5 [⟨1, 3 / 2⟩, ⟨3, 2⟩])).sum =
      5 := by
  have hdemands : ∀ d ∈ [(⟨1, 3 / 2⟩ : ValCount), ⟨3, 2⟩], 0 ≤ d.val ∧ 0 < d.expectedCount := by
    norm_num
  rw [(fullSort_maxMinFair .stable .stable 5 (by norm_num) _ hdemands).1]
  norm_num

end FairLevel

section FastPath

variable {capacity : ℚ} {demands tiny big : List ValCount}

/-- The demands cut by the fast path. -/
structure Cut (demands tiny big : List ValCount) : Prop where
  perm : (tiny ++ big).Perm demands
  proper : Proper demands
  apart : ∀ d ∈ tiny, ∀ e ∈ big, d.val < e.val

theorem Proper.cut (hproper : Proper demands) (thresh : ℚ) :
    Cut demands (tinyPart thresh demands) (bigPart thresh demands) where
  perm := List.filter_append_perm _ demands
  proper := hproper
  apart := by
    intro d hd e he
    have hd' := of_decide_eq_true (List.mem_filter.mp hd).2
    have he' := (List.mem_filter.mp he).2
    simp only [Bool.not_eq_true', decide_eq_false_iff_not, not_le] at he'
    exact lt_of_le_of_lt hd' he'

def uncharged (tiny big : List ValCount) : ℚ :=
  topVal tiny * (total ValCount.expectedCount big - big.length)

namespace Cut

theorem mem_tiny (h : Cut demands tiny big) {d : ValCount} (hd : d ∈ tiny) : d ∈ demands :=
  h.perm.mem_iff.mp (List.mem_append_left _ hd)

theorem mem_big (h : Cut demands tiny big) {d : ValCount} (hd : d ∈ big) : d ∈ demands :=
  h.perm.mem_iff.mp (List.mem_append_right _ hd)

theorem topVal_lt (h : Cut demands tiny big) : ∀ e ∈ big, topVal tiny ≤ e.val := by
  intro e he
  rcases (foldl_max_spec tiny 0).2.2 with hzero | ⟨d, hd, heq⟩
  · rw [topVal, hzero]
    exact (h.proper e (h.mem_big he)).1
  · rw [topVal, ← heq]
    exact (h.apart d hd e he).le

theorem filling (h : Cut demands tiny big) {residual : ℚ}
    (hresidual : residual = capacity - volume ValCount.val ValCount.expectedCount tiny -
      topVal tiny * big.length) (hnonneg : 0 ≤ residual) :
    Filling ValCount.val ValCount.expectedCount (capacity + uncharged tiny big) demands tiny big
      (topVal tiny) residual where
  perm := h.perm
  positive := fun d hd => (h.proper d hd).2
  settled_le := le_topVal
  le_pending := h.topVal_lt
  level_mem := topVal_mem fun d hd => (h.proper d (h.mem_tiny hd)).1
  accounted := by
    rw [hresidual, uncharged]
    ring
  residual_nonneg := hnonneg

end Cut

/--
The condition on the demands under which the fast path changes nothing. When the charges
fit into the capacity, nothing is uncharged, or the capacity covers all the demands, with
what is uncharged and without it. When they do not fit, the tiny demands must give back
exactly what is uncharged at the level to which the deficit pushes the other ones.
-/
def ChargesExactly (capacity : ℚ) (demands tiny big : List ValCount) : Prop :=
  if volume ValCount.val ValCount.expectedCount tiny + topVal tiny * big.length ≤ capacity then
    uncharged tiny big = 0 ∨
      (volume ValCount.val ValCount.expectedCount demands ≤ capacity ∧
        volume ValCount.val ValCount.expectedCount demands ≤ capacity + uncharged tiny big)
  else
    big ≠ [] ∧
      volume ValCount.val ValCount.expectedCount tiny -
        served ValCount.val ValCount.expectedCount tiny
          (topVal tiny - (volume ValCount.val ValCount.expectedCount tiny +
            topVal tiny * big.length - capacity) / total ValCount.expectedCount big) =
      uncharged tiny big

theorem min_eq_min_iff {x y z : ℚ} : min x z = min y z ↔ x = y ∨ (z ≤ x ∧ z ≤ y) := by
  constructor
  · intro h
    rcases le_total x z with hx | hx <;> rcases le_total y z with hy | hy
    · rw [min_eq_left hx, min_eq_left hy] at h
      exact .inl h
    · rw [min_eq_left hx, min_eq_right hy] at h
      exact .inr ⟨h.ge, hy⟩
    · rw [min_eq_right hx, min_eq_left hy] at h
      exact .inr ⟨hx, h.le⟩
    · exact .inr ⟨hx, hy⟩
  · rintro (rfl | ⟨hx, hy⟩)
    · rfl
    · rw [min_eq_right hx, min_eq_right hy]

theorem solveFullSort_of_neg (sort : StdSort) {residual level : ℚ} (hneg : residual < 0)
    (hne : big ≠ []) (hle : ∀ d ∈ big, level ≤ d.val) (hpos : ∀ d ∈ big, 0 < d.expectedCount) :
    solveFullSort sort residual level big =
      level + residual / total ValCount.expectedCount big := by
  have hperm := sort.perm big
  have htotal := total_pos hpos hne
  rw [← total_perm hperm] at htotal ⊢
  cases hsorted : sort.run big with
  | nil => exact absurd (hsorted ▸ hperm).symm.eq_nil hne
  | cons d rest =>
    have hd := hle d (hperm.mem_iff.mp (by simp [hsorted]))
    have hask : residual < (d.val - level) * total ValCount.expectedCount (d :: rest) := by
      rw [hsorted] at htotal
      exact hneg.trans_le (mul_nonneg (by linarith) htotal.le)
    have hloop : solveFullSort sort residual level big =
        fullSortLoop residual level (withGeCounts (sort.run big)) := rfl
    rw [hloop, hsorted, withGeCounts_cons, fullSortLoop]
    exact if_neg (not_le.mpr hask)

theorem solveFullSort_nil (sort : StdSort) (residual level : ℚ) :
    solveFullSort sort residual level [] = level := by
  rw [solveFullSort, (sort.perm []).eq_nil]
  rfl

/-- The fast path ends at the fair level iff its charges are exact. -/
theorem Cut.solveFullSort_eq_iff (sort : StdSort) (h : Cut demands tiny big) (hne : demands ≠ [])
    {w : ℚ} (hlevel : IsLevel ValCount.val ValCount.expectedCount capacity demands w) :
    solveFullSort sort (capacity - volume ValCount.val ValCount.expectedCount tiny -
        topVal tiny * big.length) (topVal tiny) big = w ↔
      ChargesExactly capacity demands tiny big := by
  have hpos : ∀ d ∈ demands, 0 < d.expectedCount := fun d hd => (h.proper d hd).2
  unfold ChargesExactly
  split_ifs with hfits
  · have hon := solveFullSort_isLevel sort (h.filling rfl (by linarith))
    rw [hon.eq_iff hpos hne hlevel, min_eq_min_iff, add_eq_left, and_comm]
  · rcases eq_or_ne big [] with rfl | hbig
    · -- the level is that of the largest value, which the capacity does not cover
      refine iff_of_false ?_ fun hexact => hexact.1 rfl
      rw [solveFullSort_nil]
      rintro rfl
      have hperm : tiny.Perm demands := by simpa using h.perm
      have hserved := hlevel.served_eq
      rw [← served_perm hperm, served_of_le le_topVal, ← volume_perm hperm] at hserved
      have hcovered := min_eq_right_iff.mp hserved.symm
      simp only [List.length_nil, Nat.cast_zero, mul_zero, add_zero] at hfits
      exact hfits hcovered
    · have hbigpos : ∀ d ∈ big, 0 < d.expectedCount := fun d hd => hpos d (h.mem_big hd)
      have htotal := total_pos hbigpos hbig
      rw [solveFullSort_of_neg sort (by linarith) hbig h.topVal_lt hbigpos, and_iff_right hbig]
      generalize hdeficit : volume ValCount.val ValCount.expectedCount tiny +
        topVal tiny * big.length - capacity = deficit
      have hresidual : capacity - volume ValCount.val ValCount.expectedCount tiny -
          topVal tiny * big.length = -deficit := by
        linarith
      rw [hresidual, neg_div, ← sub_eq_add_neg]
      generalize hpushed : topVal tiny - deficit / total ValCount.expectedCount big = pushed
      have hlow : pushed < topVal tiny := by
        rw [← hpushed]
        exact sub_lt_self _ (div_pos (by linarith) htotal)
      obtain ⟨e, he⟩ := List.exists_mem_of_ne_nil big hbig
      rw [hlevel.eq_iff_of_lt hpos (h.mem_big he) (hlow.trans_le (h.topVal_lt e he)),
        ← served_perm h.perm, served_append,
        served_of_ge fun d hd => (hlow.trans_le (h.topVal_lt d hd)).le]
      -- the entries that are left take what the tiny ones leave, and the deficit less
      have htaken : total ValCount.expectedCount big * pushed =
          total ValCount.expectedCount big * topVal tiny - deficit := by
        rw [← hpushed, mul_sub, mul_div_cancel₀ _ htotal.ne']
      rw [htaken, uncharged]
      constructor <;> intro heq <;> linarith

/-- The tiny-flow fast path does not change the answer iff its charges are exact. -/
theorem tinyFlowOpt_unchanged_iff (sort : StdSort) (part : StdPartition ValCount) (capacity : ℚ)
    (hcapacity : 0 ≤ capacity) (demands : List ValCount)
    (hdemands : ∀ d ∈ demands, 0 ≤ d.val ∧ 0 < d.expectedCount) :
    computeWaterlevel sort part ⟨.kFullSort, true⟩ capacity demands =
        computeWaterlevel sort part ⟨.kFullSort, false⟩ capacity demands ↔
      ChargesExactly capacity demands (tinyPart (capacity / max (demands.length : ℚ) 1) demands)
        (bigPart (capacity / max (demands.length : ℚ) 1) demands) := by
  have hlevel := computeWaterlevel_off_isLevel sort part hcapacity hdemands
  have hon : computeWaterlevel sort part ⟨.kFullSort, true⟩ capacity demands = _ :=
    congrArg (fun f : TinyFilter => solveFullSort sort f.capacity f.waterlevel f.unfiltered)
      (filterTiny_eq ⟨.kFullSort, true⟩ capacity demands)
  rw [hon]
  rcases eq_or_ne demands [] with rfl | hne
  · refine iff_of_true ?_ ?_
    · rw [computeWaterlevel, filterTiny_off hdemands]
      exact (solveFullSort_nil sort _ _).trans (solveFullSort_nil sort _ _).symm
    · unfold ChargesExactly
      simp [tinyPart, bigPart, volume, topVal, uncharged, hcapacity]
  · exact (Proper.cut hdemands _).solveFullSort_eq_iff sort hne hlevel

/-- A charge that is exact: the entry of 10 stands for one demand. -/
theorem tinyFlowOpt_unchanged_unit_counts :
    computeWaterlevel .stable .stable ⟨.kFullSort, true⟩ 4 [⟨1, 1⟩, ⟨10, 1⟩] = 3 ∧
      ChargesExactly 4 [⟨1, 1⟩, ⟨10, 1⟩] (tinyPart (4 / max (2 : ℚ) 1) [⟨1, 1⟩, ⟨10, 1⟩])
        (bigPart (4 / max (2 : ℚ) 1) [⟨1, 1⟩, ⟨10, 1⟩]) := by
  have hdemands : ∀ d ∈ [(⟨1, 1⟩ : ValCount), ⟨10, 1⟩], 0 ≤ d.val ∧ 0 < d.expectedCount := by
    norm_num
  exact ⟨by decide +kernel,
    (tinyFlowOpt_unchanged_iff .stable .stable 4 (by norm_num) _ hdemands).mp (by decide +kernel)⟩

/-- Two demands of 10 behind one of 1: the level of the latter is charged once for both. -/
theorem tinyFlowOpt_changes :
    computeWaterlevel .stable .stable ⟨.kFullSort, true⟩ 4 [⟨1, 1⟩, ⟨10, 2⟩] = 2 ∧
      computeWaterlevel .stable .stable ⟨.kFullSort, false⟩ 4 [⟨1, 1⟩, ⟨10, 2⟩] = 3 / 2 := by
  decide +kernel

end FastPath

end MaxMinFairnessDist
end HeypAgents
