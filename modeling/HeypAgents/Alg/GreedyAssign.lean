import Mathlib.Data.List.Sort
import HeypAgents.Lib.NearestPrefix
import HeypAgents.Alg.QosDowngrade

/-!
# Selectors that assign children greedily

`GreedyAssignToMinimizeGap` goes through the children from the one with the most demand
on, and moves them to a class until its demand is near a target.  A selector that only
punishes the largest children stops at the first one that would lead beyond the target.
The other one passes over such children, and only the last child of the order may lead
beyond the target.

The order of the children is total, so that there is one list which is sorted by it.
-/

namespace HeypAgents

section Model

variable (children : List ChildFlowInfo)

def volumeOf (childI : ℕ) : ℤ := (children.getD childI {}).volumeBps

def hasMoreDemand (lhs rhs : ℕ) : Prop :=
  if volumeOf children lhs = volumeOf children rhs then rhs < lhs
  else volumeOf children rhs < volumeOf children lhs
deriving Decidable

def childrenSortedByDecDemand : List ℕ :=
  (List.range children.length).insertionSort fun lhs rhs => ¬ hasMoreDemand children rhs lhs

/-- `GreedyAssignToMinimizeGap` for the children that are still to be seen. -/
def greedyAssignToMinimizeGap (stateToIncrease punishOnlyLargest : Bool) (wantDemand : ℤ) :
    List ℕ → ℤ → List Bool → List Bool
  | [], _, lopriChildren => lopriChildren
  | childI :: rest, curDemand, lopriChildren =>
    let nextDemand := curDemand + volumeOf children childI
    let exceedsTwiceGap : Bool := 2 * wantDemand - curDemand < nextDemand
    if lopriChildren.getD childI false = stateToIncrease then
      greedyAssignToMinimizeGap stateToIncrease punishOnlyLargest wantDemand rest curDemand
        lopriChildren
    else if wantDemand < nextDemand ∧ punishOnlyLargest then
      if exceedsTwiceGap then lopriChildren else lopriChildren.set childI stateToIncrease
    else if wantDemand < nextDemand ∧ (rest ≠ [] ∨ exceedsTwiceGap) then
      greedyAssignToMinimizeGap stateToIncrease punishOnlyLargest wantDemand rest curDemand
        lopriChildren
    else
      greedyAssignToMinimizeGap stateToIncrease punishOnlyLargest wantDemand rest nextDemand
        (lopriChildren.set childI stateToIncrease)

def totalDemand : ℤ := (children.map ChildFlowInfo.volumeBps).sum

def lopriDemand : ℤ := (children.map fun c => if c.currentlyLopri then c.volumeBps else 0).sum

end Model

namespace LargestFirstDowngradeSelector

def pickLopriChildren (aggInfo : AggInfoView) (wantFracLopri : ℚ) : List Bool :=
  let children := aggInfo.children
  let noLopri := List.replicate children.length false
  if totalDemand children = 0 then noLopri
  else
    greedyAssignToMinimizeGap children true true (truncInt (wantFracLopri * totalDemand children))
      (childrenSortedByDecDemand children) 0 noLopri

end LargestFirstDowngradeSelector

namespace HeypSigcomm20DowngradeSelector

def pickLopriChildren (aggInfo : AggInfoView) (wantFracLopri : ℚ) : List Bool :=
  let children := aggInfo.children
  let total := totalDemand children
  let lopri := lopriDemand children
  let lopriChildren := children.map ChildFlowInfo.currentlyLopri
  if total = 0 then List.replicate children.length false
  else if wantFracLopri < (lopri : ℚ) / total then
    greedyAssignToMinimizeGap children false false (truncInt ((1 - wantFracLopri) * total))
      (childrenSortedByDecDemand children) (total - lopri) lopriChildren
  else
    greedyAssignToMinimizeGap children true false (truncInt (wantFracLopri * total))
      (childrenSortedByDecDemand children) lopri lopriChildren

end HeypSigcomm20DowngradeSelector

section Order

variable {children : List ChildFlowInfo} {order : List ℕ} {i j : ℕ}

structure SortedByDecDemand (children : List ChildFlowInfo) (order : List ℕ) : Prop where
  perm : order.Perm (List.range children.length)
  sorted : order.Pairwise fun i j => volumeOf children j < volumeOf children i ∨
    volumeOf children j = volumeOf children i ∧ j < i

theorem hasMoreDemand_iff : hasMoreDemand children i j ↔ volumeOf children j < volumeOf children i ∨
    volumeOf children j = volumeOf children i ∧ j < i := by
  rw [hasMoreDemand]
  split_ifs with heq
  · constructor
    · exact fun hlt => .inr ⟨heq.symm, hlt⟩
    · rintro (hlt | ⟨-, hlt⟩)
      · omega
      · exact hlt
  · constructor
    · exact .inl
    · rintro (hlt | ⟨hvol, -⟩)
      · exact hlt
      · exact absurd hvol.symm heq

theorem hasMoreDemand_of_not (h : ¬ hasMoreDemand children j i) (hne : i ≠ j) :
    hasMoreDemand children i j := by
  rw [hasMoreDemand_iff] at h ⊢
  omega

instance : Std.Total fun lhs rhs => ¬ hasMoreDemand children rhs lhs where
  total lhs rhs := by
    simp only [hasMoreDemand_iff]
    omega

instance : IsTrans ℕ fun lhs rhs => ¬ hasMoreDemand children rhs lhs where
  trans a b c := by
    simp only [hasMoreDemand_iff]
    omega

theorem sortedByDecDemand_sort (children : List ChildFlowInfo) :
    SortedByDecDemand children (childrenSortedByDecDemand children) := by
  have hperm : (childrenSortedByDecDemand children).Perm (List.range children.length) :=
    List.perm_insertionSort _ _
  have hsorted : (childrenSortedByDecDemand children).Pairwise
      fun lhs rhs => ¬ hasMoreDemand children rhs lhs := List.pairwise_insertionSort _ _
  have hnodup : (childrenSortedByDecDemand children).Nodup := hperm.nodup_iff.mpr List.nodup_range
  refine ⟨hperm, (hsorted.and hnodup).imp ?_⟩
  rintro i j ⟨hle, hne⟩
  exact hasMoreDemand_iff.mp (hasMoreDemand_of_not hle hne)

namespace SortedByDecDemand

theorem eq_sort (h : SortedByDecDemand children order) :
    order = childrenSortedByDecDemand children := by
  have h' := sortedByDecDemand_sort children
  refine (h.perm.trans h'.perm.symm).eq_of_pairwise ?_ h.sorted h'.sorted
  rintro i j - - hij hji
  omega

theorem mem_iff (h : SortedByDecDemand children order) : i ∈ order ↔ i < children.length := by
  rw [h.perm.mem_iff, List.mem_range]

theorem nodup (h : SortedByDecDemand children order) : order.Nodup :=
  h.perm.nodup_iff.mpr List.nodup_range

end SortedByDecDemand

end Order

section LargestFirst

variable {children : List ChildFlowInfo} {wantDemand : ℤ}

/-- The children of a list become LOPRI. -/
def markLopri (lopriChildren : List Bool) (picked : List ℕ) : List Bool :=
  picked.foldl (fun lopriChildren childI => lopriChildren.set childI true) lopriChildren

theorem getElem?_markLopri (lopriChildren : List Bool) (picked : List ℕ) (i : ℕ) :
    (markLopri lopriChildren picked)[i]? =
      lopriChildren[i]?.map fun lopri => lopri || decide (i ∈ picked) := by
  induction picked generalizing lopriChildren with
  | nil => simp [markLopri]
  | cons childI picked ih =>
    have hstep : markLopri lopriChildren (childI :: picked) =
        markLopri (lopriChildren.set childI true) picked := rfl
    rw [hstep, ih, List.getElem?_set']
    split_ifs with hi
    · subst hi
      cases lopriChildren[childI]? with
      | none => rfl
      | some lopri => simp
    · simp [Ne.symm hi]

theorem greedyAssign_punishOnlyLargest (rest : List ℕ) (curDemand : ℤ)
    (lopriChildren : List Bool) (hnodup : rest.Nodup)
    (hhipri : ∀ i ∈ rest, lopriChildren.getD i false = false) :
    greedyAssignToMinimizeGap children true true wantDemand rest curDemand lopriChildren =
      markLopri lopriChildren (rest.take (NearestPrefix.count wantDemand curDemand
        (rest.map (volumeOf children)))) := by
  induction rest generalizing curDemand lopriChildren with
  | nil => rfl
  | cons childI rest ih =>
    obtain ⟨hnew, hnodup⟩ := List.nodup_cons.mp hnodup
    obtain ⟨hchild, hrest⟩ := List.forall_mem_cons.mp hhipri
    have hrest' : ∀ i ∈ rest, (lopriChildren.set childI true).getD i false = false := by
      intro i hi
      have hne : childI ≠ i := fun heq => hnew (heq ▸ hi)
      rw [List.getD_eq_getElem?_getD, List.getElem?_set_ne hne, ← List.getD_eq_getElem?_getD]
      exact hrest i hi
    rw [greedyAssignToMinimizeGap, List.map_cons, NearestPrefix.count, hchild]
    by_cases hlt : wantDemand < curDemand + volumeOf children childI
    · by_cases hgap : 2 * wantDemand - curDemand < curDemand + volumeOf children childI
      · have hfar : ¬ curDemand + volumeOf children childI - wantDemand ≤
            wantDemand - curDemand := by omega
        simp [hlt, hgap, hfar, markLopri]
      · have hnear : curDemand + volumeOf children childI - wantDemand ≤
            wantDemand - curDemand := by omega
        simp [hlt, hgap, hnear, markLopri]
    · simp only [hlt, false_and, if_false, Bool.false_eq_true, List.take_succ_cons]
      exact ih _ _ hnodup hrest'

theorem volumeOf_nonneg (hvol : ∀ c ∈ children, 0 ≤ c.volumeBps) (i : ℕ) :
    0 ≤ volumeOf children i := by
  rw [volumeOf, List.getD_eq_getElem?_getD]
  cases hc : children[i]? with
  | none => exact le_refl _
  | some c => exact hvol c (List.mem_of_getElem? hc)

theorem truncInt_of_nonneg {q : ℚ} (h : 0 ≤ q) : truncInt q = ⌊q⌋ := if_pos h

theorem markLopri_replicate (n : ℕ) (picked : List ℕ) :
    markLopri (List.replicate n false) picked =
      (List.range n).map fun i => decide (i ∈ picked) := by
  refine List.ext_getElem? fun i => ?_
  rw [getElem?_markLopri, List.getElem?_replicate, List.getElem?_map]
  by_cases hi : i < n
  · simp [hi]
  · simp [hi]

variable {aggInfo : AggInfoView} {wantFracLopri : ℚ} {order : List ℕ}

theorem LargestFirstDowngradeSelector.pickLopriChildren_eq
    (htotal : 0 < totalDemand aggInfo.children) (hfrac : 0 ≤ wantFracLopri)
    (horder : SortedByDecDemand aggInfo.children order)
    (hwant : wantDemand = ⌊wantFracLopri * totalDemand aggInfo.children⌋) :
    pickLopriChildren aggInfo wantFracLopri = (List.range aggInfo.children.length).map fun i =>
      decide (i ∈ order.take (NearestPrefix.count wantDemand 0
        (order.map (volumeOf aggInfo.children)))) := by
  have hq : 0 ≤ wantFracLopri * totalDemand aggInfo.children :=
    mul_nonneg hfrac (by exact_mod_cast htotal.le)
  rw [pickLopriChildren, ← horder.eq_sort, truncInt_of_nonneg hq, ← hwant, ← markLopri_replicate]
  simp only [if_neg htotal.ne']
  refine greedyAssign_punishOnlyLargest order 0 _ horder.nodup fun i _ => ?_
  rw [List.getD_eq_getElem?_getD, List.getElem?_replicate]
  split_ifs <;> rfl

/--
The LOPRI children are a prefix of the children by decreasing volume, and no prefix has a
volume nearer to the wanted one.
-/
theorem LargestFirstDowngradeSelector.pickLopriChildren_nearest
    (hvol : ∀ c ∈ aggInfo.children, 0 ≤ c.volumeBps)
    (htotal : 0 < totalDemand aggInfo.children) (hfrac : 0 ≤ wantFracLopri)
    (horder : SortedByDecDemand aggInfo.children order)
    (hwant : wantDemand = ⌊wantFracLopri * totalDemand aggInfo.children⌋) :
    ∃ k ≤ order.length,
      pickLopriChildren aggInfo wantFracLopri =
        ((List.range aggInfo.children.length).map fun i => decide (i ∈ order.take k)) ∧
      ∀ k' ≤ order.length,
        |((order.take k).map (volumeOf aggInfo.children)).sum - wantDemand| ≤
          |((order.take k').map (volumeOf aggInfo.children)).sum - wantDemand| := by
  refine ⟨_, ?_, pickLopriChildren_eq htotal hfrac horder hwant, fun k' _ => ?_⟩
  · exact (NearestPrefix.count_le_length _ _ _).trans_eq (List.length_map _)
  · have hzero : 0 ≤ wantDemand := by
      rw [hwant]
      exact Int.floor_nonneg.mpr (mul_nonneg hfrac (by exact_mod_cast htotal.le))
    have hnonneg : ∀ v ∈ order.map (volumeOf aggInfo.children), 0 ≤ v := by
      intro v hv
      obtain ⟨i, -, rfl⟩ := List.mem_map.mp hv
      exact volumeOf_nonneg hvol i
    simpa only [zero_add, ← List.map_take] using NearestPrefix.abs_sub_count_le hzero hnonneg k'

def fourChildren : AggInfoView where
  children := [{ volumeBps := 10 }, { volumeBps := 40 }, { volumeBps := 20 }, { volumeBps := 30 }]

theorem pickLopriChildren_nearest_fourChildren :
    ∃ k ≤ 4,
      LargestFirstDowngradeSelector.pickLopriChildren fourChildren (3 / 5) =
        ((List.range 4).map fun i => decide (i ∈ [1, 3, 2, 0].take k)) ∧
      ∀ k' ≤ 4,
        |(([1, 3, 2, 0].take k).map (volumeOf fourChildren.children)).sum - 60| ≤
          |(([1, 3, 2, 0].take k').map (volumeOf fourChildren.children)).sum - 60| :=
  LargestFirstDowngradeSelector.pickLopriChildren_nearest (by decide) (by decide) (by norm_num)
    (sortedByDecDemand_sort fourChildren.children) (by decide +kernel)

end LargestFirst

section BothWays

variable {children : List ChildFlowInfo} {state : Bool} {wantDemand : ℤ}

def classDemand (children : List ChildFlowInfo) (state : Bool) (lopriChildren : List Bool) : ℤ :=
  (children.zipWith (fun c lopri => if lopri = state then c.volumeBps else 0) lopriChildren).sum

theorem classDemand_set {lopriChildren : List Bool} {i : ℕ}
    (hlen : children.length = lopriChildren.length) (hi : lopriChildren[i]? = some (!state)) :
    classDemand children state (lopriChildren.set i state) =
      classDemand children state lopriChildren + volumeOf children i := by
  induction children generalizing lopriChildren i with
  | nil =>
    rw [List.length_eq_zero_iff.mp hlen.symm] at hi
    simp at hi
  | cons c children ih =>
    cases lopriChildren with
    | nil => simp at hi
    | cons lopri lopriChildren =>
      cases i with
      | zero =>
        obtain rfl : lopri = !state := by simpa using hi
        simp [classDemand, volumeOf]
        ring
      | succ i =>
        have hset := ih (Nat.succ.inj hlen) (by simpa using hi)
        simp only [classDemand, volumeOf, List.set_cons_succ, List.zipWith_cons_cons,
          List.sum_cons, List.getD_cons_succ] at hset ⊢
        rw [hset]
        ring

theorem lopriDemand_eq (children : List ChildFlowInfo) :
    lopriDemand children = classDemand children true (children.map (·.currentlyLopri)) := by
  rw [lopriDemand, classDemand, List.zipWith_map_right, List.zipWith_self]

theorem totalDemand_sub_lopriDemand (children : List ChildFlowInfo) :
    totalDemand children - lopriDemand children =
      classDemand children false (children.map (·.currentlyLopri)) := by
  rw [sub_eq_iff_eq_add, lopriDemand_eq]
  induction children with
  | nil => rfl
  | cons c children ih =>
    simp only [totalDemand, classDemand, List.map_cons, List.sum_cons, List.zipWith_cons_cons]
      at ih ⊢
    rw [ih]
    cases c.currentlyLopri <;> simp <;> ring

/--
Children have only moved to a class, whose demand is as near to the target as it was;
and no child that was considered and left out could join the class without leading beyond
the target.
-/
structure MovedTo (children : List ChildFlowInfo) (state : Bool) (wantDemand : ℤ)
    (considered : List ℕ) (before lopriChildren : List Bool) : Prop where
  length_eq : lopriChildren.length = before.length
  oneWay : ∀ i : ℕ, before[i]? = some state → lopriChildren[i]? = some state
  grows : classDemand children state before ≤ classDemand children state lopriChildren
  gap : |classDemand children state lopriChildren - wantDemand| ≤
    |classDemand children state before - wantDemand|
  leftOut : ∀ i ∈ considered, lopriChildren[i]? = some (!state) →
    wantDemand < classDemand children state lopriChildren + volumeOf children i

namespace MovedTo

variable {before lopriChildren : List Bool} {rest : List ℕ} {childI : ℕ}

theorem refl (lopriChildren : List Bool) :
    MovedTo children state wantDemand [] lopriChildren lopriChildren where
  length_eq := rfl
  oneWay := fun _ h => h
  grows := le_refl _
  gap := le_refl _
  leftOut := fun _ h => absurd h List.not_mem_nil

theorem skip (h : MovedTo children state wantDemand rest before lopriChildren)
    (hskip : before[childI]? = some state ∨
      wantDemand < classDemand children state before + volumeOf children childI) :
    MovedTo children state wantDemand (childI :: rest) before lopriChildren := by
  refine ⟨h.length_eq, h.oneWay, h.grows, h.gap, fun i hi hout => ?_⟩
  rcases List.mem_cons.mp hi with rfl | hi
  · rcases hskip with hin | hlarge
    · rw [h.oneWay i hin] at hout
      cases state <;> cases hout
    · exact hlarge.trans_le (add_le_add_left h.grows _)
  · exact h.leftOut i hi hout

theorem move (hlen : children.length = before.length) (hout : before[childI]? = some (!state))
    (hvol : 0 ≤ volumeOf children childI)
    (hnear : |classDemand children state before + volumeOf children childI - wantDemand| ≤
      |classDemand children state before - wantDemand|)
    (h : MovedTo children state wantDemand rest (before.set childI state) lopriChildren) :
    MovedTo children state wantDemand (childI :: rest) before lopriChildren := by
  have hdemand := classDemand_set hlen hout
  have hlt : childI < before.length := (List.getElem?_eq_some_iff.mp hout).1
  have hin : lopriChildren[childI]? = some state := h.oneWay childI (List.getElem?_set_self hlt)
  refine ⟨?_, fun i hi => h.oneWay i ?_, ?_, ?_, fun i hi hleft => ?_⟩
  · rw [h.length_eq, List.length_set]
  · rw [List.getElem?_set]
    split_ifs with heq
    · rfl
    · exact hi
  · have hgrows := h.grows
    omega
  · refine h.gap.trans ?_
    rwa [hdemand]
  · rcases List.mem_cons.mp hi with rfl | hi
    · rw [hin] at hleft
      cases state <;> cases hleft
    · exact h.leftOut i hi hleft

end MovedTo

/-- What the greedy assignment does with children that it may also pass over. -/
theorem movedTo_greedyAssign (hvol : ∀ c ∈ children, 0 ≤ c.volumeBps) (rest : List ℕ)
    (lopriChildren : List Bool) (hlen : children.length = lopriChildren.length)
    (hrest : ∀ i ∈ rest, i < children.length)
    (hle : classDemand children state lopriChildren ≤ wantDemand) :
    MovedTo children state wantDemand rest lopriChildren
      (greedyAssignToMinimizeGap children state false wantDemand rest
        (classDemand children state lopriChildren) lopriChildren) := by
  induction rest generalizing lopriChildren with
  | nil => exact MovedTo.refl lopriChildren
  | cons childI rest ih =>
    obtain ⟨hchild, hrest⟩ := List.forall_mem_cons.mp hrest
    have hnonneg := volumeOf_nonneg hvol childI
    have hbit : lopriChildren[childI]? = some (lopriChildren.getD childI false) := by
      rw [hlen] at hchild
      rw [List.getD_eq_getElem?_getD, List.getElem?_eq_getElem hchild]
      rfl
    rw [greedyAssignToMinimizeGap]
    simp only [Bool.false_eq_true, and_false, if_false]
    split_ifs with hin hskip
    · exact (ih lopriChildren hlen hrest hle).skip (.inl (hin ▸ hbit))
    · exact (ih lopriChildren hlen hrest hle).skip (.inr hskip.1)
    · have hout : lopriChildren[childI]? = some (!state) := by
        rw [hbit, Bool.eq_not_of_ne hin]
      have hdemand := classDemand_set hlen hout
      by_cases hlt : wantDemand < classDemand children state lopriChildren + volumeOf children childI
      · -- only the last child may lead beyond the target
        obtain ⟨rfl, hgap⟩ : rest = [] ∧ ¬ 2 * wantDemand - classDemand children state lopriChildren <
            classDemand children state lopriChildren + volumeOf children childI := by
          simpa [hlt] using hskip
        refine MovedTo.move hlen hout hnonneg ?_ (MovedTo.refl _)
        rw [abs_of_nonneg (by omega), abs_of_nonpos (by omega)]
        omega
      · refine MovedTo.move hlen hout hnonneg ?_ ?_
        · rw [abs_of_nonpos (by omega), abs_of_nonpos (by omega)]
          omega
        · rw [← hdemand]
          refine ih _ (by rwa [List.length_set]) hrest ?_
          omega

theorem movedTo_sorted (hvol : ∀ c ∈ children, 0 ≤ c.volumeBps)
    (hle : classDemand children state (children.map (·.currentlyLopri)) ≤ wantDemand) :
    MovedTo children state wantDemand (List.range children.length) (children.map (·.currentlyLopri))
      (greedyAssignToMinimizeGap children state false wantDemand
        (childrenSortedByDecDemand children)
        (classDemand children state (children.map (·.currentlyLopri)))
        (children.map (·.currentlyLopri))) := by
  have hsorted := sortedByDecDemand_sort children
  have h := movedTo_greedyAssign hvol (childrenSortedByDecDemand children) _
    (List.length_map _).symm (fun i hi => hsorted.mem_iff.mp hi) hle
  exact ⟨h.length_eq, h.oneWay, h.grows, h.gap,
    fun i hi => h.leftOut i (hsorted.mem_iff.mpr (List.mem_range.mp hi))⟩

variable {aggInfo : AggInfoView} {wantFracLopri : ℚ}

theorem classDemand_le_target (wantFracLopri : ℚ) (htotal : 0 < totalDemand children) :
    (wantFracLopri < (lopriDemand children : ℚ) / totalDemand children →
      totalDemand children - lopriDemand children ≤ ⌊(1 - wantFracLopri) * totalDemand children⌋) ∧
    (¬ wantFracLopri < (lopriDemand children : ℚ) / totalDemand children →
      lopriDemand children ≤ ⌊wantFracLopri * totalDemand children⌋) := by
  have hpos : (0 : ℚ) < totalDemand children := by exact_mod_cast htotal
  constructor
  · intro hlt
    rw [lt_div_iff₀ hpos] at hlt
    rw [Int.le_floor]
    push_cast
    linarith
  · intro hle
    rw [not_lt, div_le_iff₀ hpos] at hle
    exact Int.le_floor.mpr hle

/--
If the share of LOPRI demand is above the target then children only move to HIPRI, and
otherwise only to LOPRI.  The class that grows does not get further from its target, and
every child outside of it would lead beyond the target.
-/
theorem HeypSigcomm20DowngradeSelector.movedTo_pickLopriChildren
    (hvol : ∀ c ∈ aggInfo.children, 0 ≤ c.volumeBps)
    (htotal : 0 < totalDemand aggInfo.children) (hfrac : 0 ≤ wantFracLopri)
    (hfrac' : wantFracLopri ≤ 1) :
    (wantFracLopri < (lopriDemand aggInfo.children : ℚ) / totalDemand aggInfo.children →
      MovedTo aggInfo.children false ⌊(1 - wantFracLopri) * totalDemand aggInfo.children⌋
        (List.range aggInfo.children.length) (aggInfo.children.map (·.currentlyLopri))
        (pickLopriChildren aggInfo wantFracLopri)) ∧
    (¬ wantFracLopri < (lopriDemand aggInfo.children : ℚ) / totalDemand aggInfo.children →
      MovedTo aggInfo.children true ⌊wantFracLopri * totalDemand aggInfo.children⌋
        (List.range aggInfo.children.length) (aggInfo.children.map (·.currentlyLopri))
        (pickLopriChildren aggInfo wantFracLopri)) := by
  have hpos : (0 : ℚ) ≤ totalDemand aggInfo.children := by exact_mod_cast htotal.le
  obtain ⟨hhipri, hlopri⟩ := classDemand_le_target wantFracLopri htotal
  rw [totalDemand_sub_lopriDemand] at hhipri
  rw [pickLopriChildren, totalDemand_sub_lopriDemand]
  constructor
  · intro hlt
    simp only [if_neg htotal.ne', if_pos hlt,
      truncInt_of_nonneg (mul_nonneg (sub_nonneg.mpr hfrac') hpos)]
    exact movedTo_sorted hvol (hhipri hlt)
  · intro hle
    simp only [if_neg htotal.ne', if_neg hle, truncInt_of_nonneg (mul_nonneg hfrac hpos)]
    have hwant := hlopri hle
    rw [lopriDemand_eq] at hwant ⊢
    exact movedTo_sorted hvol hwant

def twoLopri : AggInfoView where
  children := [{ volumeBps := 10, currentlyLopri := true }, { volumeBps := 40, currentlyLopri := true },
    { volumeBps := 20 }, { volumeBps := 30 }]

theorem movedTo_pickLopriChildren_twoLopri :
    MovedTo twoLopri.children false 60 [0, 1, 2, 3] [true, true, false, false]
        (HeypSigcomm20DowngradeSelector.pickLopriChildren twoLopri (2 / 5)) ∧
      MovedTo twoLopri.children true 80 [0, 1, 2, 3] [true, true, false, false]
        (HeypSigcomm20DowngradeSelector.pickLopriChildren twoLopri (4 / 5)) := by
  have hhipri : ⌊(1 - 2 / 5 : ℚ) * totalDemand twoLopri.children⌋ = 60 := by decide +kernel
  have hlopri : ⌊(4 / 5 : ℚ) * totalDemand twoLopri.children⌋ = 80 := by decide +kernel
  rw [← hhipri, ← hlopri]
  refine ⟨(HeypSigcomm20DowngradeSelector.movedTo_pickLopriChildren (by decide) (by decide)
    (by norm_num) (by norm_num)).1 (by decide +kernel), ?_⟩
  exact (HeypSigcomm20DowngradeSelector.movedTo_pickLopriChildren (by decide) (by decide)
    (by norm_num) (by norm_num)).2 (by decide +kernel)

end BothWays

end HeypAgents
