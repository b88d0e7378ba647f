import HeypAgents.Alg.HybridQsort

/-!
# Selection by `NthElement`

`NthElement` narrows the range around `nth` with the partitions of
`hybrid_qsort.h` and finishes small ranges with `NthElementScratch`.  The
partition of a large range returns the bounds of its middle part; when that part
is empty and the partition ends exactly at `nth`, the loop keeps the lower part
although `nth` belongs to the upper one.
-/

namespace HeypAgents
namespace NthElement

open HybridQsort

variable {α : Type*}

section Definitions

variable (comp : WeakOrder α)

theorem parts_length_lt {xs : List α} {p : Parts α}
    (h : partitionInto comp (moveMedianOfThreeToEnd comp xs) = some p) :
    p.smalls.length < xs.length ∧ p.larges.length < xs.length := by
  have hlen := ((partitionInto_spec h).1.trans (moveMedianOfThreeToEnd_perm _ xs)).length_eq
  simp only [Parts.toList, List.length_append, List.length_cons] at hlen
  omega

mutual

/-- The contents of `out`. -/
def nthElementInto (xs : List α) (nth : ℕ) : List α :=
  if kSmallSortThreshold < xs.length then
    match _h : partitionInto comp (moveMedianOfThreeToEnd comp xs) with
    | none => xs
    | some p =>
      if p.smalls.length < nth then
        p.smalls ++ p.pivot :: nthElementScratch p.larges (nth - (p.smalls.length + 1))
      else if nth < p.smalls.length then
        nthElementScratch p.smalls nth ++ p.pivot :: p.larges
      else
        p.toList
  else
    smallSort comp xs
termination_by xs.length
decreasing_by
  · exact (parts_length_lt comp _h).2
  · exact (parts_length_lt comp _h).1

/-- The contents of `[first, last)`. -/
def nthElementScratch (xs : List α) (nth : ℕ) : List α :=
  if kSmallSortThreshold < xs.length then
    match _h : partitionInto comp (moveMedianOfThreeToEnd comp xs) with
    | none => xs
    | some p =>
      if p.smalls.length < nth then
        p.smalls ++ p.pivot :: nthElementInto p.larges (nth - (p.smalls.length + 1))
      else if nth < p.smalls.length then
        nthElementInto p.smalls nth ++ p.pivot :: p.larges
      else
        p.toList
  else
    smallSort comp xs
termination_by xs.length
decreasing_by
  · exact (parts_length_lt comp _h).2
  · exact (parts_length_lt comp _h).1

end

/-- The array and the local variables of `NthElement`. -/
structure LoopState (α : Type*) where
  xs : List α
  first : ℕ
  last : ℕ
  returned : Bool := false

/-- The elements of `[first, last)`. -/
def LoopState.range (s : LoopState α) : List α := (s.xs.take s.last).drop s.first

/-- The array with `[first, last)` replaced. -/
def LoopState.setRange (s : LoopState α) (r : List α) : List α :=
  s.xs.take s.first ++ (r ++ s.xs.drop s.last)

def loopCond (nth : ℕ) (s : LoopState α) : Bool :=
  !s.returned && decide (s.first ≤ nth) && decide (nth ≤ s.last)

variable (part : StdPartition α)

def loopBody (nth : ℕ) (s : LoopState α) : LoopState α :=
  if kScratchSize < s.last - s.first then
    match choosePivotAndPartition comp part s.range with
    | none => s
    | some q =>
      if s.first + q.plo < nth then
        { s with xs := s.setRange q.range, first := s.first + q.phi }
      else
        { s with xs := s.setRange q.range, last := s.first + q.plo }
  else
    { s with
      xs := s.setRange (nthElementScratch comp s.range (nth - s.first))
      returned := true }

/-- The state in which the loop starts. -/
def loopStart (xs : List α) : LoopState α := { xs := xs, first := 0, last := xs.length }

/-- The range `[first, last)` after `NthElement(first, first + nth, last, comp)`. -/
def nthElement (xs : List α) (nth : ℕ) : List α :=
  (While.loop (loopCond nth) (loopBody comp part nth) (xs.length + 1) (loopStart xs)).xs

/--
The partition of a large range ends exactly at `nth` with an empty middle part, and
the element that it leaves there is not a smallest one of the upper part.
-/
def MissesAt (nth : ℕ) (s : LoopState α) : Prop :=
  kScratchSize < s.last - s.first ∧
    ∃ q, choosePivotAndPartition comp part s.range = some q ∧
      s.first + q.plo = nth ∧ q.phi = q.plo ∧
      ¬ comp.Selected (q.range.drop q.plo) 0

/-- No iteration of the call misses `nth`. -/
def Lands (xs : List α) (nth : ℕ) : Prop :=
  While.Always (loopCond nth) (loopBody comp part nth)
    (fun s => ¬ MissesAt comp part nth s) (xs.length + 1) (loopStart xs)

end Definitions

section SmallRanges

variable {comp : WeakOrder α}

theorem select_of_parts {xs low high : List α} {p : Parts α} {nth : ℕ} (hperm : p.toList.Perm xs)
    (hs : ∀ s ∈ p.smalls, comp.lt s p.pivot = true) (hl : ∀ l ∈ p.larges, comp.le p.pivot l)
    (hlow : low.Perm p.smalls ∧ (nth < p.smalls.length → comp.Selected low nth))
    (hhigh : high.Perm p.larges ∧
      (nth - (p.smalls.length + 1) < p.larges.length →
        comp.Selected high (nth - (p.smalls.length + 1)))) :
    let r :=
      if p.smalls.length < nth then p.smalls ++ p.pivot :: high
      else if nth < p.smalls.length then low ++ p.pivot :: p.larges
      else p.toList
    r.Perm xs ∧ (nth < xs.length → comp.Selected r nth) := by
  have hs' : ∀ s ∈ p.smalls, comp.le s p.pivot := fun s h => WeakOrder.le_of_lt (hs s h)
  have hlen := hperm.length_eq
  simp only [Parts.toList, List.length_append, List.length_cons] at hlen
  intro r
  simp only [r]
  split_ifs with hright hleft
  · refine ⟨((hhigh.1.cons _).append_left _).trans hperm, fun hnth => ?_⟩
    have hsel := hhigh.2 (by omega)
    have hbelow : comp.Below (p.smalls ++ [p.pivot]) high := by
      refine WeakOrder.below_of_pivot (p := p.pivot) ?_ ?_
      · intro a ha
        rcases List.mem_append.mp ha with ha | ha
        · exact hs' a ha
        · obtain rfl := List.mem_singleton.mp ha
          exact WeakOrder.le_refl _
      · exact fun b hb => hl b (hhigh.1.mem_iff.mp hb)
    have := hsel.append_left hbelow
    rw [List.append_assoc, List.singleton_append] at this
    convert this using 1
    simp
    omega
  · refine ⟨(hlow.1.append_right _).trans hperm, fun _ => ?_⟩
    refine (hlow.2 hleft).append_right ?_
    intro a ha b hb
    have ha' := hs' a (hlow.1.mem_iff.mp ha)
    rcases List.mem_cons.mp hb with rfl | hb
    · exact ha'
    · exact WeakOrder.le_trans ha' (hl b hb)
  · obtain rfl : nth = p.smalls.length := by omega
    exact ⟨hperm, fun _ => WeakOrder.selected_middle hs' hl⟩

theorem nthElement_small_spec (comp : WeakOrder α) (xs : List α) (nth : ℕ) :
    ((nthElementInto comp xs nth).Perm xs ∧
        (nth < xs.length → comp.Selected (nthElementInto comp xs nth) nth)) ∧
      (nthElementScratch comp xs nth).Perm xs ∧
        (nth < xs.length → comp.Selected (nthElementScratch comp xs nth) nth) := by
  induction hn : xs.length using Nat.strongRecOn generalizing xs nth with
  | ind n ih =>
    subst hn
    rw [nthElementInto, nthElementScratch]
    split_ifs with hbig
    · have hne : moveMedianOfThreeToEnd comp xs ≠ [] := by
        intro h
        have := (moveMedianOfThreeToEnd_perm comp xs).length_eq
        simp [h] at this
        omega
      obtain ⟨p, hp⟩ := partitionInto_isSome comp hne
      obtain ⟨hperm, hs, hl⟩ := partitionInto_spec hp
      obtain ⟨hslt, hllt⟩ := parts_length_lt comp hp
      have hperm' := hperm.trans (moveMedianOfThreeToEnd_perm _ xs)
      have hlow := ih _ hslt p.smalls nth rfl
      have hhigh := ih _ hllt p.larges (nth - (p.smalls.length + 1)) rfl
      split
      · rename_i h
        simp [hp] at h
      · rename_i q h
        obtain rfl : p = q := by simpa [hp] using h
        exact ⟨select_of_parts hperm' hs hl hlow.2 hhigh.2,
          select_of_parts hperm' hs hl hlow.1 hhigh.1⟩
    · obtain ⟨hsort, hpair⟩ := bubbleSort2_spec comp xs
      have hsel : nth < xs.length → comp.Selected (smallSort comp xs) nth := fun h =>
        WeakOrder.selected_of_pairwise hpair (by rw [smallSort, hsort.length_eq]; exact h)
      exact ⟨⟨hsort, hsel⟩, hsort, hsel⟩

end SmallRanges

section Loop

variable {comp : WeakOrder α} {part : StdPartition α} {nth : ℕ}

/-- The array cut at `first` and `last`. -/
structure Segments (s : LoopState α) (left range right : List α) : Prop where
  xs : s.xs = left ++ (range ++ right)
  first : s.first = left.length
  last : s.last = left.length + range.length

section Segments

variable {s : LoopState α} {left range right : List α}

theorem Segments.range_eq (h : Segments s left range right) : s.range = range := by
  rw [LoopState.range, h.xs, h.first, h.last, ← List.append_assoc, ← List.length_append,
    List.take_left, List.drop_left]

theorem Segments.setRange_eq (h : Segments s left range right) (r : List α) :
    s.setRange r = left ++ (r ++ right) := by
  have hdrop : s.xs.drop s.last = right := by
    rw [h.xs, h.last, ← List.append_assoc, ← List.length_append, List.drop_left]
  rw [LoopState.setRange, hdrop, h.xs, h.first, List.take_left]

theorem Segments.setRange_perm (h : Segments s left range right) {r : List α} (hr : r.Perm range) :
    (s.setRange r).Perm s.xs := by
  rw [h.setRange_eq, h.xs]
  exact (hr.append_right right).append_left left

theorem Segments.width (h : Segments s left range right) : s.last - s.first = range.length := by
  rw [h.first, h.last]
  omega

variable {low mid high : List α} {q : Pivoted α} {pivot : α}

theorem Segments.above (h : Segments s left range right)
    (hq : PivotedSpec comp range q pivot low mid high) :
    Segments { s with xs := s.setRange q.range, first := s.first + q.phi }
      (left ++ (low ++ mid)) high right := by
  have hlen : range.length = low.length + mid.length + high.length := by
    rw [← hq.perm.length_eq, hq.range]
    simp [add_assoc]
  have hfirst := h.first
  have hlast := h.last
  have hphi := hq.phi
  refine ⟨?_, ?_, ?_⟩
  · rw [h.setRange_eq, hq.range]
    simp
  · simp only [List.length_append]
    omega
  · simp only [List.length_append]
    omega

theorem Segments.below (h : Segments s left range right)
    (hq : PivotedSpec comp range q pivot low mid high) :
    Segments { s with xs := s.setRange q.range, last := s.first + q.plo }
      left low (mid ++ high ++ right) := by
  refine ⟨?_, h.first, ?_⟩
  · rw [h.setRange_eq, hq.range]
    simp
  · rw [← hq.plo, ← h.first]

theorem Segments.small
    (h : Segments s left range right) {r : List α} (hr : r.length = range.length) :
    Segments { s with xs := s.setRange r, returned := true } left r right :=
  ⟨h.setRange_eq r, h.first, by rw [hr]; exact h.last⟩

theorem Segments.loopBody_cases (comp : WeakOrder α) (part : StdPartition α)
    (h : Segments s left range right) (nth : ℕ) :
    (kScratchSize < s.last - s.first ∧
      ∃ q pivot low mid high,
        choosePivotAndPartition comp part s.range = some q ∧
        PivotedSpec comp range q pivot low mid high ∧
        loopBody comp part nth s =
          if s.first + q.plo < nth then
            { s with xs := s.setRange q.range, first := s.first + q.phi }
          else
            { s with xs := s.setRange q.range, last := s.first + q.plo }) ∨
    loopBody comp part nth s =
      { s with
        xs := s.setRange (nthElementScratch comp s.range (nth - s.first))
        returned := true } := by
  unfold loopBody
  by_cases hlarge : kScratchSize < s.last - s.first
  · refine .inl ⟨hlarge, ?_⟩
    have hrange : kScratchSize < s.range.length := by rwa [h.range_eq, ← h.width]
    obtain ⟨q, pivot, low, mid, high, hchoose, hq⟩ := choosePivotAndPartition_spec comp part hrange
    exact ⟨q, pivot, low, mid, high, hchoose, h.range_eq ▸ hq, by simp [hlarge, hchoose]⟩
  · exact .inr (by simp [hlarge])

end Segments

/-- Where the element of position `nth` is. -/
inductive Target (comp : WeakOrder α) (nth : ℕ) (returned : Bool)
    (left range right : List α) : Prop where
  | inside :
      returned = false → left.length ≤ nth → nth < left.length + range.length →
      Target comp nth returned left range right
  | onLeft :
      comp.Selected left nth →
      Target comp nth returned left range right
  | onRight :
      left.length + range.length ≤ nth →
      comp.Selected right (nth - (left.length + range.length)) →
      Target comp nth returned left range right
  | found :
      returned = true → comp.Selected (left ++ (range ++ right)) nth →
      Target comp nth returned left range right

structure LoopInv (comp : WeakOrder α) (xs : List α) (nth : ℕ) (s : LoopState α)
    (left range right : List α) : Prop where
  segments : Segments s left range right
  perm : s.xs.Perm xs
  leftBelow : comp.Below left (range ++ right)
  rangeBelow : comp.Below range right
  target : Target comp nth s.returned left range right

theorem loopInv_start {xs : List α} (hnth : nth < xs.length) :
    LoopInv comp xs nth (loopStart xs) [] xs [] where
  segments := ⟨by simp [loopStart], rfl, by simp [loopStart]⟩
  perm := .refl _
  leftBelow := by simp [WeakOrder.Below]
  rangeBelow := by simp [WeakOrder.Below]
  target := .inside rfl (by simp) (by simpa using hnth)

theorem LoopInv.selected {xs left range right : List α} {s : LoopState α}
    (h : LoopInv comp xs nth s left range right) (hexit : loopCond nth s = false) :
    comp.Selected s.xs nth := by
  rw [h.segments.xs]
  cases h.target with
  | inside hret hlo hhi =>
    have hfirst := h.segments.first
    have hlast := h.segments.last
    simp only [loopCond, hret, Bool.not_false, Bool.true_and, Bool.and_eq_false_iff,
      decide_eq_false_iff_not] at hexit
    omega
  | onLeft hsel => exact hsel.append_right h.leftBelow
  | onRight hle hsel =>
    have hbelow : comp.Below (left ++ range) right :=
      WeakOrder.below_append_left.mpr
        ⟨(WeakOrder.below_append_right.mp h.leftBelow).2, h.rangeBelow⟩
    have := hsel.append_left hbelow
    rw [List.length_append, Nat.add_sub_cancel' hle, List.append_assoc] at this
    exact this
  | found _ hsel => exact hsel

section Steps

variable {s : LoopState α} {xs left range right low mid high : List α} {q : Pivoted α} {pivot : α}

theorem cond_bounds (hcond : loopCond nth s = true) :
    s.returned = false ∧ s.first ≤ nth ∧ nth ≤ s.last := by
  simpa [loopCond, and_assoc] using hcond

theorem pivoted_subset (hq : PivotedSpec comp range q pivot low mid high) :
    low ⊆ range ∧ mid ⊆ range ∧ high ⊆ range := by
  have hsubset : low ++ (mid ++ high) ⊆ range := by
    rw [← hq.range]
    exact hq.perm.subset
  simpa only [List.append_subset] using hsubset

theorem pivoted_below (hq : PivotedSpec comp range q pivot low mid high) :
    comp.Below low mid ∧ comp.Below low high ∧ comp.Below mid high := by
  have hlow : ∀ a ∈ low, comp.le a pivot := fun a ha => WeakOrder.le_of_lt (hq.low_lt a ha)
  exact ⟨WeakOrder.below_of_pivot hlow hq.mid_ge, WeakOrder.below_of_pivot hlow hq.high_ge,
    WeakOrder.below_of_pivot hq.mid_le hq.high_ge⟩

theorem selected_mid
    (hq : PivotedSpec comp range q pivot low mid high) {k : ℕ} (hk : k < mid.length) :
    comp.Selected mid k := by
  refine WeakOrder.selected_of_pairwise ?_ hk
  refine List.pairwise_of_forall_mem_list ?_
  intro a ha b hb
  exact WeakOrder.le_trans (hq.mid_le a ha) (hq.mid_ge b hb)

theorem LoopInv.part_between
    (h : LoopInv comp xs nth s left range right) {part : List α} (hpart : part ⊆ range) :
    comp.Below left part ∧ comp.Below part right := by
  obtain ⟨hleft, -⟩ := WeakOrder.below_append_right.mp h.leftBelow
  exact ⟨hleft.mono (List.Subset.refl _) hpart, h.rangeBelow.mono hpart (List.Subset.refl _)⟩

theorem LoopInv.selected_equal (h : LoopInv comp xs nth s left range right)
    (hq : PivotedSpec comp range q pivot low mid high) (hlow : left.length + low.length ≤ nth)
    (hmid : nth < left.length + (low.length + mid.length)) :
    comp.Selected (left ++ (low ++ mid)) nth := by
  have hsel := selected_mid hq (k := nth - (left.length + low.length)) (by omega)
  have hbelow : comp.Below (left ++ low) mid :=
    WeakOrder.below_append_left.mpr
      ⟨(h.part_between (pivoted_subset hq).2.1).1, (pivoted_below hq).1⟩
  have := hsel.append_left hbelow
  rw [List.length_append, Nat.add_sub_cancel' (by omega), List.append_assoc] at this
  exact this

theorem LoopInv.above (h : LoopInv comp xs nth s left range right)
    (hq : PivotedSpec comp range q pivot low mid high) (hcond : loopCond nth s = true)
    (habove : s.first + q.plo < nth) :
    LoopInv comp xs nth { s with xs := s.setRange q.range, first := s.first + q.phi }
      (left ++ (low ++ mid)) high right := by
  have hlen : range.length = low.length + mid.length + high.length := by
    rw [← hq.perm.length_eq, hq.range]
    simp [add_assoc]
  obtain ⟨hlow, hmid, hhigh⟩ := pivoted_subset hq
  obtain ⟨-, hlowhigh, hmidhigh⟩ := pivoted_below hq
  obtain ⟨-, hleftright⟩ := WeakOrder.below_append_right.mp h.leftBelow
  have hsfirst := h.segments.first
  have hslast := h.segments.last
  have hplo := hq.plo
  have hphi := hq.phi
  refine ⟨h.segments.above hq, (h.segments.setRange_perm hq.perm).trans h.perm, ?_,
    (h.part_between hhigh).2, ?_⟩
  · simp only [WeakOrder.below_append_left, WeakOrder.below_append_right]
    exact ⟨⟨(h.part_between hhigh).1, hlowhigh, hmidhigh⟩, hleftright,
      (h.part_between hlow).2, (h.part_between hmid).2⟩
  · cases h.target with
    | inside hret hlo hhi =>
      by_cases hmid : nth < left.length + (low.length + mid.length)
      · exact .onLeft (h.selected_equal hq (by omega) hmid)
      · refine .inside hret ?_ ?_
        · simp only [List.length_append]
          omega
        · simp only [List.length_append]
          omega
    | onLeft hsel =>
      have := hsel.lt_length
      have := (cond_bounds hcond).2.1
      omega
    | onRight hle hsel =>
      have hsum : (left ++ (low ++ mid)).length + high.length = left.length + range.length := by
        simp only [List.length_append]
        omega
      exact .onRight (by omega) (by rwa [hsum])
    | found hret _ => simp [(cond_bounds hcond).1] at hret

theorem selected_upper (hq : PivotedSpec comp range q pivot low mid high)
    (hlands : q.phi = q.plo → comp.Selected (q.range.drop q.plo) 0) :
    comp.Selected (mid ++ high) 0 := by
  cases hmid : mid with
  | nil =>
    have hdrop : q.range.drop q.plo = mid ++ high := by
      rw [hq.range, hq.plo, List.drop_left]
    rw [← hmid, ← hdrop]
    refine hlands ?_
    rw [hq.phi, hq.plo, hmid]
    rfl
  | cons v vs =>
    have hv := hq.mid_le v (by simp [hmid])
    have hrest : ∀ b ∈ mid ++ high, comp.le v b :=
      List.forall_mem_append.mpr
        ⟨fun b hb => WeakOrder.le_trans hv (hq.mid_ge b hb),
          fun b hb => WeakOrder.le_trans hv (hq.high_ge b hb)⟩
    refine WeakOrder.selected_head fun b hb => hrest b ?_
    rw [hmid]
    exact List.mem_cons_of_mem _ hb

theorem LoopInv.below (h : LoopInv comp xs nth s left range right)
    (hq : PivotedSpec comp range q pivot low mid high) (hcond : loopCond nth s = true)
    (hbelow : nth ≤ s.first + q.plo)
    (hlands : s.first + q.plo = nth → q.phi = q.plo → comp.Selected (q.range.drop q.plo) 0) :
    LoopInv comp xs nth
      { s with xs := s.setRange q.range, last := s.first + q.plo }
      left low (mid ++ high ++ right) := by
  have hlen : range.length = low.length + (mid ++ high).length := by
    rw [← hq.perm.length_eq, hq.range, List.length_append]
  have hupper_pos := List.length_pos_iff.mpr hq.upper_ne
  obtain ⟨hlow, hmid, hhigh⟩ := pivoted_subset hq
  obtain ⟨hlowmid, hlowhigh, -⟩ := pivoted_below hq
  obtain ⟨-, hleftright⟩ := WeakOrder.below_append_right.mp h.leftBelow
  have hupper : mid ++ high ⊆ range := List.append_subset.mpr ⟨hmid, hhigh⟩
  have hsfirst := h.segments.first
  have hslast := h.segments.last
  have hplo := hq.plo
  refine ⟨h.segments.below hq, (h.segments.setRange_perm hq.perm).trans h.perm, ?_, ?_, ?_⟩
  · rw [WeakOrder.below_append_right, WeakOrder.below_append_right]
    exact ⟨(h.part_between hlow).1, (h.part_between hupper).1, hleftright⟩
  · rw [WeakOrder.below_append_right, WeakOrder.below_append_right]
    exact ⟨⟨hlowmid, hlowhigh⟩, (h.part_between hlow).2⟩
  · cases h.target with
    | inside hret hlo hhi =>
      by_cases hin : nth < left.length + low.length
      · exact .inside hret hlo hin
      · have hnth : nth = left.length + low.length := by omega
        have hsel := selected_upper hq (hlands (by omega))
        refine .onRight hnth.ge ?_
        rw [hnth, Nat.sub_self]
        exact hsel.append_right (h.part_between hupper).2
    | onLeft hsel =>
      have := hsel.lt_length
      have := (cond_bounds hcond).2.1
      omega
    | onRight hle _ => omega
    | found hret _ => simp [(cond_bounds hcond).1] at hret

theorem LoopInv.small (h : LoopInv comp xs nth s left range right) (hcond : loopCond nth s = true) :
    LoopInv comp xs nth
      { s with
        xs := s.setRange (nthElementScratch comp s.range (nth - s.first))
        returned := true }
      left (nthElementScratch comp range (nth - s.first)) right := by
  obtain ⟨hperm, hsel⟩ := (nthElement_small_spec comp range (nth - s.first)).2
  have hlen := hperm.length_eq
  have hsfirst := h.segments.first
  have hslast := h.segments.last
  obtain ⟨hleftrange, hrange⟩ := h.part_between hperm.subset
  have hleft : comp.Below left (nthElementScratch comp range (nth - s.first) ++ right) :=
    WeakOrder.below_append_right.mpr ⟨hleftrange, (WeakOrder.below_append_right.mp h.leftBelow).2⟩
  rw [h.segments.range_eq]
  refine ⟨h.segments.small hlen, (h.segments.setRange_perm hperm).trans h.perm,
    hleft, hrange, ?_⟩
  · cases h.target with
    | inside _ hlo hhi =>
      refine .found rfl ?_
      have hsel' := ((hsel (by omega)).append_right hrange).append_left hleft
      rwa [← hsfirst, Nat.add_sub_cancel' (by omega)] at hsel'
    | onLeft hsel => exact .onLeft hsel
    | onRight hle hsel => exact .onRight (by omega) (by rwa [hlen])
    | found hret _ => simp [(cond_bounds hcond).1] at hret

def loopMeasure (s : LoopState α) : ℕ :=
  if s.returned then 0 else s.last - s.first + 1

theorem Segments.loopBody_measure
    (h : Segments s left range right) (hcond : loopCond nth s = true) :
    loopMeasure (loopBody comp part nth s) < loopMeasure s := by
  have hret := (cond_bounds hcond).1
  rcases h.loopBody_cases comp part nth with
    ⟨hlarge, q, pivot, low, mid, high, -, hq, heq⟩ | heq
  · have hlen := hq.perm.length_eq
    have hlow := List.length_pos_iff.mpr hq.lower_ne
    have hup := List.length_pos_iff.mpr hq.upper_ne
    have hwidth := h.width
    have hplo := hq.plo
    have hphi := hq.phi
    rw [hq.range] at hlen
    simp only [List.length_append] at hlen hlow hup
    rw [heq]
    split_ifs
    · simp only [loopMeasure, hret, Bool.false_eq_true, if_false]
      omega
    · simp only [loopMeasure, hret, Bool.false_eq_true, if_false]
      omega
  · rw [heq]
    simp [loopMeasure, hret]

/-- The array keeps its elements. -/
def Rearranged (xs : List α) (s : LoopState α) : Prop :=
  s.xs.Perm xs ∧ ∃ left range right, Segments s left range right

theorem rearranged_loopBody (h : Rearranged xs s) (nth : ℕ) :
    Rearranged xs (loopBody comp part nth s) := by
  obtain ⟨hperm, left, range, right, hseg⟩ := h
  rcases hseg.loopBody_cases comp part nth with
    ⟨-, q, pivot, low, mid, high, -, hq, heq⟩ | heq
  · rw [heq]
    have hperm' := (hseg.setRange_perm hq.perm).trans hperm
    split_ifs
    · exact ⟨hperm', _, _, _, hseg.above hq⟩
    · exact ⟨hperm', _, _, _, hseg.below hq⟩
  · have hscratch := (nthElement_small_spec comp s.range (nth - s.first)).2.1
    rw [hseg.range_eq] at hscratch
    rw [heq, hseg.range_eq]
    exact ⟨(hseg.setRange_perm hscratch).trans hperm, _, _, _, hseg.small hscratch.length_eq⟩

theorem rearranged_start (xs : List α) : Rearranged xs (loopStart xs) :=
  ⟨.refl _, [], xs, [], by simp [loopStart], rfl, by simp [loopStart]⟩

theorem loop_ends (comp : WeakOrder α) (part : StdPartition α) (xs : List α) (nth : ℕ) :
    let s := While.loop (loopCond nth) (loopBody comp part nth) (xs.length + 1) (loopStart xs)
    Rearranged xs s ∧ loopCond nth s = false :=
  While.loop_spec (C := fun _ => True) (I := Rearranged xs)
    (m := loopMeasure) (loopCond nth) (loopBody comp part nth)
    (fun s hs _ _ => rearranged_loopBody hs nth)
    (fun s hs hcond => by
      obtain ⟨-, left, range, right, hseg⟩ := hs
      exact hseg.loopBody_measure hcond)
    (by simp [loopMeasure, loopStart])
    (While.always_of_forall (fun _ => trivial) (xs.length + 1) _) (rearranged_start xs)

theorem nthElement_perm (comp : WeakOrder α) (part : StdPartition α) (xs : List α) (nth : ℕ) :
    (nthElement comp part xs nth).Perm xs :=
  (loop_ends comp part xs nth).1.1

theorem LoopInv.loopBody (h : LoopInv comp xs nth s left range right)
    (hcond : loopCond nth s = true) (hlands : ¬ MissesAt comp part nth s) :
    ∃ left' range' right', LoopInv comp xs nth (loopBody comp part nth s) left' range' right' := by
  rcases h.segments.loopBody_cases comp part nth with
    ⟨hlarge, q, pivot, low, mid, high, hchoose, hq, heq⟩ | heq
  · rw [heq]
    split_ifs with habove
    · exact ⟨_, _, _, h.above hq hcond habove⟩
    · refine ⟨_, _, _, h.below hq hcond (by omega) fun hnth hphi => ?_⟩
      by_contra hsel
      exact hlands ⟨hlarge, q, hchoose, hnth, hphi, hsel⟩
  · rw [heq]
    exact ⟨_, _, _, h.small hcond⟩

/-- A call that never misses puts the right element at `nth`. -/
theorem nthElement_selected
    {xs : List α} (hnth : nth < xs.length) (hlands : Lands comp part xs nth) :
    comp.Selected (nthElement comp part xs nth) nth := by
  have h := While.loop_spec (C := fun s => ¬ MissesAt comp part nth s)
    (I := fun s => ∃ left range right, LoopInv comp xs nth s left range right)
    (m := loopMeasure) (loopCond nth) (NthElement.loopBody comp part nth)
    (fun s ⟨left, range, right, hs⟩ hcond hC => hs.loopBody hcond hC)
    (fun s ⟨left, range, right, hs⟩ hcond => hs.segments.loopBody_measure hcond)
    (by simp [loopMeasure, loopStart]) hlands ⟨_, _, _, loopInv_start hnth⟩
  obtain ⟨⟨left, range, right, hinv⟩, hexit⟩ := h
  exact hinv.selected hexit

theorem lands_of_length_le {xs : List α} (h : xs.length ≤ kScratchSize) (nth : ℕ) :
    Lands comp part xs nth := by
  intro _
  refine ⟨fun hmiss => absurd hmiss.1 (by simpa [loopStart] using h), ?_⟩
  refine While.always_of_not_cond ?_ _
  have hsmall : ¬ kScratchSize < (loopStart xs).last - (loopStart xs).first := by
    simpa [loopStart] using h
  simp [NthElement.loopBody, hsmall, loopCond]

/-- The element left at `nth` is followed by a smaller one. -/
def Lost (comp : WeakOrder α) (nth : ℕ) (s : LoopState α) : Prop :=
  ∃ left range right, Segments s left range right ∧
    nth = left.length + range.length ∧ ¬ comp.Selected right 0

theorem lost_of_missesAt (h : LoopInv comp xs nth s left range right)
    (hcond : loopCond nth s = true) (hmiss : MissesAt comp part nth s) :
    Lost comp nth (NthElement.loopBody comp part nth s) := by
  obtain ⟨hlarge, q, hchoose, hnth, hphi, hsel⟩ := hmiss
  rcases h.segments.loopBody_cases comp part nth with
    ⟨-, q', pivot, low, mid, high, hchoose', hq, heq⟩ | heq
  · obtain rfl : q = q' := by simpa [hchoose] using hchoose'
    rw [heq, if_neg (by omega)]
    have hdrop : q.range.drop q.plo = mid ++ high := by
      rw [hq.range, hq.plo, List.drop_left]
    refine ⟨_, _, _, h.segments.below hq, ?_, ?_⟩
    · rw [← hnth, h.segments.first, hq.plo]
    · rintro ⟨as, v, bs, hsplit, has, -, hbs⟩
      obtain rfl := List.length_eq_zero_iff.mp has
      refine hsel ?_
      rw [hdrop]
      cases hup : mid ++ high with
      | nil => exact absurd hup hq.upper_ne
      | cons u us =>
        rw [hup] at hsplit
        obtain ⟨rfl, rfl⟩ : u = v ∧ us ++ right = bs := by simpa using hsplit
        exact WeakOrder.selected_head fun b hb => hbs b (List.mem_append_left _ hb)
  · have hbody := congrArg LoopState.returned heq
    simp [NthElement.loopBody, hlarge, hchoose] at hbody
    split_ifs at hbody <;> simp [(cond_bounds hcond).1] at hbody

theorem lost_loopBody (h : Lost comp nth s) :
    Lost comp nth (NthElement.loopBody comp part nth s) := by
  obtain ⟨left, range, right, hseg, hnth, hsel⟩ := h
  rcases hseg.loopBody_cases comp part nth with
    ⟨-, q, pivot, low, mid, high, -, hq, heq⟩ | heq
  · have hlen := hq.perm.length_eq
    have hup := List.length_pos_iff.mpr hq.upper_ne
    have hfirst := hseg.first
    have hplo := hq.plo
    rw [hq.range] at hlen
    simp only [List.length_append] at hlen hup
    rw [heq, if_pos (by omega)]
    refine ⟨_, _, _, hseg.above hq, ?_, hsel⟩
    simp only [List.length_append]
    omega
  · have hscratch := (nthElement_small_spec comp range (nth - s.first)).2.1
    rw [heq, hseg.range_eq]
    exact ⟨_, _, _, hseg.small hscratch.length_eq, by rw [hscratch.length_eq]; exact hnth, hsel⟩

theorem Lost.not_selected (h : Lost comp nth s) : ¬ comp.Selected s.xs nth := by
  obtain ⟨left, range, right, hseg, hnth, hsel⟩ := h
  rintro ⟨as, v, bs, hsplit, has, -, hbs⟩
  refine hsel ?_
  have hdrop : right = v :: bs := by
    have h₁ : s.xs.drop nth = right := by
      rw [hseg.xs, hnth, ← List.append_assoc, ← List.length_append, List.drop_left]
    have h₂ : s.xs.drop nth = v :: bs := by rw [hsplit, ← has, List.drop_left]
    rw [← h₁, h₂]
  rw [hdrop]
  exact WeakOrder.selected_head hbs

theorem not_selected_of_not_lands
    {xs : List α} (hnth : nth < xs.length) (hmiss : ¬ Lands comp part xs nth) :
    ¬ comp.Selected (nthElement comp part xs nth) nth := by
  refine Lost.not_selected (While.loop_of_not_always
    (I := fun s => ∃ left range right, LoopInv comp xs nth s left range right)
    (fun s ⟨left, range, right, hs⟩ hcond hC => hs.loopBody hcond hC)
    (fun s ⟨left, range, right, hs⟩ hcond hC => ?_)
    (fun s hs _ => lost_loopBody hs) hmiss ⟨_, _, _, loopInv_start hnth⟩)
  exact lost_of_missesAt hs hcond (not_not.mp hC)

end Steps

end Loop

end NthElement
end HeypAgents
