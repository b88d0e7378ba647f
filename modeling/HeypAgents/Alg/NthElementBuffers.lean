import HeypAgents.Alg.MaxMinFairnessOptimal

/-!
# The buffers of `NthElement`

`NthElementInto` and `NthElementScratch` call each other with the range and the scratch
buffer in turn.  Each partition goes from one to the other, and what the recursion does not
handle is copied back.  Here both memories are followed; what ends in the range does not
depend on what was in the scratch buffer.
-/

namespace HeypAgents
namespace NthElement
namespace Buffers

open HybridQsort

variable {α : Type*}

section Definitions

variable (comp : WeakOrder α)

mutual

/-- The contents of `[first, last)` and of `out`.  Elements that were moved away keep their
values; they are not read again. -/
def nthElementInto (xs out : List α) (nth : ℕ) : List α × List α :=
  if kSmallSortThreshold < xs.length then
    let first := moveMedianOfThreeToEnd comp xs
    match _h : partitionInto comp first with
    | none => (xs, out)
    | some p =>
      if p.smalls.length < nth then
        let r := nthElementScratch p.larges first (nth - (p.smalls.length + 1))
        (r.2, p.smalls ++ p.pivot :: r.1)
      else if nth < p.smalls.length then
        let r := nthElementScratch p.smalls first nth
        (r.2, r.1 ++ p.pivot :: p.larges)
      else
        (first, p.toList)
  else
    (smallSort comp xs, smallSort comp xs)
termination_by xs.length
decreasing_by
  · exact (parts_length_lt comp _h).2
  · exact (parts_length_lt comp _h).1

/-- The contents of `[first, last)` and of `scratch`. -/
def nthElementScratch (xs scratch : List α) (nth : ℕ) : List α × List α :=
  if kSmallSortThreshold < xs.length then
    match _h : partitionInto comp (moveMedianOfThreeToEnd comp xs) with
    | none => (xs, scratch)
    | some p =>
      let rest := scratch.drop xs.length
      let n := p.smalls.length + 1
      if p.smalls.length < nth then
        -- `std::move(scratch, p + 1, first)`
        let first := p.toList.take n ++ (moveMedianOfThreeToEnd comp xs).drop n
        let r := nthElementInto p.larges (first.drop n) (nth - n)
        (first.take n ++ r.2, p.toList.take n ++ r.1 ++ rest)
      else if nth < p.smalls.length then
        let m := p.smalls.length
        let first := (moveMedianOfThreeToEnd comp xs).take m ++ p.toList.drop m
        let r := nthElementInto p.smalls (first.take m) nth
        (r.2 ++ first.drop m, r.1 ++ p.toList.drop m ++ rest)
      else
        (p.toList, p.toList ++ rest)
  else
    (smallSort comp xs, scratch)
termination_by xs.length
decreasing_by
  · exact (parts_length_lt comp _h).2
  · exact (parts_length_lt comp _h).1

end

/-- `scratch` gives what the scratch buffer holds in each state. -/
def loopBody (part : StdPartition α) (scratch : LoopState α → List α) (nth : ℕ)
    (s : LoopState α) : LoopState α :=
  if kScratchSize < s.last - s.first then NthElement.loopBody comp part nth s
  else
    { s with
      xs := s.setRange (nthElementScratch comp s.range (scratch s) (nth - s.first)).1
      returned := true }

/-- The range after the call; `none` while it still runs. -/
def nthElement (part : StdPartition α) (scratch : LoopState α → List α) (xs : List α) (nth : ℕ) :
    Option (List α) :=
  (While.complete (loopCond nth) (loopBody comp part scratch nth) (xs.length + 1)
    (loopStart xs)).map LoopState.xs

end Definitions

variable {comp : WeakOrder α}

section Copies

variable {p : Parts α} (xs : List α)

theorem take_upTo_pivot :
    (p.toList.take (p.smalls.length + 1) ++ xs.drop (p.smalls.length + 1)).take
      (p.smalls.length + 1) = p.smalls ++ [p.pivot] := by
  have htake : p.toList.take (p.smalls.length + 1) = p.smalls ++ [p.pivot] := by
    rw [Parts.toList, List.append_cons]
    exact List.take_left' (by simp)
  rw [htake]
  exact List.take_left' (by simp)

theorem drop_from_pivot (hxs : p.smalls.length ≤ xs.length) :
    (xs.take p.smalls.length ++ p.toList.drop p.smalls.length).drop p.smalls.length =
      p.pivot :: p.larges := by
  rw [List.drop_left' (List.length_take_of_le hxs), Parts.toList, List.drop_left]

end Copies

/-- The copies bring the selection into the range, from either buffer. -/
theorem contents_eq (xs other : List α) (nth : ℕ) :
    (nthElementInto comp xs other nth).2 = NthElement.nthElementInto comp xs nth ∧
      (nthElementScratch comp xs other nth).1 = NthElement.nthElementScratch comp xs nth := by
  induction hn : xs.length using Nat.strong_induction_on generalizing xs other nth with
  | _ n ih =>
    subst hn
    rw [nthElementInto, NthElement.nthElementInto, nthElementScratch,
      NthElement.nthElementScratch]
    by_cases hlarge : kSmallSortThreshold < xs.length
    · have hmoved := (moveMedianOfThreeToEnd_perm comp xs).length_eq
      have hne : moveMedianOfThreeToEnd comp xs ≠ [] :=
        List.ne_nil_of_length_pos (by rw [hmoved]; exact Nat.zero_lt_of_lt hlarge)
      obtain ⟨p, hp⟩ := partitionInto_isSome comp hne
      obtain ⟨hsmalls, hlarges⟩ := parts_length_lt comp hp
      simp only [if_pos hlarge]
      rw [hp]
      dsimp only
      split_ifs with hright hleft
      · refine ⟨?_, ?_⟩
        · simp only [(ih _ hlarges p.larges _ _ rfl).2]
        · simp only [(ih _ hlarges p.larges _ _ rfl).1, take_upTo_pivot,
            List.append_assoc, List.singleton_append]
      · refine ⟨?_, ?_⟩
        · simp only [(ih _ hsmalls p.smalls _ _ rfl).2]
        · simp only [(ih _ hsmalls p.smalls _ _ rfl).1, drop_from_pivot _ (hsmalls.le.trans_eq hmoved.symm)]
      · exact ⟨rfl, rfl⟩
    · simp only [if_neg hlarge, and_self]

theorem loopBody_eq (part : StdPartition α) (scratch : LoopState α → List α) (nth : ℕ) :
    loopBody comp part scratch nth = NthElement.loopBody comp part nth := by
  funext s
  rw [loopBody]
  split_ifs with hlarge
  · rfl
  · rw [NthElement.loopBody, if_neg hlarge, (contents_eq s.range (scratch s) (nth - s.first)).2]

theorem nthElement_eq
    (part : StdPartition α) (scratch : LoopState α → List α) (xs : List α) (nth : ℕ) :
    nthElement comp part scratch xs nth = some (NthElement.nthElement comp part xs nth) := by
  rw [nthElement, loopBody_eq, While.complete_of_exit (loop_ends comp part xs nth).2]
  rfl

/-- The call returns a permutation of the range with the element of position `nth` in place. -/
def Selects (comp : WeakOrder α) (part : StdPartition α) (scratch : LoopState α → List α)
    (xs : List α) (nth : ℕ) : Prop :=
  ∃ ys, nthElement comp part scratch xs nth = some ys ∧ ys.Perm xs ∧ comp.Selected ys nth

/--
The call selects `nth` exactly if no partition of a large range ends at `nth` and leaves an
element there that is not a smallest one of the upper part.
-/
theorem selects_iff_lands
    (comp : WeakOrder α) (part : StdPartition α) (scratch : LoopState α → List α)
    {xs : List α} {nth : ℕ} (hnth : nth < xs.length) :
    (Selects comp part scratch xs nth ↔ Lands comp part xs nth) ∧
      (xs.length ≤ kScratchSize → Selects comp part scratch xs nth) := by
  have hiff : Selects comp part scratch xs nth ↔ Lands comp part xs nth := by
    rw [Selects, nthElement_eq]
    constructor
    · rintro ⟨ys, hys, -, hsel⟩
      obtain rfl := Option.some.inj hys
      by_contra hlands
      exact not_selected_of_not_lands hnth hlands hsel
    · intro hlands
      exact ⟨_, rfl, nthElement_perm comp part xs nth, nthElement_selected hnth hlands⟩
  exact ⟨hiff, fun hsmall => hiff.mpr (lands_of_length_le hsmall nth)⟩

theorem selects_iff_lands_three :
    let order := WeakOrder.ofLinearOrder ℤ
    (Selects order .stable (fun _ => []) [3, 1, 2] 1 ↔ Lands order .stable [3, 1, 2] 1) ∧
      (3 ≤ kScratchSize → Selects order .stable (fun _ => []) [3, 1, 2] 1) :=
  selects_iff_lands (WeakOrder.ofLinearOrder ℤ) .stable (fun _ => []) (by decide)

/-- 256 times 0, 256 times 1 and one 2: the 2 is left in the middle. -/
theorem two_left_in_the_middle :
    ¬ Selects (WeakOrder.ofLinearOrder ℤ) .stable (fun _ => []) MaxMinFairness.missedDemands
      256 := by
  rintro ⟨ys, hys, -, hsel⟩
  rw [nthElement_eq, MaxMinFairness.nthElement_missedDemands] at hys
  obtain rfl := Option.some.inj hys
  obtain ⟨as, v, bs, hcut, hlen, -, hle⟩ := hsel
  obtain ⟨-, htail⟩ := List.append_inj hcut (by rw [MaxMinFairness.block_length, hlen])
  obtain ⟨rfl, rfl⟩ := List.cons_eq_cons.mp htail
  have hone : (1 : ℤ) ∈ MaxMinFairness.block 1 := List.mem_replicate.mpr ⟨by decide, rfl⟩
  simpa [WeakOrder.le, WeakOrder.ofLinearOrder] using hle 1 hone

end Buffers
end NthElement
end HeypAgents
