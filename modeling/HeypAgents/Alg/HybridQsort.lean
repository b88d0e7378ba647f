import Mathlib.Algebra.Order.Group.Multiset
import Mathlib.Tactic.Abel
import HeypAgents.Lib.WeakOrder
import HeypAgents.Lib.While

/-!
# The partitioning and sorting helpers of `hybrid_qsort.h`

An iterator range is the list of its elements.  A helper that moves elements
between the range and a scratch buffer is modelled by the segments it leaves: the
elements that stay in place, the contents of the buffer, and the elements that it
has not reached.  The buffers never overlap the part of the range that is still
to be read, so the segments determine the memory.
-/

namespace HeypAgents
namespace HybridQsort

def kSmallSortThreshold : ℕ := 16

/-- The size of the scratch buffer of `NthElement`. -/
def kScratchSize : ℕ := 512

variable {α : Type*}

/--
A `std::partition`.  The C++ standard leaves open in which order the elements of
each part stand.
-/
structure StdPartition (α : Type*) where
  run : (α → Bool) → List α → List α × List α
  perm : ∀ p xs, ((run p xs).1 ++ (run p xs).2).Perm xs
  fst_pos : ∀ p xs, ∀ x ∈ (run p xs).1, p x = true
  snd_neg : ∀ p xs, ∀ x ∈ (run p xs).2, p x = false

def StdPartition.stable : StdPartition α where
  run p xs := (xs.filter p, xs.filter fun x => !p x)
  perm p xs := List.filter_append_perm p xs
  fst_pos p xs x hx := (List.mem_filter.mp hx).2
  snd_neg p xs x hx := by simpa using (List.mem_filter.mp hx).2

section Definitions

variable (comp : WeakOrder α)

/-- The median of `*first`, `first[n >> 1]` and `last[-1]`. -/
def medianOfThree (xs : List α) : Option α :=
  match xs[0]?, xs[xs.length / 2]?, xs[xs.length - 1]? with
  | some f, some m, some l =>
    let (f, m) := if comp.lt m f then (m, f) else (f, m)
    let (_, l) := if comp.lt l f then (l, f) else (f, l)
    some (if comp.lt l m then l else m)
  | _, _, _ => none

/-- The smaller of the elements at `a` and `b` is put at `a`. -/
def branchlessSwap (xs : List α) (a b : ℕ) : List α :=
  match xs[a]?, xs[b]? with
  | some x, some y => if comp.lt y x then (xs.set a y).set b x else xs
  | _, _ => xs

def moveMedianOfThreeToEnd (xs : List α) : List α :=
  let mid := xs.length / 2
  let back := xs.length - 1
  let xs := branchlessSwap comp xs 0 mid
  let xs := branchlessSwap comp xs 0 back
  branchlessSwap comp xs back mid

/-- The inner loop of `BubbleSort2`: what it stores, and the two elements it carries. -/
def bubbleTwo (x y : α) : List α → List α × α × α
  | [] => ([], x, y)
  | z :: zs =>
    let w := if comp.lt z y then z else y
    let y' := if comp.lt z y then y else z
    let stored := if comp.lt z x then z else x
    let x' := if comp.lt z x then x else w
    let r := bubbleTwo x' y' zs
    (stored :: r.1, r.2)

theorem bubbleTwo_length (x y : α) (zs : List α) :
    (bubbleTwo comp x y zs).1.length = zs.length := by
  induction zs generalizing x y with
  | nil => rfl
  | cons z zs ih => simp [bubbleTwo, ih]

def bubbleSort2 : List α → List α
  | [] => []
  | [x] => [x]
  | x :: y :: zs =>
    let r := if comp.lt y x then bubbleTwo comp y x zs else bubbleTwo comp x y zs
    bubbleSort2 r.1 ++ [r.2.1, r.2.2]
termination_by xs => xs.length
decreasing_by split_ifs <;> rw [bubbleTwo_length, List.length_cons, List.length_cons] <;> omega

def smallSort (xs : List α) : List α := bubbleSort2 comp xs

/-- The buffer after `PartitionInto`, cut at the returned position. -/
structure Parts (α : Type*) where
  smalls : List α
  pivot : α
  larges : List α

def Parts.toList (p : Parts α) : List α := p.smalls ++ p.pivot :: p.larges

def partitionInto (xs : List α) : Option (Parts α) :=
  xs.getLast?.map fun pivot =>
    { smalls := xs.dropLast.filter fun x => comp.lt x pivot
      pivot := pivot
      larges := (xs.dropLast.filter fun x => !comp.lt x pivot).reverse }

structure Distribution (α : Type*) where
  kept : List α
  buffered : List α
  rest : List α

def distribute (toBuffer : α → Bool) : ℕ → List α → Distribution α
  | 0, xs => ⟨[], [], xs⟩
  | _ + 1, [] => ⟨[], [], []⟩
  | free + 1, x :: xs =>
    if toBuffer x then
      let d := distribute toBuffer free xs
      { d with buffered := x :: d.buffered }
    else
      let d := distribute toBuffer (free + 1) xs
      { d with kept := x :: d.kept }

def distributeForward (pivot : α) (xs : List α) (scratchSize : ℕ) : Distribution α :=
  let d := distribute (fun x => !comp.lt x pivot) scratchSize xs
  { d with buffered := d.buffered.reverse }

def distributeBackward (pivot : α) (xs : List α) (scratchSize : ℕ) : Distribution α :=
  let d := distribute (fun x => comp.lt x pivot) scratchSize xs.reverse
  { kept := d.kept.reverse, buffered := d.buffered, rest := d.rest.reverse }

structure Ends (α : Type*) where
  low : List α
  mid : List α
  high : List α

/-- One iteration of the loop of `HoareLomutoHybridPartition`. -/
def hybridBody (pivot : α) (s : Ends α) : Ends α :=
  let b := distributeBackward comp pivot s.mid kScratchSize
  let s : Ends α := ⟨s.low ++ b.buffered, b.rest, b.kept ++ s.high⟩
  if s.mid.isEmpty then s
  else
    let f := distributeForward comp pivot s.mid kScratchSize
    ⟨s.low ++ f.kept, f.rest, f.buffered ++ s.high⟩

/-- The loop of `HoareLomutoHybridPartition`. -/
def hybridLoop (pivot : α) (s : Ends α) : Ends α :=
  While.loop (fun s => !s.mid.isEmpty) (hybridBody comp pivot) s.mid.length s

def hoareLomutoHybridPartition (pivot : α) (xs : List α) : List α × ℕ :=
  let f := distributeForward comp pivot xs kScratchSize
  if xs.length - f.kept.length ≤ kScratchSize then
    (f.kept ++ f.buffered, f.kept.length)
  else
    let s := hybridLoop comp pivot ⟨f.kept, f.rest, []⟩
    (s.low ++ f.buffered ++ s.high, s.low.length)

structure Pivoted (α : Type*) where
  range : List α
  plo : ℕ
  phi : ℕ

def choosePivotAndPartition (part : StdPartition α) (xs : List α) : Option (Pivoted α) :=
  (medianOfThree comp xs).map fun pivot =>
    let r := hoareLomutoHybridPartition comp pivot xs
    if r.2 < xs.length >>> 3 then
      let e := part.run (fun p => !comp.lt pivot p) (r.1.drop r.2)
      ⟨r.1.take r.2 ++ (e.1 ++ e.2), r.2, r.2 + e.1.length⟩
    else
      ⟨r.1, r.2, r.2⟩

end Definitions

variable {xs : List α}

section Moves

variable {comp : WeakOrder α}

theorem medianOfThree_mem (comp : WeakOrder α) (h : xs ≠ []) :
    ∃ pivot ∈ xs, medianOfThree comp xs = some pivot := by
  have hlen : 0 < xs.length := List.length_pos_iff.mpr h
  have hf : xs[0]? = some xs[0] := by simp
  have hm : xs[xs.length / 2]? = some xs[xs.length / 2] := by simp
  have hl : xs[xs.length - 1]? = some xs[xs.length - 1] := by simp
  simp only [medianOfThree, hf, hm, hl]
  split_ifs <;> exact ⟨_, List.getElem_mem _, rfl⟩

theorem branchlessSwap_perm (xs : List α) (a b : ℕ) : (branchlessSwap comp xs a b).Perm xs := by
  unfold branchlessSwap
  split
  · rename_i x y hx hy
    obtain ⟨ha, rfl⟩ := List.getElem?_eq_some_iff.mp hx
    obtain ⟨hb, rfl⟩ := List.getElem?_eq_some_iff.mp hy
    split_ifs
    · exact List.set_set_perm ha hb
    · exact .refl _
  · exact .refl _

theorem moveMedianOfThreeToEnd_perm (comp : WeakOrder α) (xs : List α) :
    (moveMedianOfThreeToEnd comp xs).Perm xs :=
  (branchlessSwap_perm _ _ _).trans ((branchlessSwap_perm _ _ _).trans (branchlessSwap_perm _ _ _))

end Moves

section SmallSort

variable {comp : WeakOrder α}

theorem bubbleTwo_cons {x y : α} (hxy : comp.le x y) (z : α) (zs : List α) :
    ∃ o x' y',
      bubbleTwo comp x y (z :: zs) =
          (o :: (bubbleTwo comp x' y' zs).1, (bubbleTwo comp x' y' zs).2) ∧
        [o, x', y'].Perm [x, y, z] ∧
        comp.le o x' ∧ comp.le x' y' ∧ comp.le x x' := by
  cases hzx : comp.lt z x with
  | true =>
    have hzy : comp.lt z y = true := by
      rcases comp.negTrans z y x hzx with h | h
      · exact h
      · exact absurd h (by simp [show comp.lt y x = false from hxy])
    refine ⟨z, x, y, by simp [bubbleTwo, hzx, hzy], ?_, ?_, hxy, ?_⟩
    · exact (List.perm_append_comm : ([z] ++ [x, y]).Perm ([x, y] ++ [z]))
    · exact WeakOrder.le_of_lt hzx
    · exact WeakOrder.le_refl x
  | false =>
    cases hzy : comp.lt z y with
    | true =>
      refine ⟨x, z, y, by simp [bubbleTwo, hzx, hzy], ?_, hzx, ?_, hzx⟩
      · exact (List.Perm.swap y z []).cons x
      · exact WeakOrder.le_of_lt hzy
    | false =>
      exact ⟨x, y, z, by simp [bubbleTwo, hzx, hzy], .refl _, hxy, hzy, hxy⟩

theorem bubbleTwo_spec {x y : α} (hxy : comp.le x y) (zs : List α) :
    ((bubbleTwo comp x y zs).1 ++ [(bubbleTwo comp x y zs).2.1, (bubbleTwo comp x y zs).2.2]).Perm
        (x :: y :: zs) ∧
      comp.le (bubbleTwo comp x y zs).2.1 (bubbleTwo comp x y zs).2.2 ∧
      comp.le x (bubbleTwo comp x y zs).2.1 ∧
      ∀ s ∈ (bubbleTwo comp x y zs).1, comp.le s (bubbleTwo comp x y zs).2.1 := by
  induction zs generalizing x y with
  | nil => exact ⟨.refl _, hxy, WeakOrder.le_refl x, by simp [bubbleTwo]⟩
  | cons z zs ih =>
    obtain ⟨o, x', y', heq, hperm, hox, hxy', hxx'⟩ := bubbleTwo_cons hxy z zs
    obtain ⟨ihperm, ihle, ihx, ihstored⟩ := ih hxy'
    rw [heq]
    refine ⟨?_, ihle, WeakOrder.le_trans hxx' ihx, ?_⟩
    · calc (o :: (bubbleTwo comp x' y' zs).1 ++
            [(bubbleTwo comp x' y' zs).2.1, (bubbleTwo comp x' y' zs).2.2]).Perm
            (o :: x' :: y' :: zs) := ihperm.cons o
        _ = [o, x', y'] ++ zs := rfl
        List.Perm _ ([x, y, z] ++ zs) := hperm.append_right zs
    · intro s hs
      rcases List.mem_cons.mp hs with rfl | hs
      · exact WeakOrder.le_trans hox ihx
      · exact ihstored s hs

theorem bubbleSort2_cons_cons (comp : WeakOrder α) (x y : α) (zs : List α) :
    ∃ x' y', comp.le x' y' ∧ [x', y'].Perm [x, y] ∧
      bubbleSort2 comp (x :: y :: zs) =
        bubbleSort2 comp (bubbleTwo comp x' y' zs).1 ++
          [(bubbleTwo comp x' y' zs).2.1, (bubbleTwo comp x' y' zs).2.2] := by
  cases h : comp.lt y x with
  | true =>
    exact ⟨y, x, WeakOrder.le_of_lt h, .swap x y [], by rw [bubbleSort2]; simp [h]⟩
  | false =>
    exact ⟨x, y, h, .refl _, by rw [bubbleSort2]; simp [h]⟩

theorem bubbleSort2_spec (comp : WeakOrder α) (xs : List α) :
    (bubbleSort2 comp xs).Perm xs ∧ (bubbleSort2 comp xs).Pairwise comp.le := by
  induction hn : xs.length using Nat.strongRecOn generalizing xs with
  | ind n ih =>
    match xs with
    | [] => simp [bubbleSort2]
    | [x] => simp [bubbleSort2]
    | x :: y :: zs =>
      obtain ⟨x', y', hle, hpair, heq⟩ := bubbleSort2_cons_cons comp x y zs
      obtain ⟨hperm, htop, -, hstored⟩ := bubbleTwo_spec hle zs
      have hlen : (bubbleTwo comp x' y' zs).1.length < n := by
        rw [bubbleTwo_length, ← hn, List.length_cons, List.length_cons]
        omega
      obtain ⟨ihperm, ihsorted⟩ := ih _ hlen _ rfl
      rw [heq]
      constructor
      · exact (ihperm.append_right _).trans (hperm.trans (hpair.append_right zs))
      · refine List.pairwise_append.mpr ⟨ihsorted, by simpa using htop, ?_⟩
        intro s hs t ht
        have hs' := hstored s (ihperm.mem_iff.mp hs)
        rcases List.mem_cons.mp ht with rfl | ht
        · exact hs'
        · obtain rfl := List.mem_singleton.mp ht
          exact WeakOrder.le_trans hs' htop

end SmallSort

section Partitions

variable {comp : WeakOrder α}

theorem partitionInto_isSome (comp : WeakOrder α) (h : xs ≠ []) :
    ∃ p, partitionInto comp xs = some p := by
  simp [partitionInto, List.getLast?_eq_some_getLast h]

theorem partitionInto_spec {p : Parts α} (h : partitionInto comp xs = some p) :
    p.toList.Perm xs ∧
      (∀ s ∈ p.smalls, comp.lt s p.pivot = true) ∧
      ∀ l ∈ p.larges, comp.le p.pivot l := by
  simp only [partitionInto, Option.map_eq_some_iff] at h
  obtain ⟨pivot, hlast, rfl⟩ := h
  refine ⟨?_, ?_, ?_⟩
  · have hxs : xs.dropLast ++ [pivot] = xs := List.dropLast_append_getLast? pivot hlast
    have hfilter := List.filter_append_perm (fun x => comp.lt x pivot) xs.dropLast
    calc (Parts.toList _).Perm
          (pivot :: (xs.dropLast.filter (fun x => comp.lt x pivot) ++
            (xs.dropLast.filter fun x => !comp.lt x pivot).reverse)) := List.perm_middle
      List.Perm _ (pivot :: xs.dropLast) :=
        (((List.reverse_perm _).append_left _).trans hfilter).cons pivot
      List.Perm _ (xs.dropLast ++ [pivot]) := (List.perm_append_singleton _ _).symm
      _ = xs := hxs
  · intro s hs
    exact (List.mem_filter.mp hs).2
  · intro l hl
    have hmem := List.mem_reverse.mp hl
    simpa [WeakOrder.le] using (List.mem_filter.mp hmem).2

/-- Everything that a distribution does. -/
structure DistributeSpec
    (toBuffer : α → Bool) (free : ℕ) (xs : List α) (d : Distribution α) : Prop where
  perm : (d.kept ++ d.buffered ++ d.rest).Perm xs
  kept : ∀ x ∈ d.kept, toBuffer x = false
  buffered : ∀ x ∈ d.buffered, toBuffer x = true
  full : d.rest ≠ [] → d.buffered.length = free

theorem distribute_spec (toBuffer : α → Bool) (free : ℕ) (xs : List α) :
    DistributeSpec toBuffer free xs (distribute toBuffer free xs) := by
  induction xs generalizing free with
  | nil => cases free <;> constructor <;> simp [distribute]
  | cons x xs ih =>
    cases free with
    | zero => constructor <;> simp [distribute]
    | succ free =>
      cases hx : toBuffer x with
      | true =>
        have h := ih free
        simp only [distribute, hx, if_true]
        refine ⟨?_, h.kept, ?_, ?_⟩
        · have : (d : Distribution α) → (d.kept ++ x :: d.buffered ++ d.rest).Perm
              (x :: (d.kept ++ d.buffered ++ d.rest)) := fun d =>
            List.perm_middle.append_right d.rest
          exact (this _).trans (h.perm.cons x)
        · simpa [hx] using h.buffered
        · intro hrest
          simp [h.full hrest]
      | false =>
        have h := ih (free + 1)
        simp only [distribute, hx]
        refine ⟨h.perm.cons x, ?_, h.buffered, h.full⟩
        simpa [hx] using h.kept

theorem distributeForward_spec (comp : WeakOrder α) (pivot : α) (xs : List α) (free : ℕ) :
    DistributeSpec (fun x => !comp.lt x pivot) free xs (distributeForward comp pivot xs free) := by
  have h := distribute_spec (fun x => !comp.lt x pivot) free xs
  refine ⟨?_, h.kept, ?_, ?_⟩
  · exact (((List.reverse_perm _).append_left _).append_right _).trans h.perm
  · intro x hx
    exact h.buffered x (List.mem_reverse.mp hx)
  · intro hrest
    simpa [distributeForward] using h.full hrest

theorem distributeBackward_spec (comp : WeakOrder α) (pivot : α) (xs : List α) (free : ℕ) :
    DistributeSpec (fun x => comp.lt x pivot) free xs (distributeBackward comp pivot xs free) := by
  have h := distribute_spec (fun x => comp.lt x pivot) free xs.reverse
  refine ⟨?_, ?_, h.buffered, ?_⟩
  · exact ((((List.reverse_perm _).append_right _).append (List.reverse_perm _)).trans
      h.perm).trans (List.reverse_perm xs)
  · intro x hx
    exact h.kept x (List.mem_reverse.mp hx)
  · intro hrest
    exact h.full (by simpa [distributeBackward] using hrest)

end Partitions

section Hybrid

variable {comp : WeakOrder α} {pivot : α}

structure EndsInv (comp : WeakOrder α) (pivot : α) (xs : List α) (s : Ends α) : Prop where
  perm : (s.low ++ s.mid ++ s.high).Perm xs
  low : ∀ x ∈ s.low, comp.lt x pivot = true
  high : ∀ x ∈ s.high, comp.le pivot x

variable {s : Ends α} {free : ℕ}

theorem EndsInv.backward {b : Distribution α}
    (h : EndsInv comp pivot xs s) (hb : DistributeSpec (fun x => comp.lt x pivot) free s.mid b) :
    EndsInv comp pivot xs ⟨s.low ++ b.buffered, b.rest, b.kept ++ s.high⟩ := by
  refine ⟨?_, ?_, ?_⟩
  · refine List.Perm.trans ?_ h.perm
    have hmid := Multiset.coe_eq_coe.mpr hb.perm
    rw [← Multiset.coe_eq_coe]
    simp only [← Multiset.coe_add] at hmid ⊢
    rw [← hmid]
    abel
  · intro x hx
    rcases List.mem_append.mp hx with hx | hx
    · exact h.low x hx
    · exact hb.buffered x hx
  · intro x hx
    rcases List.mem_append.mp hx with hx | hx
    · exact hb.kept x hx
    · exact h.high x hx

theorem EndsInv.forward {f : Distribution α}
    (h : EndsInv comp pivot xs s) (hf : DistributeSpec (fun x => !comp.lt x pivot) free s.mid f) :
    EndsInv comp pivot xs ⟨s.low ++ f.kept, f.rest, f.buffered ++ s.high⟩ := by
  refine ⟨?_, ?_, ?_⟩
  · refine List.Perm.trans ?_ h.perm
    have hmid := Multiset.coe_eq_coe.mpr hf.perm
    rw [← Multiset.coe_eq_coe]
    simp only [← Multiset.coe_add] at hmid ⊢
    rw [← hmid]
    abel
  · intro x hx
    rcases List.mem_append.mp hx with hx | hx
    · exact h.low x hx
    · simpa using hf.kept x hx
  · intro x hx
    rcases List.mem_append.mp hx with hx | hx
    · simpa [WeakOrder.le] using hf.buffered x hx
    · exact h.high x hx

theorem hybridBody_inv (h : EndsInv comp pivot xs s) :
    EndsInv comp pivot xs (hybridBody comp pivot s) := by
  have hback := h.backward (distributeBackward_spec comp pivot s.mid kScratchSize)
  unfold hybridBody
  dsimp only
  split_ifs
  · exact hback
  · exact hback.forward (distributeForward_spec comp pivot _ kScratchSize)

theorem DistributeSpec.rest_length_lt
    {toBuffer : α → Bool} {d : Distribution α}
    (h : DistributeSpec toBuffer free xs d) (hfree : 0 < free) (hxs : xs ≠ []) :
    d.rest.length < xs.length := by
  have hlen := h.perm.length_eq
  simp only [List.length_append] at hlen
  by_cases hrest : d.rest = []
  · simpa [hrest] using List.length_pos_iff.mpr hxs
  · have := h.full hrest
    omega

theorem hybridBody_mid_length (hs : s.mid ≠ []) :
    (hybridBody comp pivot s).mid.length < s.mid.length := by
  have hback := (distributeBackward_spec comp pivot s.mid
    kScratchSize).rest_length_lt (by decide) hs
  unfold hybridBody
  dsimp only
  split_ifs with hempty
  · exact hback
  · have hforward := (distributeForward_spec comp pivot _
      kScratchSize).rest_length_lt (by decide) (List.isEmpty_eq_false_iff.mp (by simpa using hempty))
    exact hforward.trans hback

theorem hybridLoop_spec (h : EndsInv comp pivot xs s) :
    EndsInv comp pivot xs (hybridLoop comp pivot s) ∧ (hybridLoop comp pivot s).mid = [] := by
  obtain ⟨hinv, hexit⟩ := While.loop_spec (C := fun _ => True) (I := EndsInv comp pivot xs)
    (m := fun s => s.mid.length)
    (fun s => !s.mid.isEmpty) (hybridBody comp pivot)
    (fun s hs _ _ => hybridBody_inv hs)
    (fun s _ hcond => hybridBody_mid_length (by simpa using hcond))
    le_rfl (While.always_of_forall (fun _ => trivial) _ _) h
  exact ⟨hinv, by simpa [hybridLoop] using hexit⟩

structure SplitAt (comp : WeakOrder α) (pivot : α) (xs : List α) (r : List α × ℕ) : Prop where
  perm : r.1.Perm xs
  le : r.2 ≤ r.1.length
  low : ∀ x ∈ r.1.take r.2, comp.lt x pivot = true
  high : ∀ x ∈ r.1.drop r.2, comp.le pivot x

theorem splitAt_append {xs low high : List α} (hperm : (low ++ high).Perm xs)
    (hlow : ∀ x ∈ low, comp.lt x pivot = true) (hhigh : ∀ x ∈ high, comp.le pivot x) :
    SplitAt comp pivot xs (low ++ high, low.length) :=
  ⟨hperm, by simp, by simpa using hlow, by simpa using hhigh⟩

theorem hoareLomutoHybridPartition_spec (comp : WeakOrder α) (pivot : α) (xs : List α) :
    SplitAt comp pivot xs (hoareLomutoHybridPartition comp pivot xs) := by
  unfold hoareLomutoHybridPartition
  have hf := distributeForward_spec comp pivot xs kScratchSize
  generalize distributeForward comp pivot xs kScratchSize = f at hf ⊢
  have hkept : ∀ x ∈ f.kept, comp.lt x pivot = true := fun x hx => by simpa using hf.kept x hx
  have hbuffered : ∀ x ∈ f.buffered, comp.le pivot x :=
    fun x hx => by simpa [WeakOrder.le] using hf.buffered x hx
  dsimp only
  split_ifs with hsize
  · have hrest : f.rest = [] := by
      by_contra hne
      have hlen := hf.perm.length_eq
      simp only [List.length_append] at hlen
      have hfull := hf.full hne
      have hpos := List.length_pos_iff.mpr hne
      omega
    refine splitAt_append ?_ hkept hbuffered
    simpa [hrest] using hf.perm
  · have hstart : EndsInv comp pivot (f.kept ++ f.rest) ⟨f.kept, f.rest, []⟩ :=
      ⟨by simp, hkept, by simp⟩
    obtain ⟨hinv, hmid⟩ := hybridLoop_spec hstart
    generalize hybridLoop comp pivot ⟨f.kept, f.rest, []⟩ = s at hinv hmid ⊢
    rw [List.append_assoc]
    refine splitAt_append ?_ hinv.low ?_
    · refine List.Perm.trans ?_ hf.perm
      have hends := Multiset.coe_eq_coe.mpr hinv.perm
      rw [← Multiset.coe_eq_coe]
      simp only [hmid, ← Multiset.coe_add, Multiset.coe_nil, add_zero] at hends ⊢
      rw [add_left_comm, hends]
      abel
    · intro x hx
      rcases List.mem_append.mp hx with hx | hx
      · exact hbuffered x hx
      · exact hinv.high x hx

end Hybrid

section ChoosePivot

variable {comp : WeakOrder α}

/-- The three segments of a partitioned range. -/
structure PivotedSpec (comp : WeakOrder α) (xs : List α) (q : Pivoted α)
    (pivot : α) (low mid high : List α) : Prop where
  range : q.range = low ++ (mid ++ high)
  perm : q.range.Perm xs
  plo : q.plo = low.length
  phi : q.phi = low.length + mid.length
  low_lt : ∀ x ∈ low, comp.lt x pivot = true
  mid_le : ∀ x ∈ mid, comp.le x pivot
  mid_ge : ∀ x ∈ mid, comp.le pivot x
  high_ge : ∀ x ∈ high, comp.le pivot x
  upper_ne : mid ++ high ≠ []
  lower_ne : low ++ mid ≠ []

variable {r : List α × ℕ}

theorem SplitAt.pivot_mem_high {pivot : α}
    (h : SplitAt comp pivot xs r) (hmem : pivot ∈ xs) : pivot ∈ r.1.drop r.2 := by
  have hr : pivot ∈ r.1.take r.2 ++ r.1.drop r.2 := by
    rw [List.take_append_drop]
    exact h.perm.mem_iff.mpr hmem
  rcases List.mem_append.mp hr with hlow | hhigh
  · have hirrefl : comp.lt pivot pivot = false := WeakOrder.le_refl pivot
    rw [h.low pivot hlow] at hirrefl
    cases hirrefl
  · exact hhigh

theorem pivotedSpec_balanced {pivot : α}
    (h : SplitAt comp pivot xs r) (hmem : pivot ∈ xs) (hpos : 0 < r.2) :
    PivotedSpec comp xs ⟨r.1, r.2, r.2⟩ pivot (r.1.take r.2) [] (r.1.drop r.2) where
  range := by simp
  perm := h.perm
  plo := by simp [h.le]
  phi := by simp [h.le]
  low_lt := h.low
  mid_le := by simp
  mid_ge := by simp
  high_ge := h.high
  upper_ne := List.ne_nil_of_mem (h.pivot_mem_high hmem)
  lower_ne := by
    have hlen := (List.length_pos_iff.mpr (List.ne_nil_of_mem (h.pivot_mem_high hmem)))
    rw [List.length_drop] at hlen
    rw [List.append_nil, ← List.length_pos_iff, List.length_take]
    omega

theorem pivotedSpec_skewed {pivot : α} (part : StdPartition α)
    (h : SplitAt comp pivot xs r) (hmem : pivot ∈ xs) :
    let e := part.run (fun p => !comp.lt pivot p) (r.1.drop r.2)
    PivotedSpec comp xs ⟨r.1.take r.2 ++ (e.1 ++ e.2), r.2, r.2 + e.1.length⟩
      pivot (r.1.take r.2) e.1 e.2 := by
  intro e
  have hperm : (e.1 ++ e.2).Perm (r.1.drop r.2) := part.perm _ _
  have hpivot : pivot ∈ e.1 := by
    rcases List.mem_append.mp (hperm.mem_iff.mpr (h.pivot_mem_high hmem)) with he | he
    · exact he
    · have hneg := part.snd_neg _ _ pivot he
      simp [show comp.lt pivot pivot = false from WeakOrder.le_refl pivot] at hneg
  have hupper : ∀ x ∈ e.1 ++ e.2, comp.le pivot x := fun x hx => h.high x (hperm.mem_iff.mp hx)
  constructor
  · rfl
  · refine (hperm.append_left _).trans ?_
    rw [List.take_append_drop]
    exact h.perm
  · simp [h.le]
  · simp [h.le]
  · exact h.low
  · intro x hx
    simpa [WeakOrder.le] using part.fst_pos _ _ x hx
  · exact fun x hx => hupper x (List.mem_append_left _ hx)
  · exact fun x hx => hupper x (List.mem_append_right _ hx)
  · exact List.ne_nil_of_mem (List.mem_append_left _ hpivot)
  · exact List.ne_nil_of_mem (List.mem_append_right _ hpivot)

/-- What the pivot step of the large ranges does. -/
theorem choosePivotAndPartition_spec
    (comp : WeakOrder α) (part : StdPartition α) (hlarge : kScratchSize < xs.length) :
    ∃ q pivot low mid high,
      choosePivotAndPartition comp part xs = some q ∧ PivotedSpec comp xs q pivot low mid high := by
  have hne : xs ≠ [] := by
    rintro rfl
    simp at hlarge
  obtain ⟨pivot, hmem, hmedian⟩ := medianOfThree_mem comp hne
  have hsplit := hoareLomutoHybridPartition_spec comp pivot xs
  simp only [choosePivotAndPartition, hmedian, Option.map_some]
  split_ifs with hskew
  · exact ⟨_, _, _, _, _, rfl, pivotedSpec_skewed part hsplit hmem⟩
  · refine ⟨_, _, _, _, _, rfl, pivotedSpec_balanced hsplit hmem ?_⟩
    rw [Nat.shiftRight_eq_div_pow] at hskew
    have : kScratchSize = 512 := rfl
    omega

end ChoosePivot

end HybridQsort
end HeypAgents
