import HeypAgents.Lib.Runs
import HeypAgents.Proto.Flows
import HeypAgents.Alg.HashingSelector

/-!
# From diffs to masks of LOPRI children

`DiffDowngradeSelectorImpl::PickLOPRIChildren` of `iface.cc` turns the ids that a
selector wants to move into one bit per child.  It starts from the bits that it
decided last, or from the reported class of a child that it sees for the first time,
and then marks the ids of the diff.  For the hashing selector in whole chunks the bit
of a child that never leaves is the state of the ring.
-/

namespace HeypAgents

/-- A selector with its decisions of the previous call. -/
structure DiffDowngradeSelector (σ : Type) where
  impl : σ
  lastIsLopri : UInt64 → Option Bool := fun _ => none

namespace DiffDowngradeSelector

section Marking

variable (value : Bool) (children : List ChildFlowInfo)

/-- The scan of the children for one range. -/
def markRange (lopri : List Bool) (range : IdRange) : List Bool :=
  children.zipWith (fun c bit => if range.contains c.childId.toNat then value else bit) lopri

/-- The entry of `id2index`, which is the last child with the id. -/
def indexOfId (id : ℕ) : Option ℕ :=
  children.zipIdx.foldl (fun last ci => if ci.1.childId.toNat = id then some ci.2 else last) none

def markPoint (lopri : List Bool) (point : ℕ) : List Bool :=
  match indexOfId children point with
  | some i => lopri.set i value
  | none => lopri

def markIds (ids : UnorderedIds) (lopri : List Bool) : List Bool :=
  ids.points.foldl (markPoint value children) (ids.ranges.foldl (markRange value children) lopri)

end Marking

def initialMask (lastIsLopri : UInt64 → Option Bool) (children : List ChildFlowInfo) : List Bool :=
  children.map fun c => (lastIsLopri c.childId).getD c.currentlyLopri

def record (lastIsLopri : UInt64 → Option Bool) (decided : List (ChildFlowInfo × Bool)) :
    UInt64 → Option Bool :=
  decided.foldl (fun last cb => Function.update last cb.1.childId (some cb.2)) lastIsLopri

def pickLopriChildren {σ : Type} (pickChildren : σ → AggInfoView → ℚ → σ × DowngradeDiff)
    (s : DiffDowngradeSelector σ) (aggInfo : AggInfoView) (wantFracLopri : ℚ) :
    DiffDowngradeSelector σ × List Bool :=
  let (impl, diff) := pickChildren s.impl aggInfo wantFracLopri
  let lopri := markIds false aggInfo.children diff.toUpgrade
    (markIds true aggInfo.children diff.toDowngrade (initialMask s.lastIsLopri aggInfo.children))
  ({ impl := impl, lastIsLopri := record s.lastIsLopri (aggInfo.children.zip lopri) }, lopri)

section Masks

variable {children : List ChildFlowInfo} {child : ChildFlowInfo} {i : ℕ}

theorem getElem?_markRanges (value : Bool) (ranges : List IdRange) (lopri : List Bool)
    (hchild : children[i]? = some child) :
    (ranges.foldl (markRange value children) lopri)[i]? =
      lopri[i]?.map fun bit =>
        if ∃ range ∈ ranges, range.contains child.childId.toNat = true then value else bit := by
  induction ranges generalizing lopri with
  | nil => simp
  | cons range ranges ih =>
    rw [List.foldl_cons, ih, markRange, List.getElem?_zipWith, hchild]
    cases lopri[i]? with
    | none => rfl
    | some bit =>
      by_cases hcontains : range.contains child.childId.toNat = true
      · simp [hcontains, -IdRange.contains_iff]
      · simp [hcontains, -IdRange.contains_iff]

theorem getElem?_markIds
    (value : Bool) {ids : UnorderedIds} (hpoints : ids.points = []) (lopri : List Bool)
    (hchild : children[i]? = some child) :
    (markIds value children ids lopri)[i]? =
      lopri[i]?.map fun bit =>
        if ∃ range ∈ ids.ranges, range.contains child.childId.toNat = true then value
        else bit := by
  rw [markIds, hpoints, List.foldl_nil]
  exact getElem?_markRanges value ids.ranges lopri hchild

theorem record_eq_some {lastIsLopri : UInt64 → Option Bool} {decided : List (ChildFlowInfo × Bool)}
    {id : UInt64} {bit : Bool} (hbit : ∀ cb ∈ decided, cb.1.childId = id → cb.2 = bit)
    (hmem : lastIsLopri id = some bit ∨ ∃ cb ∈ decided, cb.1.childId = id) :
    record lastIsLopri decided id = some bit := by
  induction decided generalizing lastIsLopri with
  | nil => simpa [record] using hmem
  | cons cb decided ih =>
    refine ih (fun cb' hcb' => hbit cb' (List.mem_cons_of_mem _ hcb')) ?_
    by_cases hid : cb.1.childId = id
    · left
      dsimp only
      rw [← hid, Function.update_self, hbit cb (by simp) hid]
    · dsimp only
      rw [Function.update_of_ne (Ne.symm hid)]
      refine hmem.imp_right ?_
      rintro ⟨cb', hcb', hid'⟩
      rcases List.mem_cons.mp hcb' with rfl | hcb'
      · exact absurd hid' hid
      · exact ⟨cb', hcb', hid'⟩

end Masks

end DiffDowngradeSelector

namespace HashingDowngradeSelector

open Runs
open HashRing (IsChunks clampFrac)

def pickLopriChildren (s : DiffDowngradeSelector HashingDowngradeSelector) (aggInfo : AggInfoView)
    (wantFracLopri : ℚ) : DiffDowngradeSelector HashingDowngradeSelector × List Bool :=
  s.pickLopriChildren (fun impl _ frac => impl.pickChildren frac) aggInfo wantFracLopri

/-- A call of `PickLOPRIChildren`. -/
structure Call where
  aggInfo : AggInfoView
  wantFracLopri : ℚ

def call (s : DiffDowngradeSelector HashingDowngradeSelector) (c : Call) :
    Option (DiffDowngradeSelector HashingDowngradeSelector) :=
  some (pickLopriChildren s c.aggInfo c.wantFracLopri).1

def create : DiffDowngradeSelector HashingDowngradeSelector where
  impl := {}

def MaskAgrees
    (id : UInt64) (s : DiffDowngradeSelector HashingDowngradeSelector) (c : Call) : Prop :=
  ∀ (i : ℕ) (child : ChildFlowInfo), c.aggInfo.children[i]? = some child → child.childId = id →
    (pickLopriChildren s c.aggInfo c.wantFracLopri).2[i]? =
      some ((pickLopriChildren s c.aggInfo c.wantFracLopri).1.impl.isLopri id)

variable {s : DiffDowngradeSelector HashingDowngradeSelector} {c : Call} {id : UInt64}

theorem pickChildren_points (s : HashingDowngradeSelector) (f : ℚ) :
    (s.pickChildren f).2.toDowngrade.points = [] ∧ (s.pickChildren f).2.toUpgrade.points = [] := by
  simp only [pickChildren]
  split <;> exact ⟨rfl, rfl⟩

theorem isLopri_default (id : UInt64) : isLopri {} id = false := by
  simp only [isLopri, HashRing.matchingRanges, if_true]
  rw [Bool.eq_false_iff, ne_eq, RingRanges.contains_iff]
  dsimp only
  omega

def StartsAgreed
    (id : UInt64) (s : DiffDowngradeSelector HashingDowngradeSelector) (c : Call) : Prop :=
  ∀ child ∈ c.aggInfo.children, child.childId = id →
    (s.lastIsLopri id).getD child.currentlyLopri = s.impl.isLopri id

/-- One call takes the bits of an id from one state of the ring to the next. -/
theorem maskAgrees_of_startsAgreed
    (haligned : s.impl.Aligned) (hf : IsChunks (clampFrac c.wantFracLopri))
    (hstart : StartsAgreed id s c) : MaskAgrees id s c := by
  rintro i child hchild rfl
  obtain ⟨hdown, hup⟩ := haligned.pickChildren_exact hf child.childId
  obtain ⟨hdownPoints, hupPoints⟩ := pickChildren_points s.impl c.wantFracLopri
  have hinitial : (DiffDowngradeSelector.initialMask s.lastIsLopri c.aggInfo.children)[i]? =
      some (s.impl.isLopri child.childId) := by
    rw [DiffDowngradeSelector.initialMask, List.getElem?_map, hchild, Option.map_some,
      hstart child (List.mem_of_getElem? hchild) rfl]
  simp only [UnorderedIds.Selects, hdownPoints, hupPoints, List.not_mem_nil, or_false] at hdown hup
  simp only [pickLopriChildren, DiffDowngradeSelector.pickLopriChildren]
  rw [DiffDowngradeSelector.getElem?_markIds false hupPoints _ hchild,
    DiffDowngradeSelector.getElem?_markIds true hdownPoints _ hchild, hinitial]
  simp only [hdown, hup, Option.map_some, Option.some.injEq]
  cases s.impl.isLopri child.childId <;>
    cases (s.impl.pickChildren c.wantFracLopri).1.isLopri child.childId <;> simp

def Remembers (id : UInt64) (s : DiffDowngradeSelector HashingDowngradeSelector) : Prop :=
  s.lastIsLopri id = some (s.impl.isLopri id)

theorem remembers_of_maskAgrees
    (hpresent : ∃ child ∈ c.aggInfo.children, child.childId = id) (h : MaskAgrees id s c) :
    Remembers id (pickLopriChildren s c.aggInfo c.wantFracLopri).1 := by
  refine DiffDowngradeSelector.record_eq_some ?_ (.inr ?_)
  · rintro ⟨child, bit⟩ hmem hid
    obtain ⟨i, hi⟩ := List.mem_iff_getElem?.mp hmem
    obtain ⟨hchild, hbit⟩ := List.getElem?_zip_eq_some.mp hi
    exact Option.some.inj (hbit.symm.trans (h i child hchild hid))
  · obtain ⟨child, hchild, hid⟩ := hpresent
    obtain ⟨i, hi⟩ := List.mem_iff_getElem?.mp hchild
    exact ⟨(child, _), List.mem_iff_getElem?.mpr
      ⟨i, List.getElem?_zip_eq_some.mpr ⟨hi, h i child hi hid⟩⟩, hid⟩

theorem Remembers.startsAgreed (h : Remembers id s) (c : Call) : StartsAgreed id s c := by
  intro child _ _
  rw [h, Option.getD_some]

theorem startsAgreed_create
    (hfirst : ∀ child ∈ c.aggInfo.children, child.childId = id → child.currentlyLopri = false) :
    StartsAgreed id create c := by
  intro child hchild hid
  rw [create, Option.getD_none, hfirst child hchild hid, isLopri_default]

section Runs

variable {calls : List Call}

theorem isChunks_clampFrac {f : ℚ} (h : ∃ k : ℤ, f = k / 2 ^ 32) : IsChunks (clampFrac f) := by
  obtain ⟨k, rfl⟩ := h
  unfold clampFrac
  split_ifs with hneg hlarge
  · exact ⟨0, by norm_num⟩
  · exact ⟨2 ^ 32, by norm_num⟩
  · have hk : 0 ≤ k := by
      have := mul_nonneg (not_lt.mp hneg) (by norm_num : (0 : ℚ) ≤ 2 ^ 32)
      rw [div_mul_cancel₀ _ (by norm_num)] at this
      exact_mod_cast this
    obtain ⟨n, rfl⟩ := Int.eq_ofNat_of_zero_le hk
    exact ⟨n, rfl⟩

structure AlwaysPresent (id : UInt64) (calls : List Call) : Prop where
  chunks : ∀ c ∈ calls, ∃ k : ℤ, c.wantFracLopri = k / 2 ^ 32
  present : ∀ c ∈ calls, ∃ child ∈ c.aggInfo.children, child.childId = id
  first : ∀ c ∈ calls.head?, ∀ child ∈ c.aggInfo.children,
    child.childId = id → child.currentlyLopri = false

theorem AlwaysPresent.of_append {calls' : List Call} (h : AlwaysPresent id (calls ++ calls')) :
    AlwaysPresent id calls where
  chunks c hc := h.chunks c (List.mem_append_left _ hc)
  present c hc := h.present c (List.mem_append_left _ hc)
  first c hc := h.first c (by
    rw [List.head?_append, Option.mem_def.mp hc]
    rfl)

/-- The states between the calls. -/
structure Inv (id : UInt64) (calls : List Call)
    (s : DiffDowngradeSelector HashingDowngradeSelector) : Prop where
  aligned : s.impl.Aligned
  remembers : (calls = [] ∧ s = create) ∨ Remembers id s

theorem Inv.maskAgrees
    (h : Inv id calls s) (hcalls : AlwaysPresent id (calls ++ [c])) : MaskAgrees id s c := by
  refine maskAgrees_of_startsAgreed h.aligned (isChunks_clampFrac (hcalls.chunks c (by simp))) ?_
  rcases h.remembers with ⟨rfl, rfl⟩ | hremembers
  · exact startsAgreed_create (hcalls.first c rfl)
  · exact hremembers.startsAgreed c

theorem Inv.call (h : Inv id calls s) (hcalls : AlwaysPresent id (calls ++ [c])) :
    Inv id (calls ++ [c]) (pickLopriChildren s c.aggInfo c.wantFracLopri).1 where
  aligned := h.aligned.pickChildren (isChunks_clampFrac (hcalls.chunks c (by simp)))
  remembers := .inr (remembers_of_maskAgrees (hcalls.present c (by simp)) (h.maskAgrees hcalls))

/-- A run keeps the invariant. -/
theorem inv_exec (hcalls : AlwaysPresent id calls) (hrun : exec call create calls = some s) :
    Inv id calls s := by
  induction calls using List.reverseRecOn generalizing s with
  | nil =>
    obtain rfl := Option.some.inj hrun
    exact ⟨aligned_default, .inl ⟨rfl, rfl⟩⟩
  | append_singleton calls c ih =>
    obtain ⟨s', hbefore, hcall⟩ := exec_concat_eq_some.mp hrun
    obtain rfl := Option.some.inj hcall
    exact (ih hcalls.of_append hbefore).call hcalls

/--
In every run in whole chunks, a child that is in every call and is first reported as HIPRI
gets the state of the ring in every call, at each of its entries and whatever class is
reported for it later.
-/
theorem run_maskAgrees (id : UInt64) (calls : List Call) (hcalls : AlwaysPresent id calls) :
    AllSteps call (MaskAgrees id) create calls := by
  rintro pre c s ⟨rest, rfl⟩ hrun
  exact (inv_exec hcalls.of_append.of_append hrun).maskAgrees hcalls.of_append

def sevenTwice : List Call :=
  [{ aggInfo := { children := [{ childId := 7 }, { childId := 7 }] }, wantFracLopri := 1 / 2 },
    { aggInfo := { children :=
        [{ childId := 7 }, { childId := 5, currentlyLopri := true },
          { childId := 7, currentlyLopri := true }] }
      wantFracLopri := 1 / 4 },
    { aggInfo := { children := [{ childId := 7, currentlyLopri := true }] }
      wantFracLopri := 3 / 4 }]

theorem run_maskAgrees_sevenTwice : AllSteps call (MaskAgrees 7) create sevenTwice := by
  refine run_maskAgrees 7 sevenTwice ⟨?_, by decide, by decide⟩
  simp only [sevenTwice, List.forall_mem_cons, List.not_mem_nil, false_imp_iff, implies_true,
    and_true]
  exact ⟨⟨2 ^ 31, by norm_num⟩, ⟨2 ^ 30, by norm_num⟩, ⟨3 * 2 ^ 30, by norm_num⟩⟩

end Runs

end HashingDowngradeSelector

end HeypAgents
