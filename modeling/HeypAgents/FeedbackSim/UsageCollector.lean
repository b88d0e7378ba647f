import HeypAgents.FeedbackSim.Waterlevel

/-!
# Collecting usage in the simulator

`UsageCollector` says how much each host uses in a simulated iteration.  The LOPRI hosts
share the available capacity at a fair waterlevel.  What they do not get may shift to the
HIPRI hosts, each of which takes as much as it has room for.  A sampler picks hosts whose
usages are passed to an estimator for their class.  The operations round as `fp` says, by
default not at all.
-/

namespace HeypAgents
namespace FeedbackSim

open WeightedFilling

/-- `shouldInclude` is the outcome of a call by the number of the calls before it, and an
estimate depends on the samples that were recorded. -/
structure Sampler where
  shouldInclude : ℕ → ℚ → Bool
  estUsageNoHostCount : List ℚ → ℚ

structure UsageInfo where
  exactHipri : ℚ := 0
  exactLopri : ℚ := 0
  approxHipri : ℚ := 0
  approxLopri : ℚ := 0
  maxSampledTaskUsage : ℚ := 0
deriving DecidableEq, Repr

structure UsageCollector where
  maxHostUsage : ℚ
  aggAvailableLopri : ℚ
  trueDemands : List ℚ
  shiftTraffic : Bool

/-- What the loops of `CollectUsageInfo` change; an estimator is the list of its samples. -/
structure CollectState where
  usage : UsageInfo := {}
  estUsageLopri : List ℚ := []
  estUsageHipri : List ℚ := []
  tryShiftFromLopri : ℚ := 0
  asked : ℕ := 0

namespace UsageCollector

variable (sampler : Option Sampler)

def includes (asked : ℕ) (usage : ℚ) : Bool := sampler.any fun s => s.shouldInclude asked usage

/-- The body of the loop over the LOPRI demands. -/
def lopriStep (lopriWaterlevel : ℚ) (s : CollectState) (demand : ℚ) (fp : Rounding := .ideal) :
    CollectState :=
  let tryShiftFromLopri :=
    fp.round (s.tryShiftFromLopri + max 0 (fp.round (demand - lopriWaterlevel)))
  let d := min demand lopriWaterlevel
  let sampled := includes sampler s.asked d
  { s with
    tryShiftFromLopri := tryShiftFromLopri
    asked := s.asked + 1
    estUsageLopri := if sampled then s.estUsageLopri ++ [d] else s.estUsageLopri
    usage := { s.usage with
      maxSampledTaskUsage :=
        if sampled then max d s.usage.maxSampledTaskUsage else s.usage.maxSampledTaskUsage
      exactLopri := fp.round (s.usage.exactLopri + d) } }

variable (c : UsageCollector) (isLopri : ℕ → Bool)

def extraTaken (s : CollectState) (d : ℚ) (fp : Rounding := .ideal) : ℚ :=
  min (fp.round (c.maxHostUsage - d)) s.tryShiftFromLopri

def hipriUsage (s : CollectState) (d : ℚ) (fp : Rounding := .ideal) : ℚ :=
  fp.round (d + c.extraTaken s d fp)

/-- The body of the loop over all the demands, for a HIPRI host.  It tracks the largest
demand, not the largest usage, of the hosts that are sampled. -/
def hipriStep (s : CollectState) (d : ℚ) (fp : Rounding := .ideal) : CollectState :=
  let u := c.hipriUsage s d fp
  let sampled := includes sampler s.asked u
  { s with
    tryShiftFromLopri := fp.round (s.tryShiftFromLopri - c.extraTaken s d fp)
    asked := s.asked + 1
    estUsageHipri := if sampled then s.estUsageHipri ++ [u] else s.estUsageHipri
    usage := { s.usage with
      exactHipri := fp.round (s.usage.exactHipri + u)
      maxSampledTaskUsage :=
        if sampled then max d s.usage.maxSampledTaskUsage else s.usage.maxSampledTaskUsage } }

def lopriDemands : List ℚ := (c.trueDemands.zipIdx.filter fun x => isLopri x.2).map Prod.fst

def lopriWaterlevel (fp : Rounding := .ideal) : ℚ :=
  maxMinFairWaterlevel c.aggAvailableLopri (c.lopriDemands isLopri) fp

/-- The state between the two loops. -/
def afterLopri (fp : Rounding := .ideal) : CollectState :=
  let s := (c.lopriDemands isLopri).foldl
    (fun s d => lopriStep sampler (c.lopriWaterlevel isLopri fp) s d fp) {}
  if c.shiftTraffic then s else { s with tryShiftFromLopri := 0 }

/-- The state after both loops. -/
def collected (fp : Rounding := .ideal) : CollectState :=
  c.trueDemands.zipIdx.foldl (fun s x => if isLopri x.2 then s else hipriStep sampler c s x.1 fp)
    (c.afterLopri sampler isLopri fp)

/-- `none` for the panic on a demand above the maximum. -/
def collectUsageInfo (fp : Rounding := .ideal) : Option UsageInfo :=
  if c.trueDemands.any fun d => decide (c.maxHostUsage < d) then none
  else
    let s := c.collected sampler isLopri fp
    some <|
      match sampler with
      | none => s.usage
      | some smp =>
        { s.usage with
          approxHipri := smp.estUsageNoHostCount s.estUsageHipri
          approxLopri := smp.estUsageNoHostCount s.estUsageLopri }

/-! ### What each loop adds -/

section Loops

variable {sampler}

theorem foldl_lopriStep (waterlevel : ℚ) (ds : List ℚ) (s : CollectState) :
    let s' := ds.foldl (fun s d => lopriStep sampler waterlevel s d) s
    s'.usage.exactLopri = s.usage.exactLopri + (ds.map fun d => min d waterlevel).sum ∧
      s'.usage.exactHipri = s.usage.exactHipri ∧
      s'.tryShiftFromLopri =
        s.tryShiftFromLopri + (ds.map fun d => max 0 (d - waterlevel)).sum := by
  induction ds generalizing s with
  | nil => simp
  | cons d ds ih =>
    obtain ⟨hexact, hexact', hshift⟩ := ih (lopriStep sampler waterlevel s d)
    refine ⟨?_, hexact', ?_⟩
    · rw [List.foldl_cons, hexact, List.map_cons, List.sum_cons]
      simp only [lopriStep, Rounding.ideal_round]
      ring
    · rw [List.foldl_cons, hshift, List.map_cons, List.sum_cons]
      simp only [lopriStep, Rounding.ideal_round]
      ring

def room (c : UsageCollector) (ds : List ℚ) : ℚ := (ds.map fun d => c.maxHostUsage - d).sum

/-- The usages of HIPRI hosts if `shift` shifts to them: each takes what the hosts before
it have no room for. -/
def filled (c : UsageCollector) (shift : ℚ) (ds : List ℚ) : List ℚ :=
  ds.mapIdx fun j d => d + min (c.maxHostUsage - d) (max 0 (shift - c.room (ds.take j)))

variable {c}

theorem filled_cons (shift d : ℚ) (ds : List ℚ) :
    c.filled shift (d :: ds) =
      (d + min (c.maxHostUsage - d) (max 0 shift)) ::
        c.filled (shift - (c.maxHostUsage - d)) ds := by
  rw [filled, List.mapIdx_cons, filled]
  simp [room, sub_sub]

theorem room_nonneg {ds : List ℚ} (hds : ∀ d ∈ ds, d ≤ c.maxHostUsage) : 0 ≤ c.room ds :=
  List.sum_nonneg fun x hx => by
    obtain ⟨d, hd, rfl⟩ := List.mem_map.mp hx
    exact sub_nonneg.mpr (hds d hd)

theorem max_sub_min (shift : ℚ) {spare : ℚ} (hspare : 0 ≤ spare) :
    max 0 shift - min spare (max 0 shift) = max 0 (shift - spare) := by
  rcases le_total 0 shift with h | h
  · rw [max_eq_right h]
    rcases le_total spare shift with h' | h'
    · rw [min_eq_left h', max_eq_right (sub_nonneg.mpr h')]
    · rw [min_eq_right h', sub_self, max_eq_left (sub_nonpos.mpr h')]
  · rw [max_eq_left h, min_eq_right hspare, sub_self, max_eq_left (by linarith)]

/-- The order of the hosts does not matter for what they take together. -/
theorem sum_filled {ds : List ℚ} (hds : ∀ d ∈ ds, d ≤ c.maxHostUsage) (shift : ℚ) :
    (c.filled shift ds).sum = ds.sum + min (max 0 shift) (c.room ds) := by
  induction ds generalizing shift with
  | nil => simp [filled, room]
  | cons d ds ih =>
    have hspare : 0 ≤ c.maxHostUsage - d := sub_nonneg.mpr (hds d (by simp))
    have hds' : ∀ d ∈ ds, d ≤ c.maxHostUsage := fun d' hd' => hds d' (List.mem_cons_of_mem _ hd')
    have hroom := room_nonneg hds'
    have hcons : c.room (d :: ds) = (c.maxHostUsage - d) + c.room ds := by simp [room]
    rw [filled_cons, List.sum_cons, ih hds', ← max_sub_min shift hspare,
      List.sum_cons, hcons]
    rcases le_total (max 0 shift) (c.maxHostUsage - d) with h | h
    · rw [min_eq_right h, sub_self, min_eq_left hroom, min_eq_left (by linarith)]
      ring
    · rw [min_eq_left h, min_def, min_def]
      split_ifs <;> linarith

theorem filled_le (shift : ℚ) (ds : List ℚ) :
    ∀ u ∈ c.filled shift ds, u ≤ c.maxHostUsage := by
  intro u hu
  obtain ⟨j, hj, rfl⟩ := List.mem_mapIdx.mp hu
  have := min_le_left (c.maxHostUsage - ds[j]) (max 0 (shift - c.room (ds.take j)))
  linarith

def hipriUsages (sampler : Option Sampler) (c : UsageCollector) : CollectState → List ℚ → List ℚ
  | _, [] => []
  | s, d :: ds => c.hipriUsage s d :: hipriUsages sampler c (hipriStep sampler c s d) ds

theorem foldl_hipriStep {ds : List ℚ} (hds : ∀ d ∈ ds, d ≤ c.maxHostUsage) {s : CollectState}
    {shift : ℚ} (hshift : s.tryShiftFromLopri = max 0 shift) :
    let s' := ds.foldl (fun s d => hipriStep sampler c s d) s
    s'.usage.exactHipri = s.usage.exactHipri + (c.filled shift ds).sum ∧
      s'.usage.exactLopri = s.usage.exactLopri ∧
      hipriUsages sampler c s ds = c.filled shift ds := by
  induction ds generalizing s shift with
  | nil => simp [hipriUsages, filled]
  | cons d ds ih =>
    have hspare : 0 ≤ c.maxHostUsage - d := sub_nonneg.mpr (hds d (by simp))
    have hu : c.hipriUsage s d = d + min (c.maxHostUsage - d) (max 0 shift) := by
      simp only [hipriUsage, extraTaken, Rounding.ideal_round, hshift]
    have hleft : (hipriStep sampler c s d).tryShiftFromLopri =
        max 0 (shift - (c.maxHostUsage - d)) := by
      rw [← max_sub_min shift hspare, ← hshift]
      rfl
    obtain ⟨hexact, hexact', husages⟩ :=
      ih (fun d' hd' => hds d' (List.mem_cons_of_mem _ hd')) hleft
    refine ⟨?_, hexact', ?_⟩
    · rw [List.foldl_cons, hexact, filled_cons, List.sum_cons, ← hu]
      simp only [hipriStep, Rounding.ideal_round]
      ring
    · rw [hipriUsages, husages, filled_cons, hu]

end Loops

/-! ### The collected usage -/

section Usage

def hipriDemands : List ℚ := (c.trueDemands.zipIdx.filter fun x => !isLopri x.2).map Prod.fst

def unmetLopri : ℚ :=
  (c.lopriDemands isLopri).sum - min c.aggAvailableLopri (c.lopriDemands isLopri).sum

def toShift : ℚ :=
  if c.shiftTraffic then c.unmetLopri isLopri else 0

variable {sampler c isLopri}

theorem mem_of_mem_classDemands {p : ℚ × ℕ → Bool} {d : ℚ}
    (hd : d ∈ (c.trueDemands.zipIdx.filter p).map Prod.fst) : d ∈ c.trueDemands := by
  obtain ⟨x, hx, rfl⟩ := List.mem_map.mp hd
  exact List.fst_mem_of_mem_zipIdx (List.mem_of_mem_filter hx)

theorem collected_eq (fp : Rounding) :
    c.collected sampler isLopri fp =
      (c.hipriDemands isLopri).foldl (fun s d => hipriStep sampler c s d fp)
        (c.afterLopri sampler isLopri fp) := by
  rw [collected, hipriDemands, List.foldl_map, List.foldl_filter]
  congr 1
  funext s x
  cases isLopri x.2 <;> rfl

theorem sum_min_lopriWaterlevel (havailable : 0 ≤ c.aggAvailableLopri)
    (hdemands : ∀ d ∈ c.trueDemands, 0 ≤ d) :
    ((c.lopriDemands isLopri).map fun d => min d (c.lopriWaterlevel isLopri)).sum =
      min c.aggAvailableLopri (c.lopriDemands isLopri).sum := by
  have hlevel : IsLevel id (fun _ => 1) c.aggAvailableLopri (c.lopriDemands isLopri)
      (c.lopriWaterlevel isLopri) :=
    maxMinFairWaterlevel_isLevel havailable fun d hd => hdemands d (mem_of_mem_classDemands hd)
  simpa [served, volume] using hlevel.served_eq

theorem sum_max_zero_sub (ds : List ℚ) (w : ℚ) :
    (ds.map fun d => max 0 (d - w)).sum = ds.sum - (ds.map fun d => min d w).sum := by
  induction ds with
  | nil => simp
  | cons d ds ih =>
    have hd : max 0 (d - w) = d - min d w := by
      rcases le_total d w with h | h
      · rw [max_eq_left (by linarith), min_eq_left h, sub_self]
      · rw [max_eq_right (by linarith), min_eq_right h]
    rw [List.map_cons, List.sum_cons, List.map_cons, List.sum_cons, List.sum_cons, ih, hd]
    ring

theorem toShift_nonneg : 0 ≤ c.toShift isLopri := by
  rw [toShift, unmetLopri]
  split_ifs
  · exact sub_nonneg.mpr (min_le_right _ _)
  · exact le_rfl

theorem afterLopri_spec (havailable : 0 ≤ c.aggAvailableLopri)
    (hdemands : ∀ d ∈ c.trueDemands, 0 ≤ d) :
    (c.afterLopri sampler isLopri).usage.exactLopri =
        min c.aggAvailableLopri (c.lopriDemands isLopri).sum ∧
      (c.afterLopri sampler isLopri).usage.exactHipri = 0 ∧
      (c.afterLopri sampler isLopri).tryShiftFromLopri = max 0 (c.toShift isLopri) := by
  obtain ⟨hexact, hexact', hshift⟩ :=
    @foldl_lopriStep sampler (c.lopriWaterlevel isLopri) (c.lopriDemands isLopri) {}
  rw [sum_max_zero_sub, sum_min_lopriWaterlevel havailable hdemands, zero_add] at hshift
  rw [sum_min_lopriWaterlevel havailable hdemands, zero_add] at hexact
  rw [max_eq_right toShift_nonneg, afterLopri, toShift, unmetLopri]
  cases hc : c.shiftTraffic with
  | true => exact ⟨hexact, hexact', hshift⟩
  | false => exact ⟨hexact, hexact', rfl⟩

theorem collected_spec (havailable : 0 ≤ c.aggAvailableLopri)
    (hdemands : ∀ d ∈ c.trueDemands, 0 ≤ d ∧ d ≤ c.maxHostUsage) :
    (c.collected sampler isLopri).usage.exactHipri =
        (c.filled (c.toShift isLopri) (c.hipriDemands isLopri)).sum ∧
      (c.collected sampler isLopri).usage.exactLopri =
        min c.aggAvailableLopri (c.lopriDemands isLopri).sum ∧
      hipriUsages sampler c (c.afterLopri sampler isLopri) (c.hipriDemands isLopri) =
        c.filled (c.toShift isLopri) (c.hipriDemands isLopri) := by
  obtain ⟨hexact, hexact', hshift⟩ :=
    @afterLopri_spec sampler c isLopri havailable fun d hd => (hdemands d hd).1
  have hle : ∀ d ∈ c.hipriDemands isLopri, d ≤ c.maxHostUsage :=
    fun d hd => (hdemands d (mem_of_mem_classDemands hd)).2
  obtain ⟨hsum, hsum', husages⟩ := @foldl_hipriStep sampler c _ hle _ _ hshift
  rw [collected_eq]
  exact ⟨by rw [hsum, hexact', zero_add], hsum'.trans hexact, husages⟩

theorem collectUsageInfo_eq (fp : Rounding) (hdemands : ∀ d ∈ c.trueDemands, d ≤ c.maxHostUsage) :
    ∃ info, c.collectUsageInfo sampler isLopri fp = some info ∧
      info.exactHipri = (c.collected sampler isLopri fp).usage.exactHipri ∧
      info.exactLopri = (c.collected sampler isLopri fp).usage.exactLopri ∧
      info.maxSampledTaskUsage = (c.collected sampler isLopri fp).usage.maxSampledTaskUsage := by
  have hvalid : ¬ (c.trueDemands.any fun d => decide (c.maxHostUsage < d)) = true := by
    simpa using hdemands
  rw [collectUsageInfo, if_neg hvalid]
  cases sampler with
  | none => exact ⟨_, rfl, rfl, rfl, rfl⟩
  | some smp => exact ⟨_, rfl, rfl, rfl, rfl⟩

/-- The LOPRI hosts use what is available to them; the HIPRI hosts
use their demands, and what shifts to them as far as they have room. -/
theorem collectUsageInfo_conserves (c : UsageCollector) (isLopri : ℕ → Bool)
    (sampler : Option Sampler) (havailable : 0 ≤ c.aggAvailableLopri)
    (hdemands : ∀ d ∈ c.trueDemands, 0 ≤ d ∧ d ≤ c.maxHostUsage) :
    ∃ info, c.collectUsageInfo sampler isLopri = some info ∧
      info.exactLopri = min c.aggAvailableLopri (c.lopriDemands isLopri).sum ∧
      info.exactHipri = (c.hipriDemands isLopri).sum +
        (if c.shiftTraffic then
          min (c.unmetLopri isLopri) (c.room (c.hipriDemands isLopri)) else 0) ∧
      ∀ u ∈ hipriUsages sampler c (c.afterLopri sampler isLopri) (c.hipriDemands isLopri),
        u ≤ c.maxHostUsage := by
  obtain ⟨info, hinfo, hhipri, hlopri, -⟩ :=
    @collectUsageInfo_eq sampler c isLopri .ideal fun d hd => (hdemands d hd).2
  obtain ⟨hsum, hsum', husages⟩ := @collected_spec sampler c isLopri havailable hdemands
  have hle : ∀ d ∈ c.hipriDemands isLopri, d ≤ c.maxHostUsage :=
    fun d hd => (hdemands d (mem_of_mem_classDemands hd)).2
  refine ⟨info, hinfo, hlopri.trans hsum', ?_, fun u hu => ?_⟩
  · rw [hhipri, hsum, sum_filled hle, max_eq_right toShift_nonneg, toShift]
    split_ifs
    · rfl
    · rw [min_eq_left (room_nonneg hle)]
  · rw [husages] at hu
    exact filled_le _ _ u hu

/-- The last of three hosts is LOPRI, and gets 1 of its 10. -/
theorem collectUsageInfo_conserves_three_hosts :
    ∃ info, collectUsageInfo none ⟨10, 1, [9, 3, 10], true⟩ (fun i => i == 2) = some info ∧
      info.exactLopri = 1 ∧ info.exactHipri = 20 := by
  obtain ⟨info, hinfo, hlopri, hhipri, -⟩ :=
    collectUsageInfo_conserves ⟨10, 1, [9, 3, 10], true⟩ (fun i => i == 2) none (by norm_num)
      (by norm_num)
  exact ⟨info, hinfo, hlopri.trans (by decide +kernel), hhipri.trans (by decide +kernel)⟩

/-! ### The largest sample -/

def largest (samples : List ℚ) : ℚ := samples.max?.getD 0

theorem largest_le_iff {samples : List ℚ} (hnonneg : ∀ x ∈ samples, 0 ≤ x) (x : ℚ) :
    largest samples ≤ x ↔ 0 ≤ x ∧ ∀ y ∈ samples, y ≤ x := by
  rw [largest]
  cases hmax : samples.max? with
  | none =>
    rw [List.max?_eq_none_iff.mp hmax]
    simp
  | some y =>
    rw [Option.getD_some, List.max?_le_iff hmax]
    refine ⟨fun hle => ⟨?_, hle⟩, And.right⟩
    have hy := List.max?_mem hmax
    exact (hnonneg y hy).trans (hle y hy)

/-- The reported maximum is the largest sample of both estimators. -/
structure TracksLargest (s : CollectState) : Prop where
  nonneg : ∀ x ∈ s.estUsageLopri ++ s.estUsageHipri, 0 ≤ x
  eq : s.usage.maxSampledTaskUsage = largest (s.estUsageLopri ++ s.estUsageHipri)

theorem TracksLargest.record {s s' : CollectState} (h : TracksLargest s) {xs ys : List ℚ} {d : ℚ}
    (hbefore : s.estUsageLopri ++ s.estUsageHipri = xs ++ ys)
    (hafter : s'.estUsageLopri ++ s'.estUsageHipri = xs ++ d :: ys)
    (hmax : s'.usage.maxSampledTaskUsage = max d s.usage.maxSampledTaskUsage) (hd : 0 ≤ d) :
    TracksLargest s' := by
  obtain ⟨hnonneg, heq⟩ := h
  rw [hbefore] at hnonneg heq
  have hinsert : ∀ P : ℚ → Prop, (∀ x ∈ xs ++ d :: ys, P x) ↔ P d ∧ ∀ x ∈ xs ++ ys, P x := by
    intro P
    simp only [List.forall_mem_append, List.forall_mem_cons]
    tauto
  have hnonneg' := (hinsert fun x => 0 ≤ x).mpr ⟨hd, hnonneg⟩
  rw [← hafter] at hnonneg'
  refine ⟨hnonneg', eq_of_forall_ge_iff fun x => ?_⟩
  rw [hmax, heq, largest_le_iff hnonneg', hafter, hinsert, max_le_iff, largest_le_iff hnonneg]
  tauto

theorem TracksLargest.lopriStep {s : CollectState} (h : TracksLargest s) {waterlevel d : ℚ}
    (hlevel : 0 ≤ waterlevel) (hd : 0 ≤ d) (fp : Rounding) :
    TracksLargest (lopriStep sampler waterlevel s d fp) := by
  cases hsampled : includes sampler s.asked (min d waterlevel) with
  | false =>
    simp only [UsageCollector.lopriStep, hsampled]
    exact ⟨h.nonneg, h.eq⟩
  | true =>
    refine h.record rfl ?_ ?_ (le_min hd hlevel)
    · simp [UsageCollector.lopriStep, hsampled]
    · simp [UsageCollector.lopriStep, hsampled]

/-- A sampled host that takes no shifted traffic is recorded with its demand. -/
theorem TracksLargest.hipriStep {s : CollectState} (h : TracksLargest s) {fp : Rounding} {d : ℚ}
    (hmem : d ∈ fp.values) (hd : 0 ≤ d)
    (htaken : includes sampler s.asked (c.hipriUsage s d fp) = true → c.extraTaken s d fp = 0) :
    TracksLargest (hipriStep sampler c s d fp) := by
  cases hsampled : includes sampler s.asked (c.hipriUsage s d fp) with
  | false =>
    simp only [UsageCollector.hipriStep, hsampled]
    exact ⟨h.nonneg, h.eq⟩
  | true =>
    have husage : c.hipriUsage s d fp = d := by
      rw [hipriUsage, htaken hsampled, add_zero, fp.round_of_mem d hmem]
    rw [husage] at hsampled
    refine h.record (List.append_nil _).symm (d := d) ?_ ?_ hd
    · simp [UsageCollector.hipriStep, husage, hsampled]
    · simp [UsageCollector.hipriStep, husage, hsampled]

/-- In every iteration for a sampled HIPRI host, it has no room or nothing is left to shift. -/
def TakesNothing (sampler : Option Sampler) (c : UsageCollector) (fp : Rounding) :
    CollectState → List ℚ → Prop
  | _, [] => True
  | s, d :: ds =>
    (includes sampler s.asked (c.hipriUsage s d fp) = true → c.extraTaken s d fp = 0) ∧
      TakesNothing sampler c fp (hipriStep sampler c s d fp) ds

theorem TracksLargest.afterLopri (fp : Rounding) (havailable : 0 ≤ c.aggAvailableLopri)
    (hdemands : ∀ d ∈ c.trueDemands, 0 ≤ d) :
    TracksLargest (c.afterLopri sampler isLopri fp) := by
  have hlopri : ∀ d ∈ c.lopriDemands isLopri, 0 ≤ d :=
    fun d hd => hdemands d (mem_of_mem_classDemands hd)
  have hlevel : 0 ≤ c.lopriWaterlevel isLopri fp :=
    maxMinFairWaterlevel_nonneg fp havailable hlopri
  have hloop : ∀ (ds : List ℚ) (s : CollectState), (∀ d ∈ ds, 0 ≤ d) → TracksLargest s →
      TracksLargest (ds.foldl
        (fun s d => UsageCollector.lopriStep sampler (c.lopriWaterlevel isLopri fp) s d fp) s) := by
    intro ds
    induction ds with
    | nil => exact fun s _ h => h
    | cons d ds ih =>
      intro s hds h
      obtain ⟨hd, hds⟩ := List.forall_mem_cons.mp hds
      exact ih _ hds (h.lopriStep hlevel hd fp)
  have hall := hloop (c.lopriDemands isLopri) {} hlopri ⟨by simp, rfl⟩
  rw [UsageCollector.afterLopri]
  split_ifs
  · exact hall
  · exact ⟨hall.nonneg, hall.eq⟩

theorem TracksLargest.foldl_hipriStep {fp : Rounding} {ds : List ℚ} {s : CollectState}
    (h : TracksLargest s) (hds : ∀ d ∈ ds, d ∈ fp.values ∧ 0 ≤ d)
    (htaken : TakesNothing sampler c fp s ds) :
    TracksLargest (ds.foldl (fun s d => UsageCollector.hipriStep sampler c s d fp) s) := by
  induction ds generalizing s with
  | nil => exact h
  | cons d ds ih =>
    obtain ⟨⟨hmem, hd⟩, hds⟩ := List.forall_mem_cons.mp hds
    exact ih (h.hipriStep hmem hd htaken.1) hds htaken.2

/-- What was passed to the estimators. -/
def samples (sampler : Option Sampler) (c : UsageCollector) (isLopri : ℕ → Bool)
    (fp : Rounding) : List ℚ :=
  (c.collected sampler isLopri fp).estUsageLopri ++ (c.collected sampler isLopri fp).estUsageHipri

/-- A sampler that includes every host. -/
def sampleAll : Sampler where
  shouldInclude _ _ := true
  estUsageNoHostCount samples := samples.sum

end Usage

end UsageCollector
end FeedbackSim
end HeypAgents
