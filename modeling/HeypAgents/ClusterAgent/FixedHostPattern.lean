import Mathlib.Data.List.GetD
import Mathlib.Data.List.Induction
import Mathlib.Data.Nat.ModEq
import HeypAgents.Lib.While
import HeypAgents.Proto.Flows

/-!
# Allocations that follow a fixed pattern

`FixedHostPatternAllocator` gives the hosts of a flow group the allocations of a
snapshot from its configuration, and uses the next snapshot for the next call.  A
snapshot is a list of runs of equal allocations.  The position in the pattern is one
counter of the allocator, which all flow groups share.
-/

namespace HeypAgents

structure FlowAllocAndCount where
  alloc : FlowAlloc := {}
  numHosts : ℤ := 0
deriving DecidableEq, Repr

structure HostAllocSnapshot where
  hostAllocs : List FlowAllocAndCount := []
deriving DecidableEq, Repr

structure FixedClusterHostAllocs where
  cluster : FlowMarker := {}
  snapshots : List HostAllocSnapshot := []
deriving DecidableEq, Repr

/-- The position of the iterator in a snapshot. -/
structure SnapshotHostIter where
  pairIndex : ℕ := 0
  pairRemaining : ℤ := 0
deriving DecidableEq, Repr

namespace SnapshotHostIter

variable (snapshot : HostAllocSnapshot)

def create : SnapshotHostIter where
  pairRemaining := (snapshot.hostAllocs.getD 0 {}).numHosts

/-- The loop of `Next` goes on to another pair. -/
def atEndOfPair (it : SnapshotHostIter) : Bool :=
  it.pairIndex < snapshot.hostAllocs.length && !decide (0 < it.pairRemaining)

def nextPair (it : SnapshotHostIter) : SnapshotHostIter where
  pairIndex := it.pairIndex + 1
  pairRemaining :=
    if it.pairIndex + 1 < snapshot.hostAllocs.length then
      (snapshot.hostAllocs.getD (it.pairIndex + 1) {}).numHosts
    else it.pairRemaining

/-- `Next`, with the iterator after it. -/
def next (it : SnapshotHostIter) : FlowAlloc × SnapshotHostIter :=
  let it := While.loop (atEndOfPair snapshot) (nextPair snapshot)
    (snapshot.hostAllocs.length - it.pairIndex) it
  if it.pairIndex < snapshot.hostAllocs.length then
    ((snapshot.hostAllocs.getD it.pairIndex {}).alloc,
      { it with pairRemaining := it.pairRemaining - 1 })
  else ({}, it)

/-- The loop over the children. -/
def allocChildren : SnapshotHostIter → List FlowInfo → List FlowAlloc
  | _, [] => []
  | it, child :: children =>
    { (it.next snapshot).1 with flow := child.flow } ::
      allocChildren (it.next snapshot).2 children

end SnapshotHostIter

/-- The counter is a `size_t`. -/
structure FixedHostPatternAllocator where
  allocPatterns : ClusterFlowMap FixedClusterHostAllocs := []
  next : UInt64 := 0
deriving DecidableEq, Repr

namespace FixedHostPatternAllocator

def create (fixedHostAllocPatterns : List FixedClusterHostAllocs) : FixedHostPatternAllocator where
  allocPatterns := fixedHostAllocPatterns.foldl (fun m p => m.assign p.cluster p) []

def snapshotIndex (a : FixedHostPatternAllocator) (pattern : FixedClusterHostAllocs) : ℕ :=
  a.next.toNat % pattern.snapshots.length

def allocAgg (a : FixedHostPatternAllocator) (aggInfo : AggInfo) :
    List FlowAlloc × FixedHostPatternAllocator :=
  match a.allocPatterns.find aggInfo.parent.flow with
  | none => ([], a)
  | some pattern =>
    if pattern.snapshots = [] then ([], a)
    else
      let snapshot := pattern.snapshots.getD (a.snapshotIndex pattern) {}
      (SnapshotHostIter.allocChildren snapshot (.create snapshot) aggInfo.children,
        { a with next := a.next + 1 })

end FixedHostPatternAllocator

section Expansion

variable {snapshot : HostAllocSnapshot}

def expandPairs (pairs : List FlowAllocAndCount) : List FlowAlloc :=
  pairs.flatMap fun p => List.replicate p.numHosts.toNat p.alloc

namespace HostAllocSnapshot

/-- The alloc of each host. -/
def expansion (snapshot : HostAllocSnapshot) : List FlowAlloc := expandPairs snapshot.hostAllocs

def allocsOf (snapshot : HostAllocSnapshot) (children : List FlowInfo) : List FlowAlloc :=
  children.mapIdx fun i child => { snapshot.expansion.getD i {} with flow := child.flow }

end HostAllocSnapshot

namespace SnapshotHostIter

def rest (snapshot : HostAllocSnapshot) (it : SnapshotHostIter) : List FlowAlloc :=
  match snapshot.hostAllocs.drop it.pairIndex with
  | [] => []
  | p :: pairs => List.replicate it.pairRemaining.toNat p.alloc ++ expandPairs pairs

theorem rest_create (snapshot : HostAllocSnapshot) :
    (create snapshot).rest snapshot = snapshot.expansion := by
  obtain ⟨_ | ⟨p, pairs⟩⟩ := snapshot
  · rfl
  · rfl

theorem rest_nextPair {it : SnapshotHostIter} (h : atEndOfPair snapshot it = true) :
    (nextPair snapshot it).rest snapshot = it.rest snapshot := by
  rw [atEndOfPair, Bool.and_eq_true, decide_eq_true_iff, Bool.not_eq_true', decide_eq_false_iff_not,
    not_lt] at h
  obtain ⟨hlt, hdone⟩ := h
  have hrest : it.rest snapshot = expandPairs (snapshot.hostAllocs.drop (it.pairIndex + 1)) := by
    rw [rest, List.drop_eq_getElem_cons hlt, Int.toNat_of_nonpos hdone]
    rfl
  rw [hrest, rest, nextPair]
  by_cases hnext : it.pairIndex + 1 < snapshot.hostAllocs.length
  · simp only [List.drop_eq_getElem_cons hnext, if_pos hnext, List.getD_eq_getElem _ _ hnext]
    rfl
  · simp only [List.drop_eq_nil_of_le (not_lt.mp hnext)]
    rfl

/-- `Next` returns what comes first, or an empty alloc when nothing is left. -/
theorem next_eq (snapshot : HostAllocSnapshot) (it : SnapshotHostIter) :
    (it.next snapshot).1 = (it.rest snapshot).headD {} ∧
      (it.next snapshot).2.rest snapshot = (it.rest snapshot).tail := by
  have hmeasure : ∀ it' : SnapshotHostIter, it'.rest snapshot = it.rest snapshot →
      atEndOfPair snapshot it' = true →
        snapshot.hostAllocs.length - (nextPair snapshot it').pairIndex <
          snapshot.hostAllocs.length - it'.pairIndex := by
    intro it' _ hcond
    rw [atEndOfPair, Bool.and_eq_true, decide_eq_true_iff] at hcond
    simp only [nextPair]
    omega
  obtain ⟨hrest, hstop⟩ := While.loop_spec (C := fun _ => True)
    (I := fun it' => it'.rest snapshot = it.rest snapshot)
    (m := fun it' => snapshot.hostAllocs.length - it'.pairIndex)
    (atEndOfPair snapshot) (nextPair snapshot)
    (fun it' h hcond _ => (rest_nextPair hcond).trans h) hmeasure (le_refl _)
    (While.always_of_forall (fun _ => trivial) _ _) rfl
  rw [← hrest, next]
  generalize While.loop (atEndOfPair snapshot) (nextPair snapshot)
    (snapshot.hostAllocs.length - it.pairIndex) it = it' at hstop ⊢
  by_cases hlt : it'.pairIndex < snapshot.hostAllocs.length
  · have hpos : 0 < it'.pairRemaining := by
      simpa [atEndOfPair, hlt] using hstop
    obtain ⟨n, hn⟩ : ∃ n, it'.pairRemaining.toNat = n + 1 :=
      Nat.exists_eq_succ_of_ne_zero (by omega)
    have hn' : (it'.pairRemaining - 1).toNat = n := by omega
    simp only [if_pos hlt, rest, List.drop_eq_getElem_cons hlt, hn, hn', List.replicate_succ,
      List.cons_append, List.getD_eq_getElem _ _ hlt]
    exact ⟨rfl, rfl⟩
  · simp only [if_neg hlt, rest, List.drop_eq_nil_of_le (not_lt.mp hlt)]
    exact ⟨rfl, rfl⟩

theorem allocChildren_eq (it : SnapshotHostIter) (children : List FlowInfo) :
    allocChildren snapshot it children =
      children.mapIdx fun i child => { (it.rest snapshot).getD i {} with flow := child.flow } := by
  induction children generalizing it with
  | nil => rfl
  | cons child children ih =>
    obtain ⟨halloc, hrest⟩ := next_eq snapshot it
    rw [allocChildren, ih, hrest, halloc, List.mapIdx_cons]
    congr 1
    · cases it.rest snapshot <;> rfl
    · refine congrArg (fun f => List.mapIdx f children) (funext fun i => funext fun child => ?_)
      cases it.rest snapshot <;> rfl

theorem allocChildren_create (snapshot : HostAllocSnapshot) (children : List FlowInfo) :
    allocChildren snapshot (create snapshot) children = snapshot.allocsOf children := by
  rw [allocChildren_eq, rest_create, HostAllocSnapshot.allocsOf]

end SnapshotHostIter

end Expansion

namespace FixedHostPatternAllocator

section Runs

variable {patterns : List FixedClusterHostAllocs} {flow : FlowMarker}

def configured (patterns : List FixedClusterHostAllocs) (flow : FlowMarker) :
    Option FixedClusterHostAllocs :=
  patterns.reverse.find? fun p => eqClusterFlow p.cluster flow

theorem find_create (patterns : List FixedClusterHostAllocs) (flow : FlowMarker) :
    (create patterns).allocPatterns.find flow = configured patterns flow := by
  induction patterns using List.reverseRecOn with
  | nil => rfl
  | append_singleton patterns p ih =>
    rw [create] at ih ⊢
    rw [List.foldl_append, List.foldl_cons, List.foldl_nil, ClusterFlowMap.find_assign, ih,
      configured, configured, List.reverse_append, List.reverse_singleton, List.singleton_append,
      List.find?_cons]
    split_ifs with hflow
    · rw [hflow]
    · rw [Bool.eq_false_iff.mpr hflow]

/-- The flow group has snapshots. -/
def hasSnapshots (patterns : List FixedClusterHostAllocs) (flow : FlowMarker) : Bool :=
  (configured patterns flow).any fun p => p.snapshots != []

/-- The allocator after some calls. -/
def after (patterns : List FixedClusterHostAllocs) (calls : List AggInfo) :
    FixedHostPatternAllocator :=
  calls.foldl (fun a aggInfo => (a.allocAgg aggInfo).2) (create patterns)

theorem after_concat (patterns : List FixedClusterHostAllocs) (calls : List AggInfo)
    (aggInfo : AggInfo) :
    after patterns (calls ++ [aggInfo]) = ((after patterns calls).allocAgg aggInfo).2 := by
  rw [after, List.foldl_append]
  rfl

/-- The counter counts the calls for all the flow groups with snapshots. -/
theorem after_eq (patterns : List FixedClusterHostAllocs) (calls : List AggInfo) :
    (after patterns calls).allocPatterns = (create patterns).allocPatterns ∧
      (after patterns calls).next.toNat =
        (calls.countP fun c => hasSnapshots patterns c.parent.flow) % 2 ^ 64 := by
  induction calls using List.reverseRecOn with
  | nil => exact ⟨rfl, rfl⟩
  | append_singleton calls aggInfo ih =>
    obtain ⟨hpatterns, hnext⟩ := ih
    rw [after_concat, List.countP_append, List.countP_singleton, allocAgg, hpatterns, find_create,
      hasSnapshots]
    cases hpattern : configured patterns aggInfo.parent.flow with
    | none => exact ⟨hpatterns, by simpa using hnext⟩
    | some pattern =>
      by_cases hempty : pattern.snapshots = []
      · simpa [hempty] using ⟨hpatterns, hnext⟩
      · simp [hempty, UInt64.toNat_add, hnext]

/-- Calls for the flow group of a flow. -/
def callsFor (flow : FlowMarker) (calls : List AggInfo) : ℕ :=
  calls.countP fun c => eqClusterFlow c.parent.flow flow

def callsForOthers (patterns : List FixedClusterHostAllocs) (flow : FlowMarker)
    (calls : List AggInfo) : ℕ :=
  calls.countP fun c => hasSnapshots patterns c.parent.flow && !eqClusterFlow c.parent.flow flow

theorem configured_congr (patterns : List FixedClusterHostAllocs) {flow flow' : FlowMarker}
    (h : eqClusterFlow flow flow' = true) : configured patterns flow = configured patterns flow' := by
  rw [← find_create, ← find_create, ClusterFlowMap.find_congr _ h]

theorem countP_hasSnapshots (hflow : hasSnapshots patterns flow = true) (calls : List AggInfo) :
    (calls.countP fun c => hasSnapshots patterns c.parent.flow) =
      callsFor flow calls + callsForOthers patterns flow calls := by
  induction calls with
  | nil => rfl
  | cons c calls ih =>
    rw [callsFor, callsForOthers] at ih ⊢
    rw [List.countP_cons, List.countP_cons, List.countP_cons, ih]
    by_cases hsame : eqClusterFlow c.parent.flow flow = true
    · have hc : hasSnapshots patterns c.parent.flow = true := by
        rwa [hasSnapshots, configured_congr patterns hsame]
      simp [hsame, hc]
      omega
    · rw [Bool.not_eq_true] at hsame
      simp [hsame]
      omega

/--
A call after others uses the snapshot of its flow group that the number of calls for the
group says, and gives the children the allocs of that snapshot.
-/
structure PlaysOwnPattern (patterns : List FixedClusterHostAllocs) (calls : List AggInfo)
    (aggInfo : AggInfo) (pattern : FixedClusterHostAllocs) : Prop where
  index : (after patterns calls).snapshotIndex pattern =
    callsFor aggInfo.parent.flow calls % pattern.snapshots.length
  allocs : ((after patterns calls).allocAgg aggInfo).1 =
    (pattern.snapshots.getD
      (callsFor aggInfo.parent.flow calls % pattern.snapshots.length) {}).allocsOf aggInfo.children

theorem allocAgg_after {aggInfo : AggInfo} {pattern : FixedClusterHostAllocs}
    (hpattern : configured patterns aggInfo.parent.flow = some pattern)
    (hsnapshots : pattern.snapshots ≠ []) (calls : List AggInfo) :
    ((after patterns calls).allocAgg aggInfo).1 =
      (pattern.snapshots.getD ((after patterns calls).snapshotIndex pattern) {}).allocsOf
        aggInfo.children := by
  rw [allocAgg, (after_eq patterns calls).1, find_create, hpattern]
  simp only [if_neg hsnapshots, SnapshotHostIter.allocChildren_create]

/--
A call for a flow group with snapshots uses the one whose turn it is iff the number of
earlier calls for other flow groups with snapshots is a multiple of how many snapshots the
group has; the counter of all calls wraps around.
-/
theorem playsOwnPattern_iff (patterns : List FixedClusterHostAllocs) (calls : List AggInfo)
    {aggInfo : AggInfo} {pattern : FixedClusterHostAllocs}
    (hpattern : configured patterns aggInfo.parent.flow = some pattern)
    (hsnapshots : pattern.snapshots ≠ []) :
    PlaysOwnPattern patterns calls aggInfo pattern ↔
      (callsFor aggInfo.parent.flow calls +
          callsForOthers patterns aggInfo.parent.flow calls) % 2 ^ 64 ≡
        callsFor aggInfo.parent.flow calls [MOD pattern.snapshots.length] := by
  have hflow : hasSnapshots patterns aggInfo.parent.flow = true := by
    simpa [hasSnapshots, hpattern] using hsnapshots
  have hindex : (after patterns calls).snapshotIndex pattern =
      (callsFor aggInfo.parent.flow calls +
        callsForOthers patterns aggInfo.parent.flow calls) % 2 ^ 64 % pattern.snapshots.length := by
    rw [snapshotIndex, (after_eq patterns calls).2, countP_hasSnapshots hflow]
  constructor
  · intro h
    exact hindex.symm.trans h.index
  · intro h
    have hsame := hindex.trans h
    exact ⟨hsame, by rw [allocAgg_after hpattern hsnapshots, hsame]⟩

def twoGroups : List FixedClusterHostAllocs :=
  [{ cluster := { srcDc := "a", dstDc := "b" }
     snapshots := [{ hostAllocs := [⟨{ hipriRateLimitBps := 5 }, 2⟩] },
       { hostAllocs := [⟨{ lopriRateLimitBps := 7 }, 1⟩] }] },
    { cluster := { srcDc := "a", dstDc := "c" }
      snapshots := [{ hostAllocs := [⟨{ hipriRateLimitBps := 1 }, 0⟩, ⟨{ hipriRateLimitBps := 2 }, 1⟩] },
        {}] }]

def oneHost (dstDc : String) : AggInfo where
  parent := { flow := { srcDc := "a", dstDc := dstDc } }
  children := [{ flow := { srcDc := "a", dstDc := dstDc, hostId := 1 } }]

/-- The second call for a group that is alone. -/
theorem playsOwnPattern_one_group :
    ∃ pattern, configured twoGroups (oneHost "b").parent.flow = some pattern ∧
      PlaysOwnPattern twoGroups [oneHost "b"] (oneHost "b") pattern :=
  ⟨twoGroups.head (List.cons_ne_nil _ _), by decide +kernel,
    (playsOwnPattern_iff twoGroups [oneHost "b"] (by decide +kernel) (by decide +kernel)).mpr
      (by decide +kernel)⟩

/-- With a call for the other group in between, the first snapshot is used again. -/
theorem not_playsOwnPattern_two_groups :
    ∃ pattern, configured twoGroups (oneHost "b").parent.flow = some pattern ∧
      pattern.snapshots.length = 2 ∧
      ((after twoGroups [oneHost "b", oneHost "c"]).allocAgg (oneHost "b")).1 =
        ((after twoGroups []).allocAgg (oneHost "b")).1 ∧
      ¬ PlaysOwnPattern twoGroups [oneHost "b", oneHost "c"] (oneHost "b") pattern := by
  refine ⟨twoGroups.head (List.cons_ne_nil _ _), by decide +kernel, rfl, by decide +kernel,
    fun h => ?_⟩
  exact absurd h.index (by decide +kernel)

end Runs

end FixedHostPatternAllocator

end HeypAgents
