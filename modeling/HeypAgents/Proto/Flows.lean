import Mathlib.Data.List.Basic
import Mathlib.Data.Rat.Defs

/-!
# Flow messages

The protobuf messages that the agents exchange, their views of `agg-info-views.h`, the
flow comparisons of `proto/alg.cc` and the flow levels of `agg-marker.h`.  Rates and
byte counts are ideal integers, and times are rational seconds.
-/

namespace HeypAgents

inductive Protocol where
  | unset
  | tcp
  | udp
deriving DecidableEq, Repr

structure FlowMarker where
  srcDc : String := ""
  dstDc : String := ""
  job : String := ""
  hostId : UInt64 := 0
  srcAddr : String := ""
  dstAddr : String := ""
  protocol : Protocol := .unset
  srcPort : ℤ := 0
  dstPort : ℤ := 0
  seqnum : UInt64 := 0
deriving DecidableEq, Repr

structure FlowInfo where
  flow : FlowMarker := {}
  predictedDemandBps : ℤ := 0
  ewmaUsageBps : ℤ := 0
  ewmaHipriUsageBps : ℤ := 0
  ewmaLopriUsageBps : ℤ := 0
  cumUsageBytes : ℤ := 0
  cumHipriUsageBytes : ℤ := 0
  cumLopriUsageBytes : ℤ := 0
  currentlyLopri : Bool := false
deriving DecidableEq, Repr

structure AggInfo where
  parent : FlowInfo := {}
  children : List FlowInfo := []
deriving DecidableEq, Repr

/-- A child as the downgrade selectors see it. -/
structure ChildFlowInfo where
  childId : UInt64 := 0
  volumeBps : ℤ := 0
  currentlyLopri : Bool := false
deriving DecidableEq, Repr

structure AggInfoView where
  parent : FlowInfo := {}
  children : List ChildFlowInfo := []
deriving DecidableEq, Repr

structure InfoBundle where
  bundler : FlowMarker := {}
  timestamp : ℚ := 0
  gen : ℤ := 0
  flowInfos : List FlowInfo := []
deriving DecidableEq, Repr

structure FlowAlloc where
  flow : FlowMarker := {}
  hipriRateLimitBps : ℤ := 0
  lopriRateLimitBps : ℤ := 0
deriving DecidableEq, Repr

structure AllocBundle where
  flowAllocs : List FlowAlloc := []
  gen : ℤ := 0
deriving DecidableEq, Repr

structure CompareFlowOptions where
  cmpFg : Bool := true
  cmpJob : Bool := true
  cmpSrcHost : Bool := true
  cmpHostFlow : Bool := true
  cmpSeqnum : Bool := true
deriving DecidableEq, Repr

def isSameFlow (lhs rhs : FlowMarker) (options : CompareFlowOptions) : Bool :=
  (!options.cmpFg || (lhs.srcDc == rhs.srcDc && lhs.dstDc == rhs.dstDc)) &&
  (!options.cmpJob || lhs.job == rhs.job) &&
  (!options.cmpSrcHost || lhs.hostId == rhs.hostId) &&
  (!options.cmpHostFlow ||
    (lhs.srcAddr == rhs.srcAddr && lhs.dstAddr == rhs.dstAddr &&
      lhs.protocol == rhs.protocol && lhs.srcPort == rhs.srcPort &&
      lhs.dstPort == rhs.dstPort)) &&
  (!options.cmpSeqnum || lhs.seqnum == rhs.seqnum)

theorem isSameFlow_self (flow : FlowMarker) (options : CompareFlowOptions) :
    isSameFlow flow flow options = true := by
  simp [isSameFlow]

def expectedFieldsAreSet (marker : FlowMarker) (options : CompareFlowOptions) : Bool :=
  (!options.cmpFg || (marker.srcDc != "" && marker.dstDc != "")) &&
  (!options.cmpJob || marker.job != "") &&
  (!options.cmpSrcHost || marker.hostId != 0) &&
  (!options.cmpHostFlow ||
    (marker.srcAddr != "" && marker.dstAddr != "" && marker.protocol != .unset &&
      marker.srcPort != 0 && marker.dstPort != 0)) &&
  (!options.cmpSeqnum || marker.seqnum != 0)

/-- The fields that the options leave out have no values; `job` is one of them if they include it. -/
def unexpectedFieldsAreUnset (marker : FlowMarker) (options : CompareFlowOptions) : Bool :=
  (options.cmpFg || (marker.srcDc == "" && marker.dstDc == "")) &&
  (!options.cmpJob || marker.job == "") &&
  (options.cmpSrcHost || marker.hostId == 0) &&
  (options.cmpHostFlow ||
    (marker.srcAddr == "" && marker.dstAddr == "" && marker.protocol == .unset &&
      marker.srcPort == 0 && marker.dstPort == 0)) &&
  (options.cmpSeqnum || marker.seqnum == 0)

theorem not_fields_of_cmpJob {marker : FlowMarker} {options : CompareFlowOptions}
    (hjob : options.cmpJob = true) :
    ¬ (expectedFieldsAreSet marker options = true ∧
      unexpectedFieldsAreUnset marker options = true) := by
  rintro ⟨hset, hunset⟩
  simp only [expectedFieldsAreSet, hjob, Bool.not_true, Bool.false_or, Bool.and_eq_true,
    bne_iff_ne] at hset
  simp only [unexpectedFieldsAreUnset, hjob, Bool.not_true, Bool.false_or, Bool.and_eq_true,
    beq_iff_eq] at hunset
  exact hset.1.1.1.2 hunset.1.1.1.2

def toClusterFlow (flow : FlowMarker) : FlowMarker where
  srcDc := flow.srcDc
  dstDc := flow.dstDc

def toHostFlow (flow : FlowMarker) : FlowMarker :=
  { flow with
    srcAddr := "", dstAddr := "", protocol := .unset, srcPort := 0, dstPort := 0, seqnum := 0 }

/-- The comparison of cluster-level flows. -/
def eqClusterFlow (lhs rhs : FlowMarker) : Bool :=
  isSameFlow lhs rhs
    { cmpJob := false, cmpSrcHost := false, cmpHostFlow := false, cmpSeqnum := false }

theorem eqClusterFlow_iff {lhs rhs : FlowMarker} :
    eqClusterFlow lhs rhs = true ↔ lhs.srcDc = rhs.srcDc ∧ lhs.dstDc = rhs.dstDc := by
  simp [eqClusterFlow, isSameFlow]

theorem eqClusterFlow_congr (key : FlowMarker) {flow flow' : FlowMarker}
    (h : eqClusterFlow flow flow' = true) : eqClusterFlow key flow = eqClusterFlow key flow' := by
  obtain ⟨hsrc, hdst⟩ := eqClusterFlow_iff.mp h
  rw [Bool.eq_iff_iff, eqClusterFlow_iff, eqClusterFlow_iff, hsrc, hdst]

abbrev ClusterFlowMap (α : Type) := List (FlowMarker × α)

namespace ClusterFlowMap

variable {α : Type}

def find (m : ClusterFlowMap α) (flow : FlowMarker) : Option α :=
  (m.find? fun kv => eqClusterFlow kv.1 flow).map (·.2)

/-- The value stored for the flow is replaced. -/
def set (m : ClusterFlowMap α) (flow : FlowMarker) (v : α) : ClusterFlowMap α :=
  m.map fun kv => if eqClusterFlow kv.1 flow then (kv.1, v) else kv

theorem find_map {β : Type} (f : α → β) (m : ClusterFlowMap α) (flow : FlowMarker) :
    find (m.map fun kv => (kv.1, f kv.2)) flow = (find m flow).map f := by
  simp [find, List.find?_map, Function.comp_def]

theorem find_congr (m : ClusterFlowMap α) {flow flow' : FlowMarker}
    (h : eqClusterFlow flow flow' = true) : find m flow = find m flow' := by
  simp only [find, eqClusterFlow_congr _ h]

theorem find_set (m : ClusterFlowMap α) (flow flow' : FlowMarker) (v : α) :
    find (set m flow v) flow' =
      if eqClusterFlow flow flow' then (find m flow').map fun _ => v else find m flow' := by
  induction m with
  | nil => simp [find, set]
  | cons kv m ih =>
    have hfst : (if eqClusterFlow kv.1 flow then (kv.1, v) else kv).1 = kv.1 := by
      split_ifs <;> rfl
    simp only [find, set, List.map_cons, List.find?_cons, hfst] at ih ⊢
    cases hkey : eqClusterFlow kv.1 flow' with
    | false => exact ih
    | true =>
      have hsame : eqClusterFlow kv.1 flow = eqClusterFlow flow flow' := by
        rw [← eqClusterFlow_congr flow hkey, Bool.eq_iff_iff, eqClusterFlow_iff,
          eqClusterFlow_iff, @eq_comm _ flow.srcDc, @eq_comm _ flow.dstDc]
      rw [hsame]
      split_ifs <;> rfl

/-- `m[flow] = v`. -/
def assign (m : ClusterFlowMap α) (flow : FlowMarker) (v : α) : ClusterFlowMap α :=
  if (m.find flow).isSome then m.set flow v else m ++ [(flow, v)]

theorem find_assign (m : ClusterFlowMap α) (flow flow' : FlowMarker) (v : α) :
    find (assign m flow v) flow' = if eqClusterFlow flow flow' then some v else find m flow' := by
  rw [assign]
  by_cases hsome : (find m flow).isSome = true
  · rw [if_pos hsome, find_set]
    split_ifs with hflow
    · rw [← find_congr m hflow]
      obtain ⟨old, hold⟩ := Option.isSome_iff_exists.mp hsome
      rw [hold]
      rfl
    · rfl
  · rw [if_neg hsome]
    have hnone : find m flow = none := by simpa using hsome
    split_ifs with hflow
    · rw [find_congr m hflow] at hnone
      have hfind : (m.find? fun kv => eqClusterFlow kv.1 flow') = none := by
        simpa [find] using hnone
      simp [find, hfind, hflow]
    · simp [find, hflow]

end ClusterFlowMap

end HeypAgents
