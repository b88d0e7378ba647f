import HeypAgents.HostAgent.FlowTracker
import HeypAgents.HostAgent.ParseSSSafety

/-!
# Reports of the connections

`SSFlowStateReporter` reads the lines that `ss` prints and passes them to the tracker:
`ReportState` those of the open connections, in one batch, and `MonitorDone` those of the
connections that are closed, one by one.

The byte counters are unsigned where they are printed and signed in the tracker.  A counter
that becomes negative is smaller than the usage of every state, also of a new one, and
keeps the loop of `UpdateFlows` from advancing.
-/

namespace HeypAgents

open MemoryFaults StringView ParseSS Flows

structure SSFlowStateReporter.Config where
  hostId : UInt64
  myAddrs : List String
  collectAux : Bool := false
deriving DecidableEq, Repr

namespace SSFlowStateReporter

variable {Double : Type} (d : Doubles Double) (config : Config)

def ignoreFlow (flow : FlowMarker) : Bool := !config.myAddrs.contains flow.srcAddr

def lineUpdate (pri : FlowMarker → FlowPri) (line : View) :
    Except Fault (Option FlowTracker.Update) :=
  (parseLineSS d config.hostId line config.collectAux).run.map fun status =>
    match status with
    | .error _ => none
    | .ok parsed =>
      if ignoreFlow config parsed.flow then none
      else some {
        flow := parsed.flow
        instantaneousUsageBps := parsed.curUsageBps
        cumUsageBytes := parsed.cumUsageBytes
        usedPriority := pri parsed.flow }

/-- The batch of `ReportState`; an empty line ends it. -/
def flowUpdates (isLopri : FlowMarker → Bool) : List View → Except Fault (List FlowTracker.Update)
  | [] => return []
  | line :: lines =>
    if line = [] then return []
    else do
      let update ← lineUpdate d config (fun flow => if isLopri flow then .lo else .hi) line
      let updates ← flowUpdates isLopri lines
      return update.toList ++ updates

/-- `none` when `UpdateFlows` does not return. -/
def reportState (t : FlowTracker) (now : ℚ) (isLopri : FlowMarker → Bool) (lines : List View) :
    Except Fault (Option FlowTracker) := do
  let batch ← flowUpdates d config isLopri lines
  return t.updateFlows now batch

/-- One line of `MonitorDone`. -/
def monitorDone (t : FlowTracker) (now : ℚ) (line : View) : Except Fault (Option FlowTracker) := do
  match ← lineUpdate d config (fun _ => .unset) line with
  | some update => return t.finalizeFlows now [update]
  | none => return some t

section Batches

variable {d config} {pri : FlowMarker → FlowPri} {line : View} {u : FlowTracker.Update}

theorem of_lineUpdate (h : lineUpdate d config pri line = .ok (some u)) :
    IsCounter u.cumUsageBytes ∧ u.usedPriority = pri u.flow := by
  unfold lineUpdate at h
  cases hrun : (parseLineSS d config.hostId line config.collectAux).run with
  | error flt =>
    rw [hrun] at h
    cases h
  | ok status =>
    have hreturns : Returns (parseLineSS d config.hostId line config.collectAux) :=
      ⟨status, hrun, fun _ _ => trivial⟩
    obtain ⟨status', hrun', hcounter⟩ := ensures_parseLineSS d config.hostId config.collectAux
      (length_of_returns d hreturns)
    obtain rfl : status = status' := Except.ok.inj (hrun.symm.trans hrun')
    rw [hrun] at h
    cases status with
    | error message => cases h
    | ok parsed =>
      have hu := Except.ok.inj h
      dsimp only at hu
      split_ifs at hu
      cases hu
      exact ⟨hcounter parsed rfl, rfl⟩

theorem bind_eq_ok {α β : Type} {x : Except Fault α} {f : α → Except Fault β} {b : β} :
    x >>= f = .ok b ↔ ∃ a, x = .ok a ∧ f a = .ok b := by
  cases x with
  | error flt => exact ⟨by rintro ⟨⟩, by rintro ⟨_, ⟨⟩, _⟩⟩
  | ok a => exact ⟨fun h => ⟨a, rfl, h⟩, by rintro ⟨_, ⟨⟩, h⟩; exact h⟩

theorem of_flowUpdates {isLopri : FlowMarker → Bool} {lines : List View}
    {batch : List FlowTracker.Update} (h : flowUpdates d config isLopri lines = .ok batch) :
    ∀ u ∈ batch, IsCounter u.cumUsageBytes ∧ u.usedPriority ≠ .unset := by
  induction lines generalizing batch with
  | nil =>
    cases h
    simp
  | cons line lines ih =>
    unfold flowUpdates at h
    split at h
    · cases h
      simp
    · obtain ⟨update, hupdate, h⟩ := bind_eq_ok.mp h
      obtain ⟨updates, hupdates, h⟩ := bind_eq_ok.mp h
      cases h
      intro u hu
      rcases List.mem_append.mp hu with hu | hu
      · obtain rfl := Option.mem_toList.mp hu
        obtain ⟨hcounter, hpri⟩ := of_lineUpdate hupdate
        refine ⟨hcounter, ?_⟩
        rw [hpri]
        split <;> simp
      · exact ih hupdates u hu

end Batches

theorem nonneg_asInt64_iff {n : ℕ} (hn : n < 2 ^ 64) : 0 ≤ asInt64 n ↔ n < 2 ^ 63 := by
  unfold asInt64
  rw [Int.bmod_def]
  split_ifs <;> omega

theorem nonneg_iff_of_isCounter {bytes : ℤ} (h : IsCounter bytes) :
    0 ≤ bytes ↔ ∃ printed : ℕ, printed < 2 ^ 63 ∧ bytes = asInt64 printed := by
  constructor
  · intro hnonneg
    obtain ⟨printed, hlt, hbytes⟩ := h
    rw [hbytes, nonneg_asInt64_iff hlt] at hnonneg
    exact ⟨printed, hnonneg, hbytes⟩
  · rintro ⟨printed, hlt, hbytes⟩
    rwa [hbytes, nonneg_asInt64_iff (by omega)]

/--
`UpdateFlows` ends on the batch of a report iff every counter of it was printed as a number
below 2 ^ 63.
-/
theorem updateFlows_ends_iff (isLopri : FlowMarker → Bool) {lines : List View}
    {batch : List FlowTracker.Update} (hbatch : flowUpdates d config isLopri lines = .ok batch)
    (t : FlowTracker) (timestamp : ℚ) (hmemory : t.flows.length + batch.length < 2 ^ 64) :
    (∃ n t', FlowTracker.updateLoop timestamp n t batch = some (t', [])) ↔
      ∀ u ∈ batch, ∃ printed : ℕ, printed < 2 ^ 63 ∧ u.cumUsageBytes = asInt64 printed := by
  have hupdates := of_flowUpdates hbatch
  have hnonneg : (∀ u ∈ batch, ∃ printed : ℕ, printed < 2 ^ 63 ∧
      u.cumUsageBytes = asInt64 printed) ↔ ∀ u ∈ batch, 0 ≤ u.cumUsageBytes :=
    forall₂_congr fun u hu => (nonneg_iff_of_isCounter (hupdates u hu).1).symm
  rw [hnonneg, exists_comm]
  simp only [FlowTracker.exists_updateLoop_iff]
  constructor
  · rintro ⟨t', hreturns⟩
    exact FlowTracker.nonneg_of_updateFlows hreturns
  · intro h
    exact FlowTracker.exists_updateFlows timestamp (fun u hu => ⟨h u hu, (hupdates u hu).2⟩) hmemory

def hostSeven : Config where
  hostId := 7
  myAddrs := ["10.0.0.1"]

def noDoubles : Doubles ℚ where
  simpleAtod := fun _ => none
  toInt64 := fun _ _ => 0

def reported (cumUsageBytes : ℤ) : FlowTracker.Update where
  flow := {
    hostId := 7
    srcAddr := "10.0.0.1"
    dstAddr := "10.0.0.2"
    protocol := .tcp
    srcPort := 80
    dstPort := 4580 }
  cumUsageBytes := cumUsageBytes
  usedPriority := .hi

theorem flowUpdates_small :
    flowUpdates noDoubles hostSeven (fun _ => false)
      ["ESTAB 0 0 10.0.0.1:80 10.0.0.2:4580 bytes_sent:4140".toList] = .ok [reported 4140] := by
  decide +kernel

theorem flowUpdates_large :
    flowUpdates noDoubles hostSeven (fun _ => false)
      ["ESTAB 0 0 10.0.0.1:80 10.0.0.2:4580 bytes_sent:9223372036854775808".toList] =
      .ok [reported (-9223372036854775808)] := by
  decide +kernel

theorem updateFlows_ends_small :
    ∃ batch, flowUpdates noDoubles hostSeven (fun _ => false)
        ["ESTAB 0 0 10.0.0.1:80 10.0.0.2:4580 bytes_sent:4140".toList] = .ok batch ∧
      ∃ n t', FlowTracker.updateLoop 0 n (.create (fun _ _ => 0) {}) batch = some (t', []) := by
  refine ⟨_, flowUpdates_small, (updateFlows_ends_iff noDoubles hostSeven (fun _ => false)
    flowUpdates_small _ _ (by decide)).mpr ?_⟩
  rw [List.forall_mem_singleton]
  exact ⟨4140, by omega, rfl⟩

/-- A new tracker never returns from the report of 2 ^ 63 bytes. -/
theorem updateFlows_stuck_large :
    ∃ batch, flowUpdates noDoubles hostSeven (fun _ => false)
        ["ESTAB 0 0 10.0.0.1:80 10.0.0.2:4580 bytes_sent:9223372036854775808".toList] = .ok batch ∧
      ¬ ∃ n t', FlowTracker.updateLoop 0 n (.create (fun _ _ => 0) {}) batch = some (t', []) := by
  refine ⟨_, flowUpdates_large, ?_⟩
  rintro ⟨n, t', hends⟩
  exact FlowTracker.updateLoop_of_neg (by simp [reported]) [] n rfl hends

end SSFlowStateReporter
end HeypAgents
