import Mathlib.Data.List.AList
import HeypAgents.Lib.Runs
import HeypAgents.Alg.QosDowngrade

/-!
# Recording the stats of steps

`StatsRecorder` collects the latencies of calls in a histogram for each kind, and writes
a record at the end of each step.  A histogram is the multiset of the values that were
recorded in it; a value that it cannot track is dropped.  The loop that resets the
histograms at the end of a step goes over copies of the entries, so that they keep what
was recorded in earlier steps.
-/

namespace HeypAgents

open Runs

abbrev LatencyHists := AList fun _ : String => Multiset ℤ

def LatencyHists.hist (hists : LatencyHists) (kind : String) : Multiset ℤ :=
  (hists.lookup kind).getD 0

/-- A mean over no time is `none`. -/
structure StatsRecord where
  label : String
  timestamp : ℚ
  durSec : ℚ
  cumNumBits : ℤ
  cumNumRpcs : ℤ
  meanBitsPerSec : Option ℚ
  meanRpcsPerSec : Option ℤ
  latency : LatencyHists

structure StatsRecorder where
  started : Bool := false
  prevTime : ℚ := 0
  prevCumNumBits : ℤ
  prevCumNumRpcs : ℤ
  cumNumBits : ℤ
  cumNumRpcs : ℤ
  latencyHists : LatencyHists := ∅

namespace StatsRecorder

inductive Call where
  | startRecording (now : ℚ)
  | recordRpc (bufsizeBytes : ℤ) (kind : String) (dur : ℤ) (more : List (String × ℤ))
  | doneStep (label : String) (now : ℚ)

variable (trackable : ℤ → Bool)

def recordValue (hist : Multiset ℤ) (value : ℤ) : Multiset ℤ :=
  if trackable value then value ::ₘ hist else hist

def recordLatency (hists : LatencyHists) (latency : String × ℤ) : LatencyHists :=
  hists.insert latency.1 (recordValue trackable ((hists.lookup latency.1).getD 0) latency.2)

def recordRpc (r : StatsRecorder) (bufsizeBytes : ℤ) (latencies : List (String × ℤ)) :
    StatsRecorder :=
  { r with
    cumNumBits := r.cumNumBits + bufsizeBytes * 8
    cumNumRpcs := r.cumNumRpcs + 1
    latencyHists :=
      if r.started then latencies.foldl (recordLatency trackable) r.latencyHists
      else r.latencyHists }

/-- The record that `DoneStep` writes. -/
def stepRecord (r : StatsRecorder) (label : String) (now : ℚ) : StatsRecord :=
  let elapsedSec := now - r.prevTime
  { label := label
    timestamp := now
    durSec := elapsedSec
    cumNumBits := r.cumNumBits
    cumNumRpcs := r.cumNumRpcs
    meanBitsPerSec :=
      if elapsedSec = 0 then none else some ((r.cumNumBits - r.prevCumNumBits : ℤ) / elapsedSec)
    meanRpcsPerSec :=
      if elapsedSec = 0 then none
      else some (truncInt ((r.cumNumRpcs - r.prevCumNumRpcs : ℤ) / elapsedSec))
    latency := r.latencyHists }

/-- `DoneStep` after the record was made. -/
def endStep (r : StatsRecorder) (now : ℚ) : StatsRecorder :=
  { r with
    prevTime := now
    prevCumNumBits := r.cumNumBits
    prevCumNumRpcs := r.cumNumRpcs
    -- `for (auto iter : latency_hists_)` copies each entry and resets the copy
    latencyHists := r.latencyHists }

/-- A recorder with the records that it has written; `none` is a failed assertion. -/
def step (s : StatsRecorder × List StatsRecord) : Call → Option (StatsRecorder × List StatsRecord)
  | .startRecording now => some ({ s.1 with started := true, prevTime := now }, s.2)
  | .recordRpc bufsizeBytes kind dur more =>
    some (recordRpc trackable s.1 bufsizeBytes ((kind, dur) :: more), s.2)
  | .doneStep label now =>
    if s.1.started then some (endStep s.1 now, s.2 ++ [stepRecord s.1 label now]) else none

def create (prevCumNumBits prevCumNumRpcs cumNumBits cumNumRpcs : ℤ) : StatsRecorder where
  prevCumNumBits := prevCumNumBits
  prevCumNumRpcs := prevCumNumRpcs
  cumNumBits := cumNumBits
  cumNumRpcs := cumNumRpcs

section Steps

structure Ledger where
  started : Bool := false
  earlier : List (String × ℤ) := []
  current : List (String × ℤ) := []

def Ledger.add (l : Ledger) : Call → Ledger
  | .startRecording _ => { l with started := true }
  | .recordRpc _ kind dur more =>
    if l.started then { l with current := l.current ++ (kind, dur) :: more } else l
  | .doneStep _ _ => { l with earlier := l.earlier ++ l.current, current := [] }

def ledger (calls : List Call) : Ledger := calls.foldl Ledger.add {}

theorem ledger_concat (calls : List Call) (c : Call) :
    ledger (calls ++ [c]) = (ledger calls).add c := by
  rw [ledger, List.foldl_append]
  rfl

variable {trackable}

def histOf (trackable : ℤ → Bool) (latencies : List (String × ℤ)) (kind : String) : Multiset ℤ :=
  ((latencies.filter fun l => l.1 = kind && trackable l.2).map Prod.snd : List ℤ)

theorem histOf_append (earlier current : List (String × ℤ)) (kind : String) :
    histOf trackable (earlier ++ current) kind =
      histOf trackable earlier kind + histOf trackable current kind := by
  rw [histOf, List.filter_append, List.map_append, ← Multiset.coe_add]
  rfl

theorem histOf_eq_zero_iff (latencies : List (String × ℤ)) :
    (∀ kind, histOf trackable latencies kind = 0) ↔ ∀ l ∈ latencies, trackable l.2 = false := by
  simp only [histOf, Multiset.coe_eq_zero, List.map_eq_nil_iff, List.filter_eq_nil_iff,
    Bool.and_eq_true, decide_eq_true_eq, not_and, Bool.not_eq_true]
  constructor
  · exact fun h l hl => h l.1 l hl rfl
  · exact fun h kind l hl _ => h l hl

theorem hist_recordLatency (hists : LatencyHists) (l : String × ℤ) (kind : String) :
    (recordLatency trackable hists l).hist kind = hists.hist kind + histOf trackable [l] kind := by
  rw [recordLatency, LatencyHists.hist, histOf, List.filter_singleton]
  by_cases hkind : l.1 = kind
  · subst hkind
    rw [AList.lookup_insert, Option.getD_some, recordValue, LatencyHists.hist]
    cases htrack : trackable l.2 with
    | true => simp [add_comm]
    | false => simp
  · rw [AList.lookup_insert_ne (Ne.symm hkind), LatencyHists.hist]
    simp [hkind]

theorem hist_foldl_recordLatency (latencies : List (String × ℤ)) (hists : LatencyHists)
    (kind : String) :
    (latencies.foldl (recordLatency trackable) hists).hist kind =
      hists.hist kind + histOf trackable latencies kind := by
  induction latencies generalizing hists with
  | nil => simp [histOf]
  | cons l latencies ih =>
    rw [List.foldl_cons, ih, hist_recordLatency, add_assoc, ← histOf_append]
    rfl

structure Accumulated (trackable : ℤ → Bool) (l : Ledger) (r : StatsRecorder) : Prop where
  started : r.started = l.started
  hists : ∀ kind, r.latencyHists.hist kind = histOf trackable (l.earlier ++ l.current) kind

theorem accumulated_create (prevCumNumBits prevCumNumRpcs cumNumBits cumNumRpcs : ℤ) :
    Accumulated trackable {} (create prevCumNumBits prevCumNumRpcs cumNumBits cumNumRpcs) where
  started := rfl
  hists := fun _ => rfl

/-- A call adds to the histograms, and none resets them. -/
theorem Accumulated.step {l : Ledger} {s s' : StatsRecorder × List StatsRecord} {c : Call}
    (h : Accumulated trackable l s.1) (hstep : StatsRecorder.step trackable s c = some s') :
    Accumulated trackable (l.add c) s'.1 := by
  cases c with
  | startRecording now =>
    cases hstep
    exact ⟨rfl, h.hists⟩
  | recordRpc bufsizeBytes kind dur more =>
    cases hstep
    rw [Ledger.add]
    split_ifs with hstarted
    · have hs : s.1.started = true := h.started.trans hstarted
      refine ⟨h.started, fun kind' => ?_⟩
      simp only [StatsRecorder.recordRpc, hs, if_true]
      rw [hist_foldl_recordLatency, h.hists, ← histOf_append, List.append_assoc]
    · have hs : ¬ s.1.started = true := by rwa [h.started]
      refine ⟨h.started, fun kind => ?_⟩
      simpa [StatsRecorder.recordRpc, hs] using h.hists kind
  | doneStep label now =>
    rw [StatsRecorder.step] at hstep
    split_ifs at hstep
    cases hstep
    refine ⟨h.started, fun kind => ?_⟩
    simpa [Ledger.add, endStep] using h.hists kind

theorem accumulated_run {prevCumNumBits prevCumNumRpcs cumNumBits cumNumRpcs : ℤ}
    {calls : List Call} {s : StatsRecorder × List StatsRecord}
    (hrun : exec (StatsRecorder.step trackable)
      (create prevCumNumBits prevCumNumRpcs cumNumBits cumNumRpcs, []) calls = some s) :
    Accumulated trackable (ledger calls) s.1 := by
  induction calls using List.reverseRecOn generalizing s with
  | nil =>
    cases hrun
    exact accumulated_create _ _ _ _
  | append_singleton calls c ih =>
    obtain ⟨s₁, hrun, hstep⟩ := exec_concat_eq_some.mp hrun
    rw [ledger_concat]
    exact (ih hrun).step hstep

/--
The record that `DoneStep` writes after any run has the latencies of its own step, and no
others, iff in the earlier steps nothing was recorded that a histogram can track.
-/
theorem doneStep_record_iff {prevCumNumBits prevCumNumRpcs cumNumBits cumNumRpcs : ℤ}
    (calls : List Call) {s s' : StatsRecorder × List StatsRecord} {label : String} {now : ℚ}
    (hrun : exec (StatsRecorder.step trackable)
      (create prevCumNumBits prevCumNumRpcs cumNumBits cumNumRpcs, []) calls = some s)
    (hdone : StatsRecorder.step trackable s (.doneStep label now) = some s') :
    (∃ record, s'.2 = s.2 ++ [record] ∧ ∀ kind,
        record.latency.hist kind = histOf trackable (ledger calls).current kind) ↔
      ∀ l ∈ (ledger calls).earlier, trackable l.2 = false := by
  have h := accumulated_run hrun
  rw [StatsRecorder.step] at hdone
  split_ifs at hdone
  cases hdone
  have hrecord : ∀ kind, (stepRecord s.1 label now).latency.hist kind =
      histOf trackable (ledger calls).earlier kind +
        histOf trackable (ledger calls).current kind := by
    intro kind
    rw [← histOf_append, ← h.hists kind]
    rfl
  rw [← histOf_eq_zero_iff]
  constructor
  · rintro ⟨record, hlog, hstep⟩ kind
    obtain rfl : stepRecord s.1 label now = record := by simpa using hlog
    exact add_eq_right.mp ((hrecord kind).symm.trans (hstep kind))
  · intro hearlier
    refine ⟨_, rfl, fun kind => ?_⟩
    rw [hrecord, hearlier, zero_add]

/-- The first step of a session. -/
def firstStep : List Call := [.startRecording 0, .recordRpc 100 "full" 5 []]

theorem doneStep_record_first_step :
    ∃ s s', exec (StatsRecorder.step fun _ => true) (create 0 0 0 0, []) firstStep = some s ∧
      StatsRecorder.step (fun _ => true) s (.doneStep "first" 1) = some s' ∧
      ∃ record, s'.2 = s.2 ++ [record] ∧ ∀ kind,
        record.latency.hist kind = histOf (fun _ => true) (ledger firstStep).current kind :=
  ⟨_, _, rfl, rfl, (doneStep_record_iff firstStep rfl rfl).mpr fun _ h => absurd h List.not_mem_nil⟩

/-- The second step, in which there is no call, has the latency of the first one. -/
theorem not_doneStep_record_second_step :
    ∃ s s', exec (StatsRecorder.step fun _ => true) (create 0 0 0 0, [])
        (firstStep ++ [.doneStep "first" 1]) = some s ∧
      StatsRecorder.step (fun _ => true) s (.doneStep "second" 2) = some s' ∧
      ∃ record, s'.2 = s.2 ++ [record] ∧ record.latency.hist "full" = {5} ∧
        histOf (fun _ => true) (ledger (firstStep ++ [.doneStep "first" 1])).current "full" = 0 :=
  ⟨_, _, rfl, rfl, _, rfl, by decide +kernel, rfl⟩

end Steps

end StatsRecorder
end HeypAgents
