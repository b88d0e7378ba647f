import HeypAgents.HostAgent.FlowTrackerAccounting
import HeypAgents.HostAgent.SSFlowStateReporter

/-!
# Reports while connections end

`ReportState` takes a snapshot of the counters of the open connections and later hands it
to the tracker.  Meanwhile `MonitorDone` may finalize some of these connections.  The
snapshot then still lists them, and the tracker takes them for new connections: what they
have sent is counted a second time.

The counters are those of a set of connections that are opened, send and are closed.
Addresses and ports are not used again, so a key stands for one connection.
-/

namespace HeypAgents
namespace FlowReports

open Runs Flows

structure Connections (κ : Type) where
  flow : κ → FlowMarker
  injective : ∀ c c', hostFlowKey (flow c) = hostFlowKey (flow c') → c = c'

namespace Connections

variable {κ : Type} (conns : Connections κ)

def key (c : κ) : FlowMarker := hostFlowKey (conns.flow c)

end Connections

/-- A connection is finalized once `MonitorDone` has handled it. -/
inductive Phase where
  | unopened
  | opened
  | closed
  | finalized
deriving DecidableEq, Repr

/-- Where `ReportState` is; `now` is the time at which it started. -/
inductive ReportPhase where
  | idle
  | started (now : ℚ)
  | taken (now : ℚ) (batch : List FlowTracker.Update)

def ReportPhase.time : ReportPhase → Option ℚ
  | .idle => none
  | .started now => some now
  | .taken now _ => some now

def ReportPhase.batch : ReportPhase → List FlowTracker.Update
  | .taken _ batch => batch
  | _ => []

structure Host (κ : Type) where
  now : ℚ
  sent : κ → ℤ := fun _ => 0
  phase : κ → Phase := fun _ => .unopened
  report : ReportPhase := .idle
  tracker : FlowTracker

inductive Event (κ : Type) where
  | connect (c : κ)
  | send (c : κ) (bytes : ℕ)
  | close (c : κ)
  | monitorDone (now : ℚ) (c : κ) (usageBps : ℤ)
  | startReport (now : ℚ)
  | snapshot (order : List κ) (usageBps : κ → ℤ) (isLopri : FlowMarker → Bool)
  | apply

section Steps

variable {κ : Type} [DecidableEq κ] [Fintype κ] (conns : Connections κ)
  (config : SSFlowStateReporter.Config)

def create (start : ℚ) (demandPredictor : DemandPredictor) (trackerConfig : FlowTracker.Config) :
    Host κ where
  now := start
  tracker := .create demandPredictor trackerConfig

def ignored (c : κ) : Bool := SSFlowStateReporter.ignoreFlow config (conns.flow c)

def Host.update (s : Host κ) (c : κ) (usageBps : ℤ) (pri : FlowPri) : FlowTracker.Update where
  flow := conns.flow c
  instantaneousUsageBps := usageBps
  cumUsageBytes := s.sent c
  usedPriority := pri

def Host.batch (s : Host κ) (order : List κ) (usageBps : κ → ℤ) (isLopri : FlowMarker → Bool) :
    List FlowTracker.Update :=
  (order.filter fun c => !ignored conns config c).map fun c =>
    s.update conns c (usageBps c) (if isLopri (conns.flow c) then .lo else .hi)

def Host.monitorDone (s : Host κ) (now : ℚ) (c : κ) (usageBps : ℤ) : Option (Host κ) :=
  let s' := { s with now := now, phase := Function.update s.phase c .finalized }
  if ignored conns config c then some s'
  else
    (s.tracker.finalizeFlows now [s.update conns c usageBps .unset]).map
      fun tracker => { s' with tracker := tracker }

/-- `none` is an event that does not happen in the state. -/
def step (s : Host κ) : Event κ → Option (Host κ)
  | .connect c =>
    if s.phase c = .unopened then
      some { s with phase := Function.update s.phase c .opened }
    else none
  | .send c bytes =>
    if s.phase c = .opened then
      some { s with sent := Function.update s.sent c (s.sent c + bytes) }
    else none
  | .close c =>
    if s.phase c = .opened then
      some { s with phase := Function.update s.phase c .closed }
    else none
  | .monitorDone now c usageBps =>
    if s.phase c = .closed ∧ s.now ≤ now then s.monitorDone conns config now c usageBps
    else none
  | .startReport now =>
    match s.report with
    | .idle => if s.now ≤ now then some { s with now := now, report := .started now } else none
    | _ => none
  | .snapshot order usageBps isLopri =>
    match s.report with
    | .started now =>
      if order.Nodup ∧ ∀ c, c ∈ order ↔ s.phase c = .opened then
        some { s with
          report := .taken now (s.batch conns config order usageBps isLopri) }
      else none
    | _ => none
  | .apply =>
    match s.report with
    | .taken now batch =>
      (s.tracker.updateFlows now batch).map
        fun tracker => { s with report := .idle, tracker := tracker }
    | _ => none

def Fresh (s : Host κ) : Event κ → Prop
  | .apply => ∀ u ∈ s.report.batch, ∀ c, u.flow = conns.flow c → s.phase c = .finalized →
      u.cumUsageBytes = 0
  | _ => True

instance (s : Host κ) (e : Event κ) : Decidable (Fresh conns s e) :=
  match e with
  | .apply => inferInstanceAs (Decidable (∀ u ∈ s.report.batch, ∀ c, u.flow = conns.flow c →
      s.phase c = .finalized → u.cumUsageBytes = 0))
  | .connect _ | .send _ _ | .close _ | .monitorDone _ _ _ | .startReport _ | .snapshot _ _ _ =>
    isTrue trivial

end Steps

section Invariant

variable {κ : Type} (conns : Connections κ) (config : SSFlowStateReporter.Config)

def openUsage (t : FlowTracker) (c : κ) : ℤ := (t.openUsage (conns.key c)).getD 0

def closedUsage (t : FlowTracker) (c : κ) : ℤ := t.closedUsage (conns.key c)

def usage (t : FlowTracker) (c : κ) : ℤ :=
  ((t.statesOf (conns.key c)).map fun state => state.cur.cumUsageBytes).sum

structure Counted (t : FlowTracker) (sent : ℤ) (phase : Phase) (c : κ) : Prop where
  nonneg : 0 ≤ sent
  skipped : ignored conns config c = true → openUsage conns t c = 0 ∧ closedUsage conns t c = 0
  live : phase ≠ .finalized → openUsage conns t c ≤ sent ∧ closedUsage conns t c = 0
  done : phase = .finalized → ignored conns config c = false →
    openUsage conns t c = 0 ∧ closedUsage conns t c = sent

structure Listed (t : FlowTracker) (sent : κ → ℤ) (u : FlowTracker.Update) (c : κ) : Prop where
  flow : u.flow = conns.flow c
  counted : ignored conns config c = false
  ge : openUsage conns t c ≤ u.cumUsageBytes
  nonneg : 0 ≤ u.cumUsageBytes
  le : u.cumUsageBytes ≤ sent c

/-- What holds as long as snapshots are fresh. -/
structure Inv (s : Host κ) : Prop where
  sound : s.tracker.Sound
  dated : s.tracker.Dated s.now
  time : ∀ now, s.report.time = some now → now ≤ s.now ∧ s.tracker.Dated now
  known : ∀ state ∈ s.tracker.flows, ∃ c, hostFlowKey state.flow = conns.key c
  counted : ∀ c, Counted conns config s.tracker (s.sent c) (s.phase c) c
  nodup : (s.report.batch.map fun u => hostFlowKey u.flow).Nodup
  listed : ∀ u ∈ s.report.batch, ∃ c, Listed conns config s.tracker s.sent u c

variable {conns config} {s s' : Host κ} {c : κ}

theorem Inv.usage_eq (h : Inv conns config s) (c : κ) :
    usage conns s.tracker c = openUsage conns s.tracker c + closedUsage conns s.tracker c :=
  h.sound.usage_statesOf _

theorem Inv.usage_le (h : Inv conns config s) (c : κ) : usage conns s.tracker c ≤ s.sent c := by
  rw [h.usage_eq]
  have hc := h.counted c
  cases hignored : ignored conns config c with
  | true =>
    obtain ⟨hopen, hclosed⟩ := hc.skipped hignored
    rw [hopen, hclosed]
    exact hc.nonneg
  | false =>
    by_cases hphase : s.phase c = .finalized
    · obtain ⟨hopen, hclosed⟩ := hc.done hphase hignored
      rw [hopen, hclosed, zero_add]
    · obtain ⟨hopen, hclosed⟩ := hc.live hphase
      rw [hclosed, add_zero]
      exact hopen

variable {now : ℚ}

theorem Inv.startReport (h : Inv conns config s) (hnow : s.now ≤ now) :
    Inv conns config { s with now := now, report := .started now } := by
  have hdated := h.dated.mono hnow
  refine ⟨h.sound, hdated, fun now' hnow' => ?_, h.known, h.counted, List.nodup_nil, by
    simp [ReportPhase.batch]⟩
  obtain rfl := Option.some.inj hnow'
  exact ⟨le_rfl, hdated⟩

theorem Inv.snapshot (h : Inv conns config s) (hreport : s.report = .started now)
    {order : List κ} (hnodup : order.Nodup) (horder : ∀ c, c ∈ order ↔ s.phase c = .opened)
    (usageBps : κ → ℤ) (isLopri : FlowMarker → Bool) :
    Inv conns config { s with
      report := .taken now (s.batch conns config order usageBps isLopri) } := by
  refine ⟨h.sound, h.dated, fun now' hnow' => h.time now' (hreport ▸ hnow'), h.known, h.counted,
    ?_, fun u hu => ?_⟩
  · rw [ReportPhase.batch, Host.batch, List.map_map]
    refine (hnodup.filter _).map fun c c' heq => conns.injective c c' heq
  · obtain ⟨c, hc, rfl⟩ := List.mem_map.mp hu
    obtain ⟨hmem, hcounted⟩ := List.mem_filter.mp hc
    have hlive : s.phase c ≠ .finalized := by
      rw [(horder c).mp hmem]
      simp
    exact ⟨c, rfl, by simpa using hcounted, ((h.counted c).live hlive).1, (h.counted c).nonneg,
      le_rfl⟩

theorem openUsage_of_ne {t t' : FlowTracker} {c' : κ} (hne : c' ≠ c)
    (h : ∀ key, key ≠ conns.key c →
      t'.openUsage key = t.openUsage key ∧ t'.closedUsage key = t.closedUsage key) :
    openUsage conns t' c' = openUsage conns t c' ∧
      closedUsage conns t' c' = closedUsage conns t c' := by
  have hkey : conns.key c' ≠ conns.key c := fun heq => hne (conns.injective c' c heq)
  obtain ⟨hopen, hclosed⟩ := h _ hkey
  exact ⟨congrArg (Option.getD · 0) hopen, hclosed⟩

variable {t : FlowTracker}

theorem Inv.known_of_evolves (h : Inv conns config s)
    (hevolves : s.tracker.Evolves (fun flow => ∃ c, hostFlowKey flow = conns.key c) t) :
    ∀ state ∈ t.flows, ∃ c, hostFlowKey state.flow = conns.key c := by
  intro state hstate
  rcases hevolves.origin state hstate with ⟨old, hold, hflow⟩ | hnew
  · rw [hflow]
    exact h.known old hold
  · exact hnew

theorem inv_create (start : ℚ) (demandPredictor : DemandPredictor)
    (trackerConfig : FlowTracker.Config) :
    Inv conns config (create start demandPredictor trackerConfig : Host κ) := by
  refine ⟨(FlowTracker.books_create demandPredictor trackerConfig).sound, ?_, (by rintro _ ⟨⟩),
    (by simp [create, FlowTracker.create, FlowTracker.flows, MapValues.values]), fun c => ?_,
    List.nodup_nil, by simp [create, ReportPhase.batch]⟩
  · intro key state hstate
    simp [create, FlowTracker.create] at hstate
  · exact ⟨le_rfl, fun _ => ⟨rfl, rfl⟩, fun _ => ⟨le_rfl, rfl⟩, fun hdone => by cases hdone⟩

theorem Inv.of_updateFlows (h : Inv conns config s) {batch : List FlowTracker.Update}
    (hreport : s.report = .taken now batch)
    (hupdate : s.tracker.updateFlows now batch = some t) :
    t.Sound ∧ t.Dated now ∧ (∀ state ∈ t.flows, ∃ c, hostFlowKey state.flow = conns.key c) ∧
      (∀ u ∈ batch, ∀ c, u.flow = conns.flow c → openUsage conns t c = u.cumUsageBytes ∧
        closedUsage conns t c = closedUsage conns s.tracker c) ∧
      ∀ c, (∀ u ∈ batch, u.flow ≠ conns.flow c) →
        openUsage conns t c = openUsage conns s.tracker c ∧
          closedUsage conns t c = closedUsage conns s.tracker c := by
  have hlisted := h.listed
  have hnodup := h.nodup
  rw [hreport] at hlisted hnodup
  have hdated := (h.time now (by rw [hreport]; rfl)).2
  have hnonneg : ∀ u ∈ batch, 0 ≤ u.cumUsageBytes := fun u hu => (hlisted u hu).choose_spec.nonneg
  obtain ⟨hsound, hdated', hbatch, hothers⟩ := h.sound.foldlM_absorb hdated hnonneg hnodup
    (FlowTracker.updateFlows_eq_some_iff.mp hupdate)
  have hnew : ∀ u ∈ batch, ∀ seqnum,
      ∃ c, hostFlowKey { u.flow with seqnum := seqnum } = conns.key c := by
    intro u hu seqnum
    obtain ⟨c, hc⟩ := hlisted u hu
    exact ⟨c, (congrArg hostFlowKey hc.flow : hostFlowKey u.flow = conns.key c)⟩
  refine ⟨hsound, hdated', h.known_of_evolves (FlowTracker.evolves_updateFlows hnew hupdate),
    fun u hu c hflow => ?_, fun c hc => ?_⟩
  · obtain ⟨c', hlisted'⟩ := hlisted u hu
    obtain rfl : c = c' :=
      conns.injective c c' (congrArg hostFlowKey (hflow.symm.trans hlisted'.flow))
    obtain ⟨hopen, hclosed⟩ := hbatch u hu
    have hge : ¬ u.cumUsageBytes < (s.tracker.openUsage (hostFlowKey u.flow)).getD 0 := by
      rw [hflow]
      exact not_lt.mpr hlisted'.ge
    rw [if_neg hge, add_zero] at hclosed
    rw [hflow] at hopen hclosed
    exact ⟨congrArg (Option.getD · 0) hopen, hclosed⟩
  · have hkey : ∀ u ∈ batch, conns.key c ≠ hostFlowKey u.flow := by
      intro u hu heq
      obtain ⟨c', hlisted'⟩ := hlisted u hu
      rw [hlisted'.flow] at heq
      exact hc u hu (conns.injective c c' heq ▸ hlisted'.flow)
    obtain ⟨hopen, hclosed⟩ := hothers _ hkey
    exact ⟨congrArg (Option.getD · 0) hopen, hclosed⟩

theorem Inv.apply (h : Inv conns config s) {batch : List FlowTracker.Update}
    (hreport : s.report = .taken now batch)
    (hfresh : ∀ u ∈ batch, ∀ c, u.flow = conns.flow c → s.phase c = .finalized →
      u.cumUsageBytes = 0)
    (hupdate : s.tracker.updateFlows now batch = some t) :
    Inv conns config { s with report := .idle, tracker := t } := by
  obtain ⟨hsound, hdated, hknown, hbatch, hothers⟩ := h.of_updateFlows hreport hupdate
  have hnow := (h.time now (by rw [hreport]; rfl)).1
  have hlisted := h.listed
  rw [hreport] at hlisted
  refine ⟨hsound, hdated.mono hnow, (by rintro _ ⟨⟩), hknown, fun c => ?_,
    List.nodup_nil, by simp [ReportPhase.batch]⟩
  have hc := h.counted c
  by_cases hmem : ∃ u ∈ batch, u.flow = conns.flow c
  · obtain ⟨u, hu, hflow⟩ := hmem
    obtain ⟨hopen, hclosed⟩ := hbatch u hu c hflow
    obtain ⟨c', hu'⟩ := hlisted u hu
    obtain rfl : c = c' := conns.injective c c' (congrArg hostFlowKey (hflow.symm.trans hu'.flow))
    refine ⟨hc.nonneg, fun hignored => absurd (hu'.counted.symm.trans hignored) (by simp),
      fun hlive => ⟨hopen.trans_le hu'.le, hclosed.trans (hc.live hlive).2⟩,
      fun hdone hcounted => ⟨hopen.trans (hfresh u hu c hflow hdone),
        hclosed.trans (hc.done hdone hcounted).2⟩⟩
  · obtain ⟨hopen, hclosed⟩ := hothers c fun u hu hflow => hmem ⟨u, hu, hflow⟩
    refine ⟨hc.nonneg, ?_, ?_, ?_⟩
    all_goals dsimp only; rw [hopen, hclosed]
    · exact hc.skipped
    · exact hc.live
    · exact hc.done

theorem Inv.time_le (h : Inv conns config s) (hnow : s.now ≤ now) :
    ∀ now', s.report.time = some now' → now' ≤ now ∧ s.tracker.Dated now' :=
  fun now' hnow' => ⟨(h.time now' hnow').1.trans hnow, (h.time now' hnow').2⟩

variable [DecidableEq κ]

theorem Inv.setPhase (h : Inv conns config s) {phase : Phase} (hlive : s.phase c ≠ .finalized)
    (hphase : phase ≠ .finalized) :
    Inv conns config { s with phase := Function.update s.phase c phase } := by
  refine ⟨h.sound, h.dated, h.time, h.known, fun c' => ?_, h.nodup, h.listed⟩
  by_cases hc : c' = c
  · subst hc
    have hc' := h.counted c'
    dsimp only
    rw [Function.update_self]
    exact ⟨hc'.nonneg, hc'.skipped, fun _ => hc'.live hlive, fun hdone => absurd hdone hphase⟩
  · dsimp only
    rw [Function.update_of_ne hc]
    exact h.counted c'

theorem Inv.send (h : Inv conns config s) (hphase : s.phase c = .opened) (bytes : ℕ) :
    Inv conns config { s with sent := Function.update s.sent c (s.sent c + bytes) } := by
  have hle : ∀ c', s.sent c' ≤ Function.update s.sent c (s.sent c + bytes) c' := by
    intro c'
    by_cases hc : c' = c
    · subst hc
      rw [Function.update_self]
      omega
    · rw [Function.update_of_ne hc]
  refine ⟨h.sound, h.dated, h.time, h.known, fun c' => ?_, h.nodup, fun u hu => ?_⟩
  · have hc' := h.counted c'
    refine ⟨hc'.nonneg.trans (hle c'), hc'.skipped, fun hlive => ?_, fun hdone => ?_⟩
    · exact ⟨(hc'.live hlive).1.trans (hle c'), (hc'.live hlive).2⟩
    · have hne : c' ≠ c := by
        rintro rfl
        exact absurd (hphase.symm.trans hdone) (by simp)
      dsimp only
      rw [Function.update_of_ne hne]
      exact hc'.done hdone
  · obtain ⟨c', hlisted⟩ := h.listed u hu
    exact ⟨c', hlisted.flow, hlisted.counted, hlisted.ge, hlisted.nonneg, hlisted.le.trans (hle c')⟩

theorem Inv.finalize_ignored (h : Inv conns config s) (hnow : s.now ≤ now)
    (hignored : ignored conns config c = true) :
    Inv conns config { s with now := now, phase := Function.update s.phase c .finalized } := by
  refine ⟨h.sound, h.dated.mono hnow, h.time_le hnow, h.known, fun c' => ?_, h.nodup, h.listed⟩
  have hc' := h.counted c'
  by_cases hc : c' = c
  · subst hc
    dsimp only
    rw [Function.update_self]
    exact ⟨hc'.nonneg, hc'.skipped, fun hfinal => absurd rfl hfinal,
      fun _ hcounted => absurd (hignored.symm.trans hcounted) (by simp)⟩
  · dsimp only
    rw [Function.update_of_ne hc]
    exact hc'

theorem Inv.finalize_counted (h : Inv conns config s) (hlive : s.phase c ≠ .finalized)
    (hnow : s.now ≤ now) {usageBps : ℤ}
    (hcounted : ¬ ignored conns config c = true)
    (hfinalize : s.tracker.finalizeFlow now (s.update conns c usageBps .unset) = some t) :
    Inv conns config
      { s with now := now, phase := Function.update s.phase c .finalized, tracker := t } := by
  have hdated := h.dated.mono hnow
  have heffect : ∀ {time : ℚ}, s.tracker.Dated time → s.tracker.Effect time (conns.flow c) t none
      (max (openUsage conns s.tracker c) (s.sent c)) :=
    fun htime => h.sound.effect_finalizeFlow hdated hfinalize htime
  have hself := heffect hdated
  obtain ⟨hopen, hclosed⟩ := (h.counted c).live hlive
  have hevolves : s.tracker.Evolves (fun flow => ∃ c, hostFlowKey flow = conns.key c) t :=
    FlowTracker.evolves_finalizeFlow (fun _ => ⟨c, rfl⟩) hfinalize
  have hcself : openUsage conns t c = 0 ∧ closedUsage conns t c = s.sent c := by
    refine ⟨congrArg (Option.getD · 0) hself.openUsage, ?_⟩
    have hsum := hself.closedUsage
    rw [max_eq_right hopen] at hsum
    rw [closedUsage, Connections.key, hsum]
    exact add_eq_right.mpr hclosed
  refine ⟨hself.sound, hself.dated, fun now' hnow' => ⟨(h.time_le hnow now' hnow').1,
    (heffect (h.time_le hnow now' hnow').2).dated⟩, h.known_of_evolves hevolves, fun c' => ?_,
    h.nodup, fun u hu => ?_⟩
  · have hc' := h.counted c'
    by_cases hc : c' = c
    · subst hc
      dsimp only
      rw [Function.update_self]
      exact ⟨hc'.nonneg, fun hignored => absurd hignored hcounted,
        fun hfinal => absurd rfl hfinal, fun _ _ => hcself⟩
    · obtain ⟨hopen', hclosed'⟩ := openUsage_of_ne hc hself.others
      dsimp only
      rw [Function.update_of_ne hc]
      refine ⟨hc'.nonneg, ?_, ?_, ?_⟩
      all_goals rw [hopen', hclosed']
      · exact hc'.skipped
      · exact hc'.live
      · exact hc'.done
  · obtain ⟨c', hlisted⟩ := h.listed u hu
    refine ⟨c', hlisted.flow, hlisted.counted, ?_, hlisted.nonneg, hlisted.le⟩
    by_cases hc : c' = c
    · subst hc
      rw [hcself.1]
      exact hlisted.nonneg
    · rw [(openUsage_of_ne hc hself.others).1]
      exact hlisted.ge

theorem Inv.monitorDone (h : Inv conns config s) (hphase : s.phase c = .closed)
    (hnow : s.now ≤ now) {usageBps : ℤ}
    (hdone : s.monitorDone conns config now c usageBps = some s') : Inv conns config s' := by
  have hlive : s.phase c ≠ .finalized := by
    rw [hphase]
    simp
  unfold Host.monitorDone at hdone
  split at hdone
  · rename_i hignored
    cases hdone
    exact h.finalize_ignored hnow hignored
  · rename_i hcounted
    obtain ⟨t, ht, rfl⟩ := Option.map_eq_some_iff.mp hdone
    exact h.finalize_counted hlive hnow hcounted (by simpa [FlowTracker.finalizeFlows] using ht)

variable [Fintype κ]

/-- A fresh step keeps the invariant. -/
theorem Inv.step (h : Inv conns config s) {e : Event κ} (hfresh : Fresh conns s e)
    (hstep : step conns config s e = some s') : Inv conns config s' := by
  cases e with
  | connect c =>
    simp only [FlowReports.step] at hstep
    split_ifs at hstep with hphase
    cases hstep
    exact h.setPhase (by rw [hphase]; simp) (by simp)
  | send c bytes =>
    simp only [FlowReports.step] at hstep
    split_ifs at hstep with hphase
    cases hstep
    exact h.send hphase bytes
  | close c =>
    simp only [FlowReports.step] at hstep
    split_ifs at hstep with hphase
    cases hstep
    exact h.setPhase (by rw [hphase]; simp) (by simp)
  | monitorDone now c usageBps =>
    simp only [FlowReports.step] at hstep
    split_ifs at hstep with henabled
    exact h.monitorDone henabled.1 henabled.2 hstep
  | startReport now =>
    simp only [FlowReports.step] at hstep
    split at hstep
    · split_ifs at hstep with hnow
      cases hstep
      exact h.startReport hnow
    · cases hstep
  | snapshot order usageBps isLopri =>
    simp only [FlowReports.step] at hstep
    split at hstep
    · rename_i now hreport
      split_ifs at hstep with horder
      cases hstep
      exact h.snapshot hreport horder.1 horder.2 usageBps isLopri
    · cases hstep
  | apply =>
    simp only [FlowReports.step] at hstep
    split at hstep
    · rename_i now batch hreport
      obtain ⟨t, hupdate, rfl⟩ := Option.map_eq_some_iff.mp hstep
      simp only [Fresh, hreport] at hfresh
      exact h.apply hreport hfresh hupdate
    · cases hstep

/-- A snapshot that is not fresh counts a connection twice. -/
theorem Inv.fresh_of_usage_le (h : Inv conns config s) {e : Event κ}
    (hstep : FlowReports.step conns config s e = some s')
    (husage : ∀ c, usage conns s'.tracker c ≤ s'.sent c) : Fresh conns s e := by
  cases e with
  | apply =>
    simp only [FlowReports.step] at hstep
    split at hstep
    · rename_i now batch hreport
      obtain ⟨t, hupdate, rfl⟩ := Option.map_eq_some_iff.mp hstep
      obtain ⟨hsound, -, -, hbatch, -⟩ := h.of_updateFlows hreport hupdate
      intro u hu c hflow hdone
      have hlisted := h.listed u hu
      rw [hreport] at hu
      obtain ⟨hopen, hclosed⟩ := hbatch u hu c hflow
      obtain ⟨c', hu'⟩ := hlisted
      obtain rfl : c = c' :=
        conns.injective c c' (congrArg hostFlowKey (hflow.symm.trans hu'.flow))
      have hle : usage conns t c ≤ s.sent c := husage c
      have hsum : usage conns t c = openUsage conns t c + closedUsage conns t c :=
        hsound.usage_statesOf _
      rw [hsum, hopen, hclosed, ((h.counted c).done hdone hu'.counted).2] at hle
      have hnonneg := hu'.nonneg
      omega
    · cases hstep
  | connect c => trivial
  | send c bytes => trivial
  | close c => trivial
  | monitorDone now c usageBps => trivial
  | startReport now => trivial
  | snapshot order usageBps isLopri => trivial

theorem sum_flows {flows : List LeafState}
    (h : ∀ state ∈ flows, ∃ c, hostFlowKey state.flow = conns.key c) :
    (flows.map fun state => state.cur.cumUsageBytes).sum =
      ∑ c, ((flows.filter fun state => hostFlowKey state.flow = conns.key c).map
        fun state => state.cur.cumUsageBytes).sum := by
  induction flows with
  | nil => simp
  | cons state flows ih =>
    obtain ⟨⟨c, hc⟩, hflows⟩ := List.forall_mem_cons.mp h
    have hcons : ∀ c', (((state :: flows).filter fun state =>
        hostFlowKey state.flow = conns.key c').map fun state => state.cur.cumUsageBytes).sum =
        (if c' = c then state.cur.cumUsageBytes else 0) +
          ((flows.filter fun state => hostFlowKey state.flow = conns.key c').map
            fun state => state.cur.cumUsageBytes).sum := by
      intro c'
      by_cases hcc : c' = c
      · subst hcc
        simp [hc]
      · have hne : hostFlowKey state.flow ≠ conns.key c' := fun heq =>
          hcc (conns.injective c' c (heq.symm.trans hc))
        simp [hcc, hne]
    rw [List.map_cons, List.sum_cons, ih hflows, Finset.sum_congr rfl fun c' _ => hcons c',
      Finset.sum_add_distrib, Finset.sum_ite_eq' Finset.univ c, if_pos (Finset.mem_univ c)]

/--
Usage is not counted twice along a run iff every snapshot is applied before connections that
it lists with usage are finalized.  Then the usage of all states is at most what the
connections have sent.
-/
theorem countedOnce_iff (start : ℚ) (demandPredictor : DemandPredictor)
    (trackerConfig : FlowTracker.Config) (es : List (Event κ)) {s : Host κ}
    (hrun : exec (FlowReports.step conns config) (create start demandPredictor trackerConfig) es =
      some s) :
    (AllSteps (FlowReports.step conns config) (Fresh conns)
        (create start demandPredictor trackerConfig) es →
      (s.tracker.flows.map fun state => state.cur.cumUsageBytes).sum ≤ ∑ c, s.sent c) ∧
    (AllSteps (FlowReports.step conns config) (Fresh conns)
        (create start demandPredictor trackerConfig) es ↔
      ∀ pre s', pre <+: es → exec (FlowReports.step conns config)
          (create start demandPredictor trackerConfig) pre = some s' →
        ∀ c, usage conns s'.tracker c ≤ s'.sent c) := by
  have hinit : Inv conns config (create start demandPredictor trackerConfig : Host κ) :=
    inv_create start demandPredictor trackerConfig
  refine ⟨fun hfresh => ?_, ?_⟩
  · have hinv : Inv conns config s :=
      exec_invariant_of_allSteps (fun _ _ _ h hC hstep => h.step hC hstep) hinit hfresh hrun
    rw [sum_flows hinv.known]
    exact Finset.sum_le_sum fun c _ => hinv.usage_le c
  · rw [@reached_iff_allSteps _ _ (FlowReports.step conns config)
      (fun s : Host κ => ∀ c, usage conns s.tracker c ≤ s.sent c)]
    rw [and_iff_right hinit.usage_le]
    refine (allSteps_iff hinit hrun (fun s e _ s' h hstep => ?_)
      fun s e _ s' h hC hstep => h.step hC hstep).symm
    constructor
    · exact fun husage => h.fresh_of_usage_le hstep (husage s' hstep)
    · intro hC t ht
      obtain rfl := Option.some.inj (hstep.symm.trans ht)
      exact (h.step hC hstep).usage_le

end Invariant

def oneConnection : Connections Unit where
  flow := fun _ => { srcAddr := "10.0.0.1", srcPort := 80 }
  injective := fun _ _ _ => rfl

def countAddress : SSFlowStateReporter.Config where
  hostId := 7
  myAddrs := ["10.0.0.1"]

def finalizedAfter : List (Event Unit) :=
  [.connect (), .send () 100, .startReport 1, .snapshot [()] (fun _ => 0) (fun _ => false),
    .close (), .apply, .monitorDone 2 () 0]

def finalizedBetween : List (Event Unit) :=
  [.connect (), .send () 100, .startReport 1, .snapshot [()] (fun _ => 0) (fun _ => false),
    .close (), .monitorDone 2 () 0, .apply]

theorem countedOnce_finalizedAfter :
    ∃ s, exec (step oneConnection countAddress) (create 0 (fun _ _ => 0) {}) finalizedAfter =
        some s ∧
      (s.tracker.flows.map fun state => state.cur.cumUsageBytes).sum ≤ ∑ c, s.sent c := by
  have hsome : (exec (step oneConnection countAddress) (create 0 (fun _ _ => 0) {})
      finalizedAfter).isSome = true := by
    decide +kernel
  obtain ⟨s, hrun⟩ := Option.isSome_iff_exists.mp hsome
  exact ⟨s, hrun, (countedOnce_iff 0 (fun _ _ => 0) {} finalizedAfter hrun).1 (by decide +kernel)⟩

theorem countedTwice_finalizedBetween :
    ∃ s, exec (step oneConnection countAddress) (create 0 (fun _ _ => 0) {}) finalizedBetween =
        some s ∧
      ∑ c, s.sent c = 100 ∧
      (s.tracker.flows.map fun state => state.cur.cumUsageBytes).sum = 200 := by
  have hrun : (exec (step oneConnection countAddress) (create 0 (fun _ _ => 0) {})
      finalizedBetween).map (fun s => (∑ c, s.sent c,
        (s.tracker.flows.map fun state => state.cur.cumUsageBytes).sum)) = some (100, 200) := by
    decide +kernel
  obtain ⟨s, hs, hsums⟩ := Option.map_eq_some_iff.mp hrun
  exact ⟨s, hs, by simpa only [Prod.mk.injEq] using hsums⟩

end FlowReports
end HeypAgents
