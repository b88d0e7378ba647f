import HeypAgents.Flows.FlowAggregatorTimes
import HeypAgents.HostAgent.FlowTrackerAccounting

/-!
# The totals of a host

An iteration of `CollectStats` bundles the infos of the active flows, with their data
centers and the job, and hands the bundle to an aggregator whose `ForEachAgg` yields the
usage of the host.  Meanwhile the tracker may be called, and `SendInfos` may call
`ForEachAgg` as well.

Flows that are done are not in the bundle.  The aggregator knows them from earlier bundles
only, so what they have sent after the last one that they were in is in no total.  The
sums are of type `int64_t`, so the results are about usage below `2 ^ 63` bytes.
-/

namespace HeypAgents
namespace CollectStats

open Runs Flows MapValues

/-- `hostDC` is `HostDC` of the data center mapper. -/
structure Config where
  hostId : UInt64
  jobName : String
  hostDC : String → Option String

section Bundles

variable (config : Config)

/-- `WithDCsAndJob`, with whether both data centers are known. -/
def withDCsAndJob (marker : FlowMarker) : FlowMarker × Bool :=
  let srcDc := config.hostDC marker.srcAddr
  let dstDc := config.hostDC marker.dstAddr
  ({ marker with
      srcDc := srcDc.getD marker.srcDc
      dstDc := dstDc.getD marker.dstDc
      job := config.jobName },
    srcDc.isSome && dstDc.isSome)

/-- The flow under which a state is reported. -/
def annotated (state : LeafState) : FlowMarker := (withDCsAndJob config state.flow).1

def hasDCs (state : LeafState) : Bool := (withDCsAndJob config state.flow).2

def sendInfo (state : LeafState) : FlowInfo := { state.cur with flow := annotated config state }

def bundler : FlowMarker where
  hostId := config.hostId

def collectBundle (timestamp : ℚ) (t : FlowTracker) : InfoBundle where
  bundler := bundler config
  timestamp := timestamp
  flowInfos := ((values t.activeFlows).filter (hasDCs config)).map (sendInfo config)

end Bundles

/--
The bundle has been collected but not aggregated yet, and `now` is the time of the last
one.  The infos are those that the last `ForEachAgg` has passed on.
-/
structure Daemon where
  now : ℚ
  tracker : FlowTracker
  socketToHostAggregator : FlowAggregator
  bundle : Option InfoBundle := none
  createdBundlerId : Bool := false
  hostInfos : List FlowInfo := []

inductive Event where
  | tracker (call : FlowTracker.Call)
  | collect (timestamp : ℚ)
  | aggregate
  | forEachAgg

section Steps

variable (config : Config)

def create (start : ℚ) (flowDemandPredictor : DemandPredictor)
    (trackerConfig : FlowTracker.Config) (hostDemandPredictor : DemandPredictor)
    (usageHistoryWindow : ℚ) : Daemon where
  now := start
  tracker := .create flowDemandPredictor trackerConfig
  socketToHostAggregator := .newConnToHost hostDemandPredictor usageHistoryWindow

def Daemon.withBundlerId (s : Daemon) (bundler : FlowMarker) : Option FlowAggregator :=
  if s.createdBundlerId then some s.socketToHostAggregator
  else
    let (id, aggregator) := s.socketToHostAggregator.getBundlerID bundler
    if id = 0 then some aggregator else none

/-- `none` is a failed check, or an event that does not happen in the state. -/
def step (s : Daemon) : Event → Option Daemon
  | .tracker call => (s.tracker.call call).map fun tracker => { s with tracker := tracker }
  | .collect timestamp =>
    if s.bundle = none ∧ s.now ≤ timestamp then
      some { s with
        now := timestamp
        bundle := some (collectBundle config timestamp s.tracker) }
    else none
  | .aggregate =>
    match s.bundle with
    | none => none
    | some bundle =>
      ((s.withBundlerId bundle.bundler).bind fun aggregator => aggregator.update 0 bundle).map
        fun aggregator =>
          { s with
            socketToHostAggregator := aggregator
            bundle := none
            createdBundlerId := true }
  | .forEachAgg =>
    s.socketToHostAggregator.forEachAgg.map fun result =>
      { s with
        socketToHostAggregator := result.1
        hostInfos := result.2.map fun out => out.2.parent }

end Steps

section Invariant

variable {config : Config} {t t' : FlowTracker} {state state' : LeafState}

theorem eq_of_annotated (h : t.Sound) (hstate : state ∈ t.flows) (hstate' : state' ∈ t.flows)
    (hflow : annotated config state = annotated config state') : state = state' := by
  have hseqnum := congrArg FlowMarker.seqnum hflow
  exact h.eq_of_seqnum hstate hstate' hseqnum

structure Traced (config : Config) (t : FlowTracker) (r : Report) : Prop where
  bundler : r.1 = CollectStats.bundler config
  counters : ClassCounters r.2
  state : ∃ state ∈ t.flows, r.2.flow = annotated config state ∧
    Flows.counters r.2 ≤ Flows.counters state.cur

theorem Traced.of_evolves {r : Report} (h : Traced config t r)
    (hevolves : t.Evolves (fun _ => True) t') : Traced config t' r := by
  obtain ⟨state, hstate, hflow, hle⟩ := h.state
  obtain ⟨state', hstate', hsame, hhipri, hlopri⟩ := hevolves.kept state hstate
  refine ⟨h.bundler, h.counters, state', hstate', ?_, hle.trans ⟨hhipri, hlopri⟩⟩
  rw [hflow, annotated, annotated, hsame]

/-- The reports of a bundle. -/
def bundleReports (config : Config) (t : FlowTracker) : List Report :=
  ((values t.activeFlows).filter (hasDCs config)).map fun state =>
    (bundler config, sendInfo config state)

theorem reports_collectBundle (timestamp : ℚ) :
    (AggregatorCall.update (collectBundle config timestamp t)).reports =
      bundleReports config t := by
  rw [AggregatorCall.reports, collectBundle, List.map_map]
  rfl

theorem mem_bundleReports_iff {r : Report} :
    r ∈ bundleReports config t ↔ ∃ state ∈ values t.activeFlows, hasDCs config state = true ∧
      r = (bundler config, sendInfo config state) := by
  simp [bundleReports, and_assoc, @eq_comm _ r]

theorem traced_of_mem_bundleReports {r : Report} (hr : r ∈ bundleReports config t) :
    Traced config t r := by
  obtain ⟨state, hstate, -, rfl⟩ := mem_bundleReports_iff.mp hr
  have hcounters : ClassCounters state.cur := state.counters
  exact ⟨rfl, ⟨hcounters.sum, hcounters.hipri, hcounters.lopri⟩, state,
    List.mem_append_left _ hstate, rfl, le_rfl⟩

theorem Traced.le_of_mem_bundleReports (h : t.Sound) {r r' : Report} (hr : Traced config t r)
    (hr' : r' ∈ bundleReports config t) (hflow : r.2.flow = r'.2.flow) :
    r.1 = r'.1 ∧ r.2.cumHipriUsageBytes ≤ r'.2.cumHipriUsageBytes ∧
      r.2.cumLopriUsageBytes ≤ r'.2.cumLopriUsageBytes := by
  obtain ⟨state', hstate', -, rfl⟩ := mem_bundleReports_iff.mp hr'
  obtain ⟨state, hstate, hannotated, hle⟩ := hr.state
  obtain rfl : state = state' :=
    eq_of_annotated h hstate (List.mem_append_left _ hstate') (hannotated.symm.trans hflow)
  exact ⟨hr.bundler, hle⟩

theorem successive_append_bundleReports (h : t.Sound) {rs : List Report} (hrs : Successive rs)
    (htraced : ∀ r ∈ rs, Traced config t r) : Successive (rs ++ bundleReports config t) := by
  have hnew : ∀ r ∈ bundleReports config t, Traced config t r :=
    fun _ => traced_of_mem_bundleReports
  refine ⟨fun r hr => ?_, List.pairwise_append.mpr ⟨hrs.successive, ?_, fun r hr r' hr' => ?_⟩⟩
  · rcases List.mem_append.mp hr with hr | hr
    · exact hrs.nonneg r hr
    · exact ⟨(hnew r hr).counters.hipri, (hnew r hr).counters.lopri⟩
  · exact List.pairwise_of_forall_mem_list fun r hr r' hr' =>
      (hnew r hr).le_of_mem_bundleReports h hr'
  · exact (htraced r hr).le_of_mem_bundleReports h hr'

def Daemon.pending (s : Daemon) : List Report :=
  s.bundle.elim [] fun bundle => (AggregatorCall.update bundle).reports

/-- The aggregator has got the reports, and the pending ones come after them. -/
structure Inv (config : Config) (rs : List Report) (s : Daemon) : Prop where
  sound : s.tracker.Sound
  traced : ∀ r ∈ rs ++ s.pending, Traced config s.tracker r
  successive : Successive (rs ++ s.pending)
  bundle : ∀ b ∈ s.bundle, b.bundler = bundler config ∧ b.timestamp = s.now
  bundlers : s.socketToHostAggregator.bundlers =
    if s.createdBundlerId then [bundler config] else []
  conserved : Conserved rs s.socketToHostAggregator
  current : Fits s.socketToHostAggregator.config.getAggFlowFn rs →
    Behind rs s.socketToHostAggregator ∧ s.socketToHostAggregator.Timely s.now
  isValidChild : s.socketToHostAggregator.config.isValidChild =
    fun flow => expectedFieldsAreSet flow {}

variable {rs : List Report} {s s' : Daemon}

theorem inv_create (start : ℚ) (flowDemandPredictor : DemandPredictor)
    (trackerConfig : FlowTracker.Config) (hostDemandPredictor : DemandPredictor)
    (usageHistoryWindow : ℚ) :
    Inv config [] (create start flowDemandPredictor trackerConfig hostDemandPredictor
      usageHistoryWindow) where
  sound := (FlowTracker.books_create flowDemandPredictor trackerConfig).sound
  traced := by simp [Daemon.pending, create]
  successive := ⟨by simp [Daemon.pending, create], by simp [Daemon.pending, create]⟩
  bundle := by simp [create]
  bundlers := rfl
  conserved := conserved_create _ _
  current := fun _ => ⟨behind_create _ _, FlowAggregator.timely_create _ _ _⟩
  isValidChild := rfl

theorem Inv.tracker (h : Inv config rs s) {call : FlowTracker.Call}
    (hcall : s.tracker.call call = some t) : Inv config rs { s with tracker := t } where
  sound := h.sound.call hcall
  traced := fun r hr => (h.traced r hr).of_evolves (FlowTracker.evolves_call hcall)
  successive := h.successive
  bundle := h.bundle
  bundlers := h.bundlers
  conserved := h.conserved
  current := h.current
  isValidChild := h.isValidChild

theorem Inv.collect (h : Inv config rs s) (hnone : s.bundle = none) {timestamp : ℚ}
    (hnow : s.now ≤ timestamp) :
    Inv config rs { s with
      now := timestamp
      bundle := some (collectBundle config timestamp s.tracker) } := by
  have hpending : s.pending = [] := by rw [Daemon.pending, hnone]; rfl
  have htraced := h.traced
  have hsuccessive := h.successive
  rw [hpending, List.append_nil] at htraced hsuccessive
  refine ⟨h.sound, ?_, ?_, ?_, h.bundlers, h.conserved,
    fun hfits => ⟨(h.current hfits).1, (h.current hfits).2.mono hnow⟩, h.isValidChild⟩
  all_goals simp only [Daemon.pending, Option.elim_some, reports_collectBundle]
  · intro r hr
    exact (List.mem_append.mp hr).elim (htraced r) traced_of_mem_bundleReports
  · exact successive_append_bundleReports h.sound hsuccessive htraced
  · rintro b ⟨⟩
    exact ⟨rfl, rfl⟩

theorem Inv.withBundlerId (h : Inv config rs s) :
    s.withBundlerId (bundler config) =
        some (s.socketToHostAggregator.getBundlerID (bundler config)).2 ∧
      (s.socketToHostAggregator.getBundlerID (bundler config)).1 = 0 ∧
      (s.socketToHostAggregator.getBundlerID (bundler config)).2.bundlers = [bundler config] := by
  have hbundlers := h.bundlers
  rw [Daemon.withBundlerId, FlowAggregator.getBundlerID]
  cases hcreated : s.createdBundlerId with
  | true =>
    rw [hcreated, if_pos rfl] at hbundlers
    simp [hbundlers]
  | false =>
    rw [hcreated, if_neg Bool.false_ne_true] at hbundlers
    simp [hbundlers]

theorem Inv.step_aggregate (h : Inv config rs s) {b : InfoBundle} (hb : s.bundle = some b) :
    step config s .aggregate = (s.socketToHostAggregator.call (.update b)).map fun aggregator =>
      { s with
        socketToHostAggregator := aggregator
        bundle := none
        createdBundlerId := true } := by
  obtain ⟨hwith, hid, -⟩ := h.withBundlerId
  simp only [step, hb, (h.bundle b hb).1, hwith, FlowAggregator.call, hid, Option.bind_some]

/-- When the bundle is aggregated, its reports come after the earlier ones. -/
theorem Inv.aggregate (h : Inv config rs s) {b : InfoBundle} (hb : s.bundle = some b)
    (hstep : step config s .aggregate = some s') :
    Inv config (rs ++ (AggregatorCall.update b).reports) s' := by
  rw [h.step_aggregate hb] at hstep
  obtain ⟨a, hcall, rfl⟩ := Option.map_eq_some_iff.mp hstep
  have hpending : s.pending = (AggregatorCall.update b).reports := by
    rw [Daemon.pending, hb]
    rfl
  have htraced := h.traced
  have hsuccessive := h.successive
  rw [hpending] at htraced hsuccessive
  obtain ⟨hbundler, htime⟩ := h.bundle b hb
  obtain ⟨-, hvalid, hbundlers, hconfig, haggs⟩ :=
    FlowAggregator.of_call_update h.conserved.fresh hcall
  obtain ⟨a', hcall', hconserved, -⟩ := h.conserved.update hvalid hsuccessive
  obtain rfl : a' = a := Option.some.inj (hcall'.symm.trans hcall)
  refine ⟨h.sound, ?_, ?_, by simp, ?_, hconserved, fun hfits => ?_, hconfig ▸ h.isValidChild⟩
  · simpa [Daemon.pending] using htraced
  · simpa [Daemon.pending] using hsuccessive
  · rw [hbundlers, hbundler]
    exact h.withBundlerId.2.2
  · dsimp only at hfits ⊢
    rw [hconfig] at hfits
    obtain ⟨hbehind, htimely⟩ := h.current (hfits.of_append hsuccessive)
    refine ⟨hbehind.append haggs hconfig hsuccessive, ?_⟩
    rw [← htime]
    exact htimely.update htime.ge h.conserved.fresh hcall

theorem Inv.successive_left (h : Inv config rs s) : Successive rs := h.successive.of_append

theorem Inv.exists_forEachAgg (h : Inv config rs s)
    (hfits : Fits s.socketToHostAggregator.config.getAggFlowFn rs) :
    ∃ s', step config s .forEachAgg = some s' := by
  obtain ⟨states, hforEach, -⟩ :=
    h.conserved.forEachAgg h.successive_left hfits (h.current hfits).1
  exact ⟨_, by rw [step, hforEach]; rfl⟩

/-- `ForEachAgg` passes on the usage in the latest reports, if it fits. -/
theorem Inv.forEachAgg (h : Inv config rs s) (hstep : step config s .forEachAgg = some s') :
    Inv config rs s' ∧ s'.bundle = s.bundle ∧
      (Fits s.socketToHostAggregator.config.getAggFlowFn rs →
        (s'.hostInfos.map fun info => info.cumUsageBytes).sum =
          ∑ flow ∈ seen rs, usageOf rs flow) := by
  obtain ⟨result, hforEach, rfl⟩ := Option.map_eq_some_iff.mp hstep
  obtain ⟨⟨states, outs⟩, -, rfl⟩ := Option.map_eq_some_iff.mp hforEach
  -- What fits is reported; otherwise only the reports themselves are kept.
  have hupdate : Fits s.socketToHostAggregator.config.getAggFlowFn rs →
      AggsUpdated s.socketToHostAggregator s.socketToHostAggregator.aggWips.entries
        s.socketToHostAggregator.aggStates states ∧
      Behind rs { s.socketToHostAggregator with aggStates := states } ∧
      outs = s.socketToHostAggregator.aggWips.entries.map (aggOutput states) := by
    intro hfits
    obtain ⟨states', hforEach', hupdated, hbehind⟩ :=
      h.conserved.forEachAgg h.successive_left hfits (h.current hfits).1
    obtain ⟨ha, houts⟩ := Prod.mk.inj (Option.some.inj (hforEach.symm.trans hforEach'))
    obtain rfl : states = states' := congrArg FlowAggregator.aggStates ha
    exact ⟨hupdated, hbehind, houts⟩
  refine ⟨⟨h.sound, h.traced, h.successive, h.bundle, h.bundlers, h.conserved.of_states states,
    fun hfits => ?_, h.isValidChild⟩, rfl, fun hfits => ?_⟩
  · obtain ⟨hupdated, hbehind, -⟩ := hupdate hfits
    exact ⟨hbehind, (h.current hfits).2.forEachAgg hupdated⟩
  · obtain ⟨hupdated, -, houts⟩ := hupdate hfits
    rw [← (h.current hfits).2.sum_aggOutput h.conserved h.successive_left hfits hupdated, ← houts,
      List.map_map]
    rfl

/-- A step that does not aggregate keeps the reports and the bundle. -/
theorem Inv.step_of_ne_aggregate (h : Inv config rs s) {e : Event} (he : e ≠ .aggregate)
    (hstep : step config s e = some s') : Inv config rs s' ∧ ∀ b ∈ s.bundle, b ∈ s'.bundle := by
  cases e with
  | tracker call =>
    obtain ⟨t, hcall, rfl⟩ := Option.map_eq_some_iff.mp hstep
    exact ⟨h.tracker hcall, fun _ hb => hb⟩
  | collect timestamp =>
    rw [step] at hstep
    split_ifs at hstep with henabled
    cases hstep
    refine ⟨h.collect henabled.1 henabled.2, fun b hb => ?_⟩
    rw [henabled.1] at hb
    cases hb
  | aggregate => exact absurd rfl he
  | forEachAgg =>
    obtain ⟨hinv, hbundle, -⟩ := h.forEachAgg hstep
    exact ⟨hinv, hbundle ▸ fun _ hb => hb⟩

theorem Inv.exec_of_ne_aggregate {es : List Event} (h : Inv config rs s)
    (hes : ∀ e ∈ es, e ≠ .aggregate) (hrun : exec (step config) s es = some s') :
    Inv config rs s' ∧ ∀ b ∈ s.bundle, b ∈ s'.bundle := by
  induction es generalizing s with
  | nil =>
    cases hrun
    exact ⟨h, fun _ hb => hb⟩
  | cons e es ih =>
    obtain ⟨s₁, hfirst, hrest⟩ := exec_cons_eq_some.mp hrun
    obtain ⟨he, hes⟩ := List.forall_mem_cons.mp hes
    obtain ⟨hinv, hkept⟩ := h.step_of_ne_aggregate he hfirst
    obtain ⟨hinv', hkept'⟩ := ih hinv hes hrest
    exact ⟨hinv', fun b hb => hkept' b (hkept b hb)⟩

/-- Along every run the aggregator has got some reports of the tracker. -/
theorem exists_inv_of_exec {es : List Event} (h : Inv config rs s)
    (hrun : exec (step config) s es = some s') : ∃ rs', Inv config rs' s' := by
  refine @exec_invariant _ _ (step config) (fun s => ∃ rs, Inv config rs s)
    (fun s e s' hs hstep => ?_) _ _ _ ⟨rs, h⟩ hrun
  obtain ⟨rs, h⟩ := hs
  by_cases he : e = .aggregate
  · subst he
    cases hb : s.bundle with
    | none =>
      rw [step, hb] at hstep
      cases hstep
    | some b => exact ⟨_, h.aggregate hb hstep⟩
  · exact ⟨rs, (h.step_of_ne_aggregate he hstep).1⟩

end Invariant

section Totals

variable {config : Config} {rs : List Report} {t : FlowTracker} {a : FlowAggregator}
  {state : LeafState}

def latestUsage (rs : List Report) (flow : FlowMarker) : ℤ :=
  ((latest rs flow).map fun r => r.2.cumUsageBytes).getD 0

def toldUsage (a : FlowAggregator) (flow : FlowMarker) : ℤ :=
  ((((a.bundleStates 0).active.lookup flow).or ((a.bundleStates 0).dead.lookup flow)).map
    fun v => v.2.cumUsageBytes).getD 0

theorem sum_usageOf (htraced : ∀ r ∈ rs, Traced config t r) (hsound : t.Sound) :
    ∑ flow ∈ seen rs, usageOf rs flow =
      (t.flows.map fun state => latestUsage rs (annotated config state)).sum := by
  have hnodup : (t.flows.map (annotated config)).Nodup := by
    have hstates : t.flows.Nodup := hsound.nodup_seqnums.of_map _
    exact hstates.map_on fun state hstate state' hstate' =>
      eq_of_annotated hsound hstate hstate'
  have hseen : seen rs ⊆ (t.flows.map (annotated config)).toFinset := by
    intro flow hflow
    obtain ⟨r, hr, rfl⟩ := mem_seen_iff.mp hflow
    obtain ⟨state, hstate, hannotated, -⟩ := (htraced r hr).state
    rw [List.mem_toFinset, hannotated]
    exact List.mem_map_of_mem hstate
  have hunseen : ∀ flow ∈ (t.flows.map (annotated config)).toFinset, flow ∉ seen rs →
      latestUsage rs flow = 0 := by
    intro flow _ hflow
    cases hlatest : latest rs flow with
    | none => rw [latestUsage, hlatest]; rfl
    | some r =>
      obtain ⟨hmem, hrflow⟩ := mem_of_latest hlatest
      exact absurd (mem_seen_iff.mpr ⟨r, hmem, hrflow⟩) hflow
  calc ∑ flow ∈ seen rs, usageOf rs flow
      = ∑ flow ∈ seen rs, latestUsage rs flow := by
        refine Finset.sum_congr rfl fun flow hflow => ?_
        obtain ⟨r, hr⟩ := exists_latest hflow
        have hsum := (htraced r (mem_of_latest hr).1).counters.sum
        rw [usageOf, latestUsage, hr, Option.map_some, Option.map_some, Option.getD_some,
          Option.getD_some, hsum]
    _ = ∑ flow ∈ (t.flows.map (annotated config)).toFinset, latestUsage rs flow :=
        Finset.sum_subset hseen hunseen
    _ = (t.flows.map fun state => latestUsage rs (annotated config state)).sum := by
        rw [List.sum_toFinset _ hnodup, List.map_map]
        rfl

theorem latestUsage_le (hsound : t.Sound) (htraced : ∀ r ∈ rs, Traced config t r)
    (hstate : state ∈ t.flows) : latestUsage rs (annotated config state) ≤ state.cur.cumUsageBytes := by
  cases hlatest : latest rs (annotated config state) with
  | none =>
    rw [latestUsage, hlatest]
    exact state.nonneg
  | some r =>
    obtain ⟨hmem, hflow⟩ := mem_of_latest hlatest
    obtain ⟨-, hcounters, state', hstate', hannotated, hhipri, hlopri⟩ := htraced r hmem
    obtain rfl : state' = state :=
      eq_of_annotated hsound hstate' hstate (hannotated.symm.trans hflow)
    have hsum : state'.cur.cumUsageBytes = _ := state'.counters.sum
    rw [latestUsage, hlatest, Option.map_some, Option.getD_some, hcounters.sum, hsum]
    exact add_le_add hhipri hlopri

/-- The sums of what has been reported fit if those of the tracker do. -/
theorem fits_of_traced (hsound : t.Sound) (htraced : ∀ r ∈ rs, Traced config t r)
    (hreports : Successive rs)
    (hlt : (t.flows.map fun state => state.cur.cumUsageBytes).sum < 2 ^ 63)
    (getAggFlowFn : FlowMarker → FlowMarker) : Fits getAggFlowFn rs := by
  intro r _
  have hnonneg := hreports.total_nonneg getAggFlowFn (getAggFlowFn r.2.flow)
  have hle : (total getAggFlowFn rs (getAggFlowFn r.2.flow)).1 +
      (total getAggFlowFn rs (getAggFlowFn r.2.flow)).2 < 2 ^ 63 := by
    calc _ = ∑ flow ∈ (seen rs).filter fun flow => getAggFlowFn flow = getAggFlowFn r.2.flow,
            usageOf rs flow := total_fst_add_snd _ _ _
      _ ≤ ∑ flow ∈ seen rs, usageOf rs flow :=
          Finset.sum_le_sum_of_subset_of_nonneg (Finset.filter_subset _ _)
            fun flow _ _ => hreports.usageOf_nonneg flow
      _ = (t.flows.map fun state => latestUsage rs (annotated config state)).sum :=
          sum_usageOf htraced hsound
      _ ≤ (t.flows.map fun state => state.cur.cumUsageBytes).sum :=
          List.sum_le_sum fun state hstate => latestUsage_le hsound htraced hstate
      _ < 2 ^ 63 := hlt
  exact ⟨lt_of_le_of_lt (le_add_of_nonneg_right hnonneg.2) hle,
    lt_of_le_of_lt (le_add_of_nonneg_left hnonneg.1) hle⟩

theorem of_latest_bundleReports (hsound : t.Sound) (hstate : state ∈ t.flows) {r : Report}
    (hlatest : latest (bundleReports config t) (annotated config state) = some r) :
    state ∈ values t.activeFlows ∧ r.2.cumUsageBytes = state.cur.cumUsageBytes := by
  obtain ⟨hmem, hflow⟩ := mem_of_latest hlatest
  obtain ⟨state', hstate', -, rfl⟩ := mem_bundleReports_iff.mp hmem
  obtain rfl : state' = state :=
    eq_of_annotated hsound (List.mem_append_left _ hstate') hstate hflow
  exact ⟨hstate', rfl⟩

theorem latestUsage_of_active (hsound : t.Sound) (hstate : state ∈ values t.activeFlows)
    (hknown : hasDCs config state = true) :
    latestUsage (rs ++ bundleReports config t) (annotated config state) =
      state.cur.cumUsageBytes := by
  have hreport : (bundler config, sendInfo config state) ∈ bundleReports config t :=
    mem_bundleReports_iff.mpr ⟨state, hstate, hknown, rfl⟩
  obtain ⟨r, hr⟩ : ∃ r, latest (bundleReports config t) (annotated config state) = some r :=
    exists_latest (mem_seen_iff.mpr ⟨_, hreport, rfl⟩)
  rw [latestUsage, latest_append, hr, Option.some_or, Option.map_some, Option.getD_some]
  exact (of_latest_bundleReports hsound (List.mem_append_left _ hstate) hr).2

theorem latestUsage_of_done (hsound : t.Sound) (hstate : state ∈ t.doneFlows) :
    latestUsage (rs ++ bundleReports config t) (annotated config state) =
      latestUsage rs (annotated config state) := by
  have hflows : t.flows.Nodup := hsound.nodup_seqnums.of_map _
  have hnone : latest (bundleReports config t) (annotated config state) = none := by
    rw [Option.eq_none_iff_forall_not_mem]
    intro r hr
    have hactive := (of_latest_bundleReports hsound (List.mem_append_right _ hstate) hr).1
    exact (List.nodup_append.mp hflows).2.2 state hactive state hstate rfl
  rw [latestUsage, latest_append, hnone, Option.none_or, ← latestUsage]

theorem Inv.toldUsage_eq {s : Daemon} (h : Inv config rs s) (flow : FlowMarker) :
    toldUsage s.socketToHostAggregator flow = latestUsage rs flow := by
  have hbundlers := h.bundlers
  cases hcreated : s.createdBundlerId with
  | false =>
    rw [hcreated, if_neg Bool.false_ne_true] at hbundlers
    have hfresh := h.conserved.fresh 0 (by rw [hbundlers]; rfl)
    have hnone : latest rs flow = none := by
      rw [Option.eq_none_iff_forall_not_mem]
      intro r hr
      have hknown := h.conserved.known r (mem_of_latest hr).1
      rw [hbundlers] at hknown
      cases hknown
    rw [toldUsage, hfresh, latestUsage, hnone]
    simp
  | true =>
    rw [hcreated, if_pos rfl] at hbundlers
    have hlookup := (h.conserved.holds 0 (bundler config) (by rw [hbundlers]; rfl)).lookup_or flow
    have hfrom : latestFrom rs (bundler config) flow = (latest rs flow).map Prod.snd := by
      cases hlatest : latest rs flow with
      | none =>
        rw [latestFrom, hlatest]
        rfl
      | some r =>
        have hmem := List.mem_append_left s.pending (mem_of_latest hlatest).1
        rw [Option.map_some, latestFrom_eq_some_iff, hlatest, ← (h.traced r hmem).bundler]
    rw [hfrom] at hlookup
    have husage := congrArg (Option.map FlowInfo.cumUsageBytes) hlookup
    rw [Option.map_map, Option.map_map] at husage
    exact congrArg (Option.getD · 0) husage

theorem sum_latestUsage_iff (hsound : t.Sound) (htraced : ∀ r ∈ rs, Traced config t r)
    (hknown : ∀ state ∈ t.flows, hasDCs config state = true) :
    (t.flows.map fun state =>
        latestUsage (rs ++ bundleReports config t) (annotated config state)).sum =
      (t.flows.map fun state => state.cur.cumUsageBytes).sum ↔
    ∀ state ∈ t.doneFlows, latestUsage rs (annotated config state) = state.cur.cumUsageBytes := by
  have hflows : t.flows.Nodup := hsound.nodup_seqnums.of_map _
  have htraced' : ∀ r ∈ rs ++ bundleReports config t, Traced config t r := fun r hr =>
    (List.mem_append.mp hr).elim (htraced r) traced_of_mem_bundleReports
  rw [← List.sum_toFinset _ hflows, ← List.sum_toFinset _ hflows, Finset.sum_eq_sum_iff_of_le
    fun state hstate => latestUsage_le hsound htraced' (List.mem_toFinset.mp hstate)]
  simp only [List.mem_toFinset]
  constructor
  · intro h state hstate
    rw [← latestUsage_of_done hsound hstate]
    exact h state (List.mem_append_right _ hstate)
  · intro h state hstate
    rcases List.mem_append.mp hstate with hactive | hdone
    · exact latestUsage_of_active hsound hactive (hknown state hstate)
    · rw [latestUsage_of_done hsound hdone]
      exact h state hdone

variable {s s' : Daemon} {timestamp : ℚ}

theorem Inv.exists_iteration (h : Inv config rs s) (hnone : s.bundle = none)
    (hnow : s.now ≤ timestamp)
    (hlt : (s.tracker.flows.map fun state => state.cur.cumUsageBytes).sum < 2 ^ 63)
    (hfields : ∀ state ∈ values s.tracker.activeFlows,
      s.socketToHostAggregator.config.isValidChild (annotated config state) = true) :
    ∃ s', exec (step config) s [.collect timestamp, .aggregate, .forEachAgg] = some s' := by
  have hcollect : step config s (.collect timestamp) = some { s with
      now := timestamp
      bundle := some (collectBundle config timestamp s.tracker) } := by
    rw [step, if_pos ⟨hnone, hnow⟩]
  have hinv := h.collect hnone hnow
  have hvalid : ∀ info ∈ (collectBundle config timestamp s.tracker).flowInfos,
      s.socketToHostAggregator.config.isValidChild info.flow = true := by
    intro info hinfo
    obtain ⟨state, hstate, rfl⟩ := List.mem_map.mp hinfo
    exact hfields state (List.mem_of_mem_filter hstate)
  obtain ⟨a, hcall, -⟩ := hinv.conserved.update hvalid hinv.successive
  have haggregate := hinv.step_aggregate rfl
  rw [hcall, Option.map_some] at haggregate
  have hinv' := hinv.aggregate rfl haggregate
  obtain ⟨s', hforEach⟩ := hinv'.exists_forEachAgg
    (fits_of_traced h.sound hinv.traced hinv.successive hlt _)
  exact ⟨s', exec_cons_eq_some.mpr ⟨_, hcollect, exec_cons_eq_some.mpr ⟨_, haggregate,
    exec_cons_eq_some.mpr ⟨_, hforEach, rfl⟩⟩⟩⟩

/-- The totals of an iteration are the latest reports of the states of the tracker. -/
theorem Inv.totals (h : Inv config rs s)
    (hlt : (s.tracker.flows.map fun state => state.cur.cumUsageBytes).sum < 2 ^ 63)
    {mid post : List Event}
    (hmid : ∀ e ∈ mid, e ≠ .aggregate) (hpost : ∀ e ∈ post, e ≠ .aggregate)
    (hrun : exec (step config) s
      (.collect timestamp :: mid ++ .aggregate :: post ++ [.forEachAgg]) = some s') :
    (s'.hostInfos.map fun info => info.cumUsageBytes).sum =
      (s.tracker.flows.map fun state =>
        latestUsage (rs ++ bundleReports config s.tracker) (annotated config state)).sum := by
  obtain ⟨s₄, hrun, hlast⟩ := exec_concat_eq_some.mp hrun
  rw [exec_append, Option.bind_eq_some_iff] at hrun
  obtain ⟨s₂, hfirst, hsecond⟩ := hrun
  obtain ⟨s₁, hcollect, hmidRun⟩ := exec_cons_eq_some.mp hfirst
  obtain ⟨s₃, haggregate, hpostRun⟩ := exec_cons_eq_some.mp hsecond
  rw [step] at hcollect
  split_ifs at hcollect with henabled
  cases hcollect
  have hinv₁ := h.collect henabled.1 henabled.2
  obtain ⟨hinv₂, hkept⟩ := hinv₁.exec_of_ne_aggregate hmid hmidRun
  have hinv₃ := hinv₂.aggregate (hkept _ rfl) haggregate
  rw [reports_collectBundle] at hinv₃
  obtain ⟨hinv₄, -⟩ := hinv₃.exec_of_ne_aggregate hpost hpostRun
  obtain ⟨-, -, hsum⟩ := hinv₄.forEachAgg hlast
  have htraced := hinv₁.traced
  simp only [Daemon.pending, Option.elim_some, reports_collectBundle] at htraced
  rw [hsum (fits_of_traced h.sound htraced hinv₄.successive_left hlt _)]
  exact sum_usageOf htraced h.sound

end Totals

def twoSites : Config where
  hostId := 7
  jobName := "job"
  hostDC := fun addr => some (if addr = "10.0.0.1" then "east" else "west")

def finalizedWith (cumUsageBytes : ℤ) : List Event :=
  let flow : FlowMarker :=
    { hostId := 7, srcAddr := "10.0.0.1", dstAddr := "10.0.0.2", protocol := .tcp, srcPort := 80,
      dstPort := 90 }
  [.tracker (.updateFlows 1 [{ flow := flow, cumUsageBytes := 100, usedPriority := .hi }]),
    .collect 2, .aggregate, .forEachAgg,
    .tracker (.finalizeFlows 3 [{ flow := flow, cumUsageBytes := cumUsageBytes }])]

end CollectStats
end HeypAgents
