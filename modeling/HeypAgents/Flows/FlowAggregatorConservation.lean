import Mathlib.Algebra.Order.Monoid.Prod
import HeypAgents.Lib.GroupFold
import HeypAgents.Flows.FlowAggregator

/-!
# Conservation of usage

The latest report of every flow stays with its bundler, as active or as dead, so
the counters that `ForEachAgg` sums up are those of the latest reports of all flows
that were ever seen, as long as the sums are below `2 ^ 63`.  When the counters of no flow
decrease, neither do the sums, and the checks of `UpdateUsage` hold.
-/

namespace HeypAgents
namespace Flows

open GroupFold Runs

section Reports

/-- A report: the bundler and the info. -/
abbrev Report := FlowMarker × FlowInfo

def AggregatorCall.reports : AggregatorCall → List Report
  | .update bundle => bundle.flowInfos.map fun info => (bundle.bundler, info)
  | .forEachAgg => []

def reports (calls : List AggregatorCall) : List Report := calls.flatMap AggregatorCall.reports

/-- The latest report of a flow. -/
def latest (rs : List Report) (flow : FlowMarker) : Option Report :=
  rs.reverse.find? fun r => r.2.flow == flow

def latestFrom (rs : List Report) (bundler flow : FlowMarker) : Option FlowInfo :=
  ((latest rs flow).filter fun r => r.1 == bundler).map Prod.snd

/--
Each flow is reported by a single bundler, and its successive counters are not
negative and do not decrease.
-/
structure Successive (rs : List Report) : Prop where
  nonneg : ∀ r ∈ rs, 0 ≤ r.2.cumHipriUsageBytes ∧ 0 ≤ r.2.cumLopriUsageBytes
  successive : rs.Pairwise fun r r' => r.2.flow = r'.2.flow →
    r.1 = r'.1 ∧ r.2.cumHipriUsageBytes ≤ r'.2.cumHipriUsageBytes ∧
      r.2.cumLopriUsageBytes ≤ r'.2.cumLopriUsageBytes

def counters (info : FlowInfo) : ℤ × ℤ := (info.cumHipriUsageBytes, info.cumLopriUsageBytes)

def seen (rs : List Report) : Finset FlowMarker := (rs.map fun r => r.2.flow).toFinset

def total (getAggFlowFn : FlowMarker → FlowMarker) (rs : List Report) (agg : FlowMarker) : ℤ × ℤ :=
  ∑ flow ∈ (seen rs).filter fun flow => getAggFlowFn flow = agg,
    ((latest rs flow).map fun r => counters r.2).getD 0

/-- The sums of the latest reports of every aggregate are in the range of `int64_t`. -/
def Fits (getAggFlowFn : FlowMarker → FlowMarker) (rs : List Report) : Prop :=
  ∀ r ∈ rs, (total getAggFlowFn rs (getAggFlowFn r.2.flow)).1 < 2 ^ 63 ∧
    (total getAggFlowFn rs (getAggFlowFn r.2.flow)).2 < 2 ^ 63

variable {rs rs' : List Report} {r r' : Report} {flow bundler : FlowMarker} {info : FlowInfo}

@[simp] theorem reports_append (calls calls' : List AggregatorCall) :
    reports (calls ++ calls') = reports calls ++ reports calls' :=
  List.flatMap_append

theorem latest_append (rs rs' : List Report) (flow : FlowMarker) :
    latest (rs ++ rs') flow = (latest rs' flow).or (latest rs flow) := by
  rw [latest, List.reverse_append, List.find?_append]
  rfl

theorem latest_singleton (r : Report) (flow : FlowMarker) :
    latest [r] flow = if r.2.flow = flow then some r else none := by
  by_cases h : r.2.flow = flow <;> simp [latest, h]

theorem mem_of_latest (h : latest rs flow = some r) : r ∈ rs ∧ r.2.flow = flow :=
  ⟨List.mem_reverse.mp (List.mem_of_find?_eq_some h), by simpa using List.find?_some h⟩

theorem mem_seen_iff : flow ∈ seen rs ↔ ∃ r ∈ rs, r.2.flow = flow := by
  simp [seen]

theorem exists_latest (h : flow ∈ seen rs) : ∃ r, latest rs flow = some r := by
  obtain ⟨r, hr, hflow⟩ := mem_seen_iff.mp h
  exact Option.isSome_iff_exists.mp
    (List.find?_isSome.mpr ⟨r, List.mem_reverse.mpr hr, by simpa using hflow⟩)

theorem Successive.of_append (h : Successive (rs ++ rs')) : Successive rs :=
  ⟨fun r hr => h.nonneg r (List.mem_append_left _ hr), (List.pairwise_append.mp h.successive).1⟩

theorem Successive.latest_of_append (h : Successive (rs ++ rs')) (hr : latest rs flow = some r)
    (hr' : latest (rs ++ rs') flow = some r') : r.1 = r'.1 ∧ counters r.2 ≤ counters r'.2 := by
  obtain ⟨hmem, hflow⟩ := mem_of_latest hr
  rw [latest_append] at hr'
  cases hnew : latest rs' flow with
  | none =>
    rw [hnew, Option.none_or, hr] at hr'
    obtain rfl := Option.some.inj hr'
    exact ⟨rfl, le_rfl⟩
  | some x =>
    rw [hnew, Option.some_or] at hr'
    obtain rfl := Option.some.inj hr'
    obtain ⟨hmem', hflow'⟩ := mem_of_latest hnew
    exact (List.pairwise_append.mp h.successive).2.2 r hmem x hmem' (hflow.trans hflow'.symm)

theorem Successive.latest_nonneg (h : Successive rs) :
    0 ≤ ((latest rs flow).map fun r => counters r.2).getD 0 := by
  cases hr : latest rs flow with
  | none => exact le_rfl
  | some r => exact h.nonneg r (mem_of_latest hr).1

/-- The sums do not decrease when there are more reports. -/
theorem seen_subset_append (rs rs' : List Report) : seen rs ⊆ seen (rs ++ rs') := by
  intro flow hflow
  obtain ⟨r, hr, hflow⟩ := mem_seen_iff.mp hflow
  exact mem_seen_iff.mpr ⟨r, List.mem_append_left _ hr, hflow⟩

theorem Successive.total_le_total
    (h : Successive (rs ++ rs')) (getAggFlowFn : FlowMarker → FlowMarker) (agg : FlowMarker) :
    total getAggFlowFn rs agg ≤ total getAggFlowFn (rs ++ rs') agg := by
  have hseen := seen_subset_append rs rs'
  calc total getAggFlowFn rs agg
      ≤ ∑ flow ∈ (seen rs).filter fun flow => getAggFlowFn flow = agg,
          ((latest (rs ++ rs') flow).map fun r => counters r.2).getD 0 := by
        refine Finset.sum_le_sum fun flow hflow => ?_
        have hflow := (Finset.mem_filter.mp hflow).1
        obtain ⟨r, hr⟩ := exists_latest hflow
        obtain ⟨r', hr'⟩ := exists_latest (hseen hflow)
        rw [hr, hr']
        exact (h.latest_of_append hr hr').2
    _ ≤ total getAggFlowFn (rs ++ rs') agg :=
        Finset.sum_le_sum_of_subset_of_nonneg (Finset.filter_subset_filter _ hseen)
          fun flow _ _ => h.latest_nonneg

theorem Successive.total_nonneg (h : Successive rs) (getAggFlowFn : FlowMarker → FlowMarker)
    (agg : FlowMarker) : 0 ≤ total getAggFlowFn rs agg :=
  Finset.sum_nonneg fun _ _ => h.latest_nonneg

/-- What fits has fitted at every earlier time. -/
theorem Fits.of_append {getAggFlowFn : FlowMarker → FlowMarker}
    (hfits : Fits getAggFlowFn (rs ++ rs')) (h : Successive (rs ++ rs')) :
    Fits getAggFlowFn rs := by
  intro r hr
  obtain ⟨hhipri, hlopri⟩ := hfits r (List.mem_append_left _ hr)
  obtain ⟨hle, hle'⟩ := h.total_le_total getAggFlowFn (getAggFlowFn r.2.flow)
  exact ⟨hle.trans_lt hhipri, hle'.trans_lt hlopri⟩

end Reports

def withInfo (infos : FlowMarker → Option FlowInfo) (info : FlowInfo) :
    FlowMarker → Option FlowInfo :=
  Function.update infos info.flow (some info)

namespace BundleState

/--
The bundler holds the given infos: each flow that has one is either active or dead
with it, and no other flow is.
-/
def Holds (bs : BundleState) (infos : FlowMarker → Option FlowInfo) : Prop :=
  ∀ flow,
    (bs.active.lookup flow).map Prod.snd = infos flow ∧ bs.dead.lookup flow = none ∨
      bs.active.lookup flow = none ∧ (bs.dead.lookup flow).map Prod.snd = infos flow

variable {bs : BundleState} {infos : FlowMarker → Option FlowInfo} {timestamp : ℚ}

theorem holds_empty : Holds {} fun _ => none := fun flow => .inl ⟨by simp, by simp⟩

theorem Holds.report (h : bs.Holds infos) (info : FlowInfo) :
    (bs.report timestamp info).Holds (withInfo infos info) := by
  intro flow
  rw [withInfo]
  by_cases hflow : flow = info.flow
  · subst hflow
    rw [Function.update_self]
    refine .inl ?_
    unfold BundleState.report
    split
    · simp
    · rename_i hactive
      rcases h info.flow with ⟨-, hdead⟩ | ⟨hnone, -⟩
      · simp [hdead]
      · simp [hnone] at hactive
  · rw [Function.update_of_ne hflow]
    unfold BundleState.report
    split <;> simpa [AList.lookup_insert_ne hflow, AList.lookup_erase_ne hflow] using h flow

theorem Holds.expireFlow (h : bs.Holds infos) (flow : FlowMarker) :
    (bs.expireFlow timestamp flow).Holds infos := by
  intro flow'
  unfold BundleState.expireFlow
  split
  · exact h flow'
  · rename_i t info hactive
    by_cases hflow : flow' = flow
    · subst hflow
      refine .inr ?_
      rcases h flow' with ⟨hinfo, -⟩ | ⟨hnone, -⟩
      · simpa [hactive] using hinfo
      · simp [hnone] at hactive
    · simpa [AList.lookup_insert_ne hflow, AList.lookup_erase_ne hflow] using h flow'

theorem Holds.foldl_expireFlow (h : bs.Holds infos) (flows : List FlowMarker) :
    (flows.foldl (BundleState.expireFlow timestamp) bs).Holds infos := by
  induction flows generalizing bs with
  | nil => exact h
  | cons flow flows ih => exact ih (h.expireFlow flow)

theorem Holds.foldl_report (h : bs.Holds infos) (new : List FlowInfo) :
    (new.foldl (BundleState.report timestamp) bs).Holds (new.foldl withInfo infos) := by
  induction new generalizing bs infos with
  | nil => exact h
  | cons info new ih => exact ih (h.report info)

/-- The reports of a bundle replace the infos of their flows, and expiry keeps them. -/
theorem Holds.update (h : bs.Holds infos) (usageHistoryWindow timestamp : ℚ) (new : List FlowInfo) :
    (bs.update usageHistoryWindow timestamp new).Holds (new.foldl withInfo infos) :=
  (h.foldl_report new).foldl_expireFlow _

end BundleState

theorem latestFrom_append_self (rs : List Report) (bundler : FlowMarker) (new : List FlowInfo) :
    latestFrom (rs ++ new.map fun info => (bundler, info)) bundler =
      new.foldl withInfo (latestFrom rs bundler) := by
  induction new generalizing rs with
  | nil => simp
  | cons info new ih =>
    have hfirst : latestFrom (rs ++ [(bundler, info)]) bundler =
        withInfo (latestFrom rs bundler) info := by
      funext flow
      rw [latestFrom, latest_append, latest_singleton, withInfo]
      by_cases hflow : info.flow = flow
      · subst hflow
        simp
      · rw [if_neg hflow, Function.update_of_ne (Ne.symm hflow)]
        rfl
    rw [List.foldl_cons, ← hfirst, ← ih]
    simp

theorem latestFrom_append_of_ne
    {rs : List Report} {bundler bundler' : FlowMarker} (hne : bundler' ≠ bundler)
    {new : List FlowInfo} (h : Successive (rs ++ new.map fun info => (bundler, info))) :
    latestFrom (rs ++ new.map fun info => (bundler, info)) bundler' = latestFrom rs bundler' := by
  funext flow
  rw [latestFrom, latestFrom]
  cases hnew : latest (new.map fun info => (bundler, info)) flow with
  | none => rw [latest_append, hnew, Option.none_or]
  | some x =>
    obtain ⟨hmem, -⟩ := mem_of_latest hnew
    obtain ⟨info, -, rfl⟩ := List.mem_map.mp hmem
    have happend : latest (rs ++ new.map fun info => (bundler, info)) flow =
        some (bundler, info) := by
      rw [latest_append, hnew, Option.some_or]
    have hother : ∀ r ∈ latest rs flow, (r.1 == bundler') = false := by
      intro r hr
      rw [(h.latest_of_append hr happend).1]
      simpa using Ne.symm hne
    have hold : (latest rs flow).filter (fun r => r.1 == bundler') = none :=
      Option.filter_eq_none_iff.mpr (by simpa using hother)
    rw [happend, hold]
    simp [hne.symm]

section Sums

abbrev TaggedEntry := Bool × Sigma fun _ : FlowMarker => ℚ × FlowInfo

namespace TaggedEntry

def flow (e : TaggedEntry) : FlowMarker := e.2.1

def info (e : TaggedEntry) : FlowInfo := e.2.2.2

end TaggedEntry

def BundleState.entries (bs : BundleState) : List TaggedEntry :=
  bs.active.entries.map (Prod.mk true) ++ bs.dead.entries.map (Prod.mk false)

def FlowAggregator.entries (a : FlowAggregator) : List TaggedEntry :=
  ((List.range a.bundlers.length).map a.bundleStates).flatMap BundleState.entries

/-- The counters as two `int64_t`. -/
def wrap (c : ℤ × ℤ) : ℤ × ℤ := (c.1.bmod (2 ^ 64), c.2.bmod (2 ^ 64))

theorem wrap_add (c c' : ℤ × ℤ) : wrap (wrap c + c') = wrap (c + c') :=
  Prod.ext Int.bmod_add_bmod Int.bmod_add_bmod

theorem wrap_eq_self {c : ℤ × ℤ} (h : 0 ≤ c) (hlt : c.1 < 2 ^ 63 ∧ c.2 < 2 ^ 63) : wrap c = c :=
  Prod.ext (bmod_eq_self (le_trans (by decide) h.1) hlt.1)
    (bmod_eq_self (le_trans (by decide) h.2) hlt.2)

namespace AggWip

def add (wip : AggWip) (e : TaggedEntry) : AggWip :=
  if e.1 then wip.addActive e.2.2.1 e.2.2.2 else wip.addDead e.2.2.1 e.2.2.2

def counters (wip : AggWip) : ℤ × ℤ := (wip.cumHipriUsageBytes, wip.cumLopriUsageBytes)

theorem counters_add (wip : AggWip) (e : TaggedEntry) :
    (wip.add e).counters = wrap (wip.counters + Flows.counters e.info) := by
  unfold add
  split_ifs <;> rfl

/-- To wrap after each addition is to wrap once. -/
theorem counters_foldl_add (entries : List TaggedEntry) :
    (entries.foldl add {}).counters =
      wrap (entries.map fun e => Flows.counters e.info).sum := by
  induction entries using List.reverseRecOn with
  | nil => rfl
  | append_singleton entries e ih =>
    rw [List.foldl_append, List.foldl_cons, List.foldl_nil, counters_add, ih, wrap_add]
    simp

end AggWip

variable {a : FlowAggregator}

theorem addBundleState_eq_groupFold
    (getAggFlowFn : FlowMarker → FlowMarker) (wips : FlowMap AggWip) (bs : BundleState) :
    addBundleState getAggFlowFn wips bs =
      groupFold (fun e : TaggedEntry => getAggFlowFn e.flow) {} AggWip.add wips bs.entries := by
  rw [groupFold, BundleState.entries, List.foldl_append, List.foldl_map, List.foldl_map]
  rfl

theorem FlowAggregator.aggWips_eq_groupFold (a : FlowAggregator) :
    a.aggWips =
      groupFold (fun e : TaggedEntry => a.config.getAggFlowFn e.flow) {} AggWip.add ∅ a.entries := by
  rw [aggWips, entries]
  generalize (List.range a.bundlers.length).map a.bundleStates = states
  generalize (∅ : FlowMap AggWip) = wips
  induction states generalizing wips with
  | nil => rfl
  | cons bs states ih =>
    rw [List.foldl_cons, ih, addBundleState_eq_groupFold, List.flatMap_cons, groupFold,
      groupFold, groupFold, List.foldl_append]

theorem FlowAggregator.counters_aggWips (a : FlowAggregator) (agg : FlowMarker) :
    ((a.aggWips.lookup agg).getD {}).counters =
      wrap ((a.entries.filter fun e => a.config.getAggFlowFn e.flow = agg).map fun e =>
        counters e.info).sum := by
  rw [aggWips_eq_groupFold, getD_lookup_groupFold]
  exact AggWip.counters_foldl_add _

theorem AggWip.children_foldl_add (entries : List TaggedEntry) (wip : AggWip) :
    (entries.foldl AggWip.add wip).children =
      wip.children ++ (entries.filter fun e => e.1).map TaggedEntry.info := by
  induction entries generalizing wip with
  | nil => simp
  | cons e entries ih =>
    rw [List.foldl_cons, ih]
    cases hactive : e.1 with
    | true => simp [AggWip.add, hactive, AggWip.addActive, AggWip.addCounters, TaggedEntry.info]
    | false => simp [AggWip.add, hactive, AggWip.addDead, AggWip.addCounters]

theorem FlowAggregator.mem_children_aggWips (a : FlowAggregator) (child : FlowInfo) :
    (∃ entry ∈ a.aggWips.entries, child ∈ entry.2.children) ↔
      ∃ e ∈ a.entries, e.1 = true ∧ e.info = child := by
  have hchildren : ∀ agg, ((a.aggWips.lookup agg).getD {}).children =
      ((a.entries.filter fun e => a.config.getAggFlowFn e.flow = agg).filter
        fun e => e.1).map TaggedEntry.info := by
    intro agg
    rw [aggWips_eq_groupFold, getD_lookup_groupFold, AggWip.children_foldl_add]
    simp
  constructor
  · rintro ⟨entry, hentry, hchild⟩
    have hlookup := hchildren entry.1
    rw [AList.mem_lookup_iff.mpr hentry, Option.getD_some] at hlookup
    rw [hlookup] at hchild
    obtain ⟨e, he, rfl⟩ := List.mem_map.mp hchild
    obtain ⟨he, hactive⟩ := List.mem_filter.mp he
    exact ⟨e, List.mem_of_mem_filter he, hactive, rfl⟩
  · rintro ⟨e, he, hactive, rfl⟩
    have hmem : a.config.getAggFlowFn e.flow ∈ a.aggWips := by
      rw [aggWips_eq_groupFold, mem_groupFold]
      exact .inr ⟨e, he, rfl⟩
    obtain ⟨wip, hwip⟩ := Option.isSome_iff_exists.mp (AList.lookup_isSome.mpr hmem)
    refine ⟨⟨_, wip⟩, AList.mem_lookup_iff.mp hwip, ?_⟩
    have hlookup := hchildren (a.config.getAggFlowFn e.flow)
    rw [hwip, Option.getD_some] at hlookup
    rw [hlookup]
    refine List.mem_map_of_mem (List.mem_filter.mpr ⟨List.mem_filter.mpr ⟨he, ?_⟩, hactive⟩)
    exact decide_eq_true rfl

theorem FlowAggregator.lookup_of_active {e : TaggedEntry} (he : e ∈ a.entries)
    (hactive : e.1 = true) : ∃ id, (a.bundleStates id).active.lookup e.flow = some e.2.2 := by
  obtain ⟨bs, hbs, he⟩ := List.mem_flatMap.mp he
  obtain ⟨id, -, rfl⟩ := List.mem_map.mp hbs
  rcases List.mem_append.mp he with he | he
  · obtain ⟨entry, hentry, rfl⟩ := List.mem_map.mp he
    exact ⟨id, AList.mem_lookup_iff.mpr hentry⟩
  · obtain ⟨entry, -, rfl⟩ := List.mem_map.mp he
    cases hactive

theorem BundleState.forall_active_update
    {P : FlowInfo → Prop} {bs : BundleState} (window timestamp : ℚ) {infos : List FlowInfo}
    (hold : ∀ flow, ∀ v ∈ bs.active.lookup flow, P v.2) (hnew : ∀ info ∈ infos, P info) :
    ∀ flow, ∀ v ∈ (bs.update window timestamp infos).active.lookup flow, P v.2 := by
  have hreport : ∀ (infos : List FlowInfo) (bs : BundleState), (∀ info ∈ infos, P info) →
      (∀ flow, ∀ v ∈ bs.active.lookup flow, P v.2) →
      ∀ flow, ∀ v ∈ (infos.foldl (report timestamp) bs).active.lookup flow, P v.2 := by
    intro infos
    induction infos with
    | nil => exact fun _ _ h => h
    | cons info infos ih =>
      intro bs hinfos hbs
      rw [List.forall_mem_cons] at hinfos
      refine ih _ hinfos.2 fun flow v hv => ?_
      have hactive : (report timestamp bs info).active =
          bs.active.insert info.flow (timestamp, info) := by
        unfold report
        split <;> rfl
      rw [hactive] at hv
      by_cases hflow : flow = info.flow
      · subst hflow
        rw [AList.lookup_insert] at hv
        obtain rfl := Option.some.inj hv
        exact hinfos.1
      · rw [AList.lookup_insert_ne hflow] at hv
        exact hbs flow v hv
  have hexpire : ∀ (flows : List FlowMarker) (bs : BundleState),
      (∀ flow, ∀ v ∈ bs.active.lookup flow, P v.2) →
      ∀ flow, ∀ v ∈ (flows.foldl (expireFlow timestamp) bs).active.lookup flow, P v.2 := by
    intro flows
    induction flows with
    | nil => exact fun _ h => h
    | cons gone flows ih =>
      intro bs hbs
      refine ih _ fun flow v hv => ?_
      unfold expireFlow at hv
      split at hv
      · exact hbs flow v hv
      · by_cases hflow : flow = gone
        · subst hflow
          simp at hv
        · rw [AList.lookup_erase_ne hflow] at hv
          exact hbs flow v hv
  exact hexpire _ _ (hreport infos bs hnew hold)

theorem FlowAggregator.children_forEachAgg {a' : FlowAggregator} {outs : List (ℚ × AggInfo)}
    (h : a.forEachAgg = some (a', outs)) :
    outs.map (·.2.children) = a.aggWips.entries.map (·.2.children) ∧
      a'.bundlers = a.bundlers ∧ a'.bundleStates = a.bundleStates ∧ a'.config = a.config := by
  have hfold : ∀ (entries : List (Sigma fun _ : FlowMarker => AggWip))
      (acc acc' : FlowMap AggState × List (ℚ × AggInfo)),
      entries.foldlM a.updateAgg acc = some acc' →
        acc'.2.map (·.2.children) = acc.2.map (·.2.children) ++ entries.map (·.2.children) := by
    intro entries
    induction entries with
    | nil =>
      intro acc acc' hacc
      obtain rfl := Option.some.inj hacc
      simp
    | cons entry entries ih =>
      intro acc acc' hacc
      rw [List.foldlM_cons] at hacc
      obtain ⟨acc₁, hfirst, hrest⟩ := Option.bind_eq_some_iff.mp hacc
      obtain ⟨s, -, rfl⟩ := Option.map_eq_some_iff.mp hfirst
      rw [ih _ _ hrest]
      simp
  obtain ⟨result, hresult, heq⟩ := Option.map_eq_some_iff.mp h
  obtain ⟨rfl, rfl⟩ := Prod.mk.inj heq
  exact ⟨by simpa using hfold _ _ _ hresult, rfl, rfl, rfl⟩

namespace BundleState

variable {bs : BundleState} {infos : FlowMarker → Option FlowInfo} {e : TaggedEntry}

theorem Holds.of_mem_entries (h : bs.Holds infos) (he : e ∈ bs.entries) :
    infos e.flow = some e.info := by
  rcases List.mem_append.mp he with he | he
  · obtain ⟨x, hx, rfl⟩ := List.mem_map.mp he
    have hlookup := AList.mem_lookup_iff.mpr hx
    rcases h x.1 with ⟨hinfo, -⟩ | ⟨hnone, -⟩
    · exact hinfo.symm.trans (congrArg (Option.map Prod.snd) hlookup)
    · rw [hnone] at hlookup
      simp at hlookup
  · obtain ⟨x, hx, rfl⟩ := List.mem_map.mp he
    have hlookup := AList.mem_lookup_iff.mpr hx
    rcases h x.1 with ⟨-, hnone⟩ | ⟨-, hinfo⟩
    · rw [hnone] at hlookup
      simp at hlookup
    · exact hinfo.symm.trans (congrArg (Option.map Prod.snd) hlookup)

theorem Holds.exists_mem_entries
    (h : bs.Holds infos) {flow : FlowMarker} (hflow : infos flow ≠ none) :
    ∃ e ∈ bs.entries, e.flow = flow := by
  rcases h flow with ⟨hinfo, -⟩ | ⟨-, hinfo⟩
  · obtain ⟨x, hx⟩ : ∃ x, bs.active.lookup flow = some x := by
      cases hx : bs.active.lookup flow with
      | none => rw [← hinfo, hx] at hflow; simp at hflow
      | some x => exact ⟨x, rfl⟩
    exact ⟨(true, ⟨flow, x⟩), List.mem_append_left _
      (List.mem_map.mpr ⟨_, AList.mem_lookup_iff.mp hx, rfl⟩), rfl⟩
  · obtain ⟨x, hx⟩ : ∃ x, bs.dead.lookup flow = some x := by
      cases hx : bs.dead.lookup flow with
      | none => rw [← hinfo, hx] at hflow; simp at hflow
      | some x => exact ⟨x, rfl⟩
    exact ⟨(false, ⟨flow, x⟩), List.mem_append_right _
      (List.mem_map.mpr ⟨_, AList.mem_lookup_iff.mp hx, rfl⟩), rfl⟩

theorem Holds.lookup_or (h : bs.Holds infos) (flow : FlowMarker) :
    ((bs.active.lookup flow).or (bs.dead.lookup flow)).map Prod.snd = infos flow := by
  rcases h flow with ⟨hactive, hdead⟩ | ⟨hactive, hdead⟩
  · rw [hdead, Option.or_none, hactive]
  · rw [hactive, Option.none_or, hdead]

theorem Holds.not_both (h : bs.Holds infos) (flow : FlowMarker) :
    ¬ (flow ∈ bs.active ∧ flow ∈ bs.dead) := by
  rintro ⟨hactive, hdead⟩
  rw [← AList.lookup_isSome] at hactive hdead
  rcases h flow with ⟨-, hnone⟩ | ⟨hnone, -⟩
  · simp [hnone] at hdead
  · simp [hnone] at hactive

theorem Holds.nodup_entries (h : bs.Holds infos) : (bs.entries.map TaggedEntry.flow).Nodup := by
  have hkeys : bs.entries.map TaggedEntry.flow = bs.active.keys ++ bs.dead.keys := by
    simp [BundleState.entries, AList.keys, List.keys, TaggedEntry.flow, Function.comp_def]
  rw [hkeys, List.nodup_append]
  refine ⟨bs.active.keys_nodup, bs.dead.keys_nodup, fun flow hactive flow' hdead heq => ?_⟩
  subst heq
  exact h.not_both flow ⟨hactive, hdead⟩

end BundleState

end Sums

section Conservation

/-- The bundlers hold the latest reports. -/
structure Conserved (rs : List Report) (a : FlowAggregator) : Prop where
  nodup : a.bundlers.Nodup
  known : ∀ r ∈ rs, r.1 ∈ a.bundlers
  fresh : ∀ id, a.bundlers.length ≤ id → a.bundleStates id = {}
  holds : ∀ id bundler, a.bundlers[id]? = some bundler →
    (a.bundleStates id).Holds (latestFrom rs bundler)

variable {rs : List Report} {a : FlowAggregator}

theorem latestFrom_eq_some_iff {bundler flow : FlowMarker} {info : FlowInfo} :
    latestFrom rs bundler flow = some info ↔ latest rs flow = some (bundler, info) := by
  cases hr : latest rs flow with
  | none => simp [latestFrom, hr]
  | some r =>
    obtain ⟨bundler', info'⟩ := r
    by_cases hb : bundler' = bundler <;> simp [latestFrom, hr, hb]

theorem mem_entries_iff {e : TaggedEntry} :
    e ∈ a.entries ↔ ∃ id < a.bundlers.length, e ∈ (a.bundleStates id).entries := by
  simp [FlowAggregator.entries]

namespace Conserved

theorem latest_of_mem (h : Conserved rs a) {e : TaggedEntry} (he : e ∈ a.entries) :
    ∃ bundler, latest rs e.flow = some (bundler, e.info) := by
  obtain ⟨id, hid, he⟩ := mem_entries_iff.mp he
  have hbundler := List.getElem?_eq_getElem hid
  exact ⟨_, latestFrom_eq_some_iff.mp ((h.holds id _ hbundler).of_mem_entries he)⟩

theorem exists_mem_entries (h : Conserved rs a) {flow : FlowMarker} (hflow : flow ∈ seen rs) :
    ∃ e ∈ a.entries, e.flow = flow := by
  obtain ⟨⟨bundler, info⟩, hr⟩ := exists_latest hflow
  obtain ⟨id, hid⟩ := List.mem_iff_getElem?.mp (h.known _ (mem_of_latest hr).1)
  have hsome : latestFrom rs bundler flow ≠ none := by
    rw [latestFrom_eq_some_iff.mpr hr]
    simp
  obtain ⟨e, he, heflow⟩ := (h.holds id bundler hid).exists_mem_entries hsome
  exact ⟨e, mem_entries_iff.mpr ⟨id, (List.getElem?_eq_some_iff.mp hid).1, he⟩, heflow⟩

theorem nodup_entries (h : Conserved rs a) : (a.entries.map TaggedEntry.flow).Nodup := by
  rw [FlowAggregator.entries, List.flatMap_map, List.map_flatMap, List.nodup_flatMap]
  have hholds : ∀ id, (hid : id < a.bundlers.length) →
      (a.bundleStates id).Holds (latestFrom rs a.bundlers[id]) := fun id hid =>
    h.holds id _ (List.getElem?_eq_getElem hid)
  refine ⟨fun id hid => (hholds id (List.mem_range.mp hid)).nodup_entries, ?_⟩
  refine List.nodup_range.pairwise_of_forall_ne fun id hid id' hid' hne flow hflow hflow' => ?_
  rw [List.mem_range] at hid hid'
  obtain ⟨e, he, rfl⟩ := List.mem_map.mp hflow
  obtain ⟨e', he', heq⟩ := List.mem_map.mp hflow'
  have hlatest := latestFrom_eq_some_iff.mp ((hholds id hid).of_mem_entries he)
  have hlatest' := latestFrom_eq_some_iff.mp ((hholds id' hid').of_mem_entries he')
  rw [heq, hlatest] at hlatest'
  have hbundler := congrArg Prod.fst (Option.some.inj hlatest')
  exact hne (h.nodup.getElem_inj_iff.mp hbundler)

theorem toFinset_entries (h : Conserved rs a) :
    (a.entries.map TaggedEntry.flow).toFinset = seen rs := by
  ext flow
  rw [List.mem_toFinset, List.mem_map]
  constructor
  · rintro ⟨e, he, rfl⟩
    obtain ⟨bundler, hlatest⟩ := h.latest_of_mem he
    obtain ⟨hmem, hflow⟩ := mem_of_latest hlatest
    exact mem_seen_iff.mpr ⟨_, hmem, hflow⟩
  · exact h.exists_mem_entries

/-- The sums of the entries are those of the latest reports of the flows ever seen. -/
theorem counters_aggWips (h : Conserved rs a) (agg : FlowMarker) :
    ((a.aggWips.lookup agg).getD {}).counters = wrap (total a.config.getAggFlowFn rs agg) := by
  have hweight : (a.entries.filter fun e => a.config.getAggFlowFn e.flow = agg).map
      (fun e => counters e.info) =
        ((a.entries.map TaggedEntry.flow).filter fun flow => a.config.getAggFlowFn flow = agg).map
          fun flow => ((latest rs flow).map fun r => counters r.2).getD 0 := by
    rw [List.filter_map, List.map_map]
    refine List.map_congr_left fun e he => ?_
    obtain ⟨bundler, hlatest⟩ := h.latest_of_mem (List.mem_of_mem_filter he)
    simp [hlatest]
  rw [a.counters_aggWips, hweight, ← List.sum_toFinset _ (h.nodup_entries.filter _),
    List.toFinset_filter, h.toFinset_entries, total]
  simp only [decide_eq_true_eq]

theorem mem_aggWips_iff (h : Conserved rs a) (agg : FlowMarker) :
    agg ∈ a.aggWips ↔ ∃ flow ∈ seen rs, a.config.getAggFlowFn flow = agg := by
  rw [a.aggWips_eq_groupFold, mem_groupFold]
  constructor
  · rintro (hempty | ⟨e, he, hagg⟩)
    · exact absurd hempty (AList.notMem_empty agg)
    · obtain ⟨bundler, hlatest⟩ := h.latest_of_mem he
      obtain ⟨hmem, hflow⟩ := mem_of_latest hlatest
      exact ⟨e.flow, mem_seen_iff.mpr ⟨_, hmem, hflow⟩, hagg⟩
  · rintro ⟨flow, hseen, hagg⟩
    obtain ⟨e, he, rfl⟩ := h.exists_mem_entries hseen
    exact .inr ⟨e, he, hagg⟩

/-- The sums that fit have not wrapped around. -/
theorem counters_of_mem (h : Conserved rs a) (hreports : Successive rs)
    (hfits : Fits a.config.getAggFlowFn rs) {entry : Sigma fun _ : FlowMarker => AggWip}
    (hentry : entry ∈ a.aggWips.entries) :
    entry.2.counters = total a.config.getAggFlowFn rs entry.1 := by
  have hlookup : a.aggWips.lookup entry.1 = some entry.2 := AList.mem_lookup_iff.mpr hentry
  have hsum := h.counters_aggWips entry.1
  rw [hlookup, Option.getD_some] at hsum
  obtain ⟨flow, hflow, hagg⟩ := (h.mem_aggWips_iff entry.1).mp
    (AList.lookup_isSome.mp (Option.isSome_iff_exists.mpr ⟨_, hlookup⟩))
  obtain ⟨r, hr, rfl⟩ := mem_seen_iff.mp hflow
  rw [hsum, wrap_eq_self (hreports.total_nonneg _ _) (hagg ▸ hfits r hr)]

theorem getBundlerID (h : Conserved rs a) (bundler : FlowMarker) :
    ∃ id a', a.getBundlerID bundler = (id, a') ∧ a'.bundlers[id]? = some bundler ∧
      Conserved rs a' ∧ a'.config = a.config ∧ a'.aggStates = a.aggStates ∧
      a'.aggDemandPredictor = a.aggDemandPredictor := by
  unfold FlowAggregator.getBundlerID
  split
  · rename_i id hid
    obtain ⟨hlt, heq, -⟩ := List.findIdx?_eq_some_iff_getElem.mp hid
    refine ⟨id, a, rfl, ?_, h, rfl, rfl, rfl⟩
    rw [List.getElem?_eq_getElem hlt]
    simpa using heq
  · rename_i hnone
    have hnew : bundler ∉ a.bundlers := fun hmem => by
      simpa using List.findIdx?_eq_none_iff.mp hnone bundler hmem
    have hunseen : latestFrom rs bundler = fun _ => none := by
      funext flow
      rw [Option.eq_none_iff_forall_not_mem]
      intro info hinfo
      exact hnew (h.known _ (mem_of_latest (latestFrom_eq_some_iff.mp hinfo)).1)
    refine ⟨_, _, rfl, by simp, ⟨?_, ?_, ?_, ?_⟩, rfl, rfl, rfl⟩
    · exact List.nodup_append.mpr ⟨h.nodup, List.nodup_singleton _, by
        rintro x hx y hy rfl
        exact hnew (List.mem_singleton.mp hy ▸ hx)⟩
    · exact fun r hr => List.mem_append_left _ (h.known r hr)
    · intro id hid
      refine h.fresh id (le_trans ?_ hid)
      simp
    · intro id bundler' hid
      rcases lt_trichotomy id a.bundlers.length with hlt | rfl | hgt
      · rw [List.getElem?_append_left hlt] at hid
        exact h.holds id bundler' hid
      · obtain rfl : bundler = bundler' := by simpa using hid
        rw [hunseen]
        dsimp only
        rw [h.fresh _ le_rfl]
        exact BundleState.holds_empty
      · have hout : (a.bundlers ++ [bundler]).length ≤ id := by simpa using hgt
        rw [List.getElem?_eq_none hout] at hid
        cases hid

/-- An update keeps the latest reports. -/
theorem update (h : Conserved rs a) {bundle : InfoBundle}
    (hvalid : ∀ info ∈ bundle.flowInfos, a.config.isValidChild info.flow = true)
    (hreports : Successive (rs ++ (AggregatorCall.update bundle).reports)) :
    ∃ a', a.call (.update bundle) = some a' ∧
      Conserved (rs ++ (AggregatorCall.update bundle).reports) a' ∧ a'.config = a.config ∧
      a'.aggStates = a.aggStates ∧ a'.aggDemandPredictor = a.aggDemandPredictor := by
  obtain ⟨id, a₁, hget, hid, h₁, hconfig, hstates, hpredictor⟩ := h.getBundlerID bundle.bundler
  have hlt := (List.getElem?_eq_some_iff.mp hid).1
  have hif : id < a₁.bundlers.length ∧
      (bundle.flowInfos.all fun info => a₁.config.isValidChild info.flow) = true := by
    refine ⟨hlt, ?_⟩
    rw [hconfig]
    simpa using hvalid
  have hcall : a.call (.update bundle) = some { a₁ with
      bundleStates := Function.update a₁.bundleStates id
        ((a₁.bundleStates id).update a₁.config.usageHistoryWindow bundle.timestamp
          bundle.flowInfos) } := by
    rw [FlowAggregator.call, hget, FlowAggregator.update, if_pos hif]
  refine ⟨_, hcall, ⟨h₁.nodup, ?_, ?_, ?_⟩, hconfig, hstates, hpredictor⟩
  · intro r hr
    rcases List.mem_append.mp hr with hr | hr
    · exact h₁.known r hr
    · obtain ⟨info, -, rfl⟩ := List.mem_map.mp hr
      exact List.mem_iff_getElem?.mpr ⟨id, hid⟩
  · intro id' hid'
    have hne : id' ≠ id := by
      rintro rfl
      exact absurd hlt (not_lt.mpr hid')
    dsimp only
    rw [Function.update_of_ne hne]
    exact h₁.fresh id' hid'
  · intro id' bundler' hid'
    dsimp only at hid' ⊢
    by_cases hsame : id' = id
    · subst hsame
      obtain rfl : bundle.bundler = bundler' := Option.some.inj (hid.symm.trans hid')
      rw [Function.update_self, AggregatorCall.reports, latestFrom_append_self]
      exact (h₁.holds id' _ hid).update _ _ _
    · have hne : bundler' ≠ bundle.bundler := by
        rintro rfl
        obtain ⟨hlt', heq'⟩ := List.getElem?_eq_some_iff.mp hid'
        obtain ⟨hlt, heq⟩ := List.getElem?_eq_some_iff.mp hid
        exact hsame (h₁.nodup.getElem_inj_iff.mp (heq'.trans heq.symm))
      rw [Function.update_of_ne hsame, AggregatorCall.reports, latestFrom_append_of_ne hne hreports]
      exact h₁.holds id' bundler' hid'

end Conserved

end Conservation

section Aggregates

def aggStateOf (states : FlowMap AggState) (agg : FlowMarker) : AggState :=
  (states.lookup agg).getD (.create agg false)

/-- What `ForEachAgg` reports: the new counters, or the old ones if they are dropped. -/
def reportedCounters (s : AggState) (wip : AggWip) : ℤ × ℤ :=
  if s.isOlder wip.asUpdate then counters s.cur else wip.counters

variable {a : FlowAggregator}

theorem exists_updateUsage {s : AggState} {wip : AggWip} (h : counters s.cur ≤ wip.counters)
    (usageHistoryWindow : ℚ) (demandPredictor : DemandPredictor) :
    ∃ s', s.updateUsage wip.asUpdate usageHistoryWindow demandPredictor = some s' := by
  have hdecrease : s.countersDecrease wip.asUpdate = false := by
    obtain ⟨hhipri, hlopri⟩ := h
    simpa [AggState.countersDecrease] using ⟨hhipri, hlopri⟩
  have hsome : (s.updateUsage wip.asUpdate usageHistoryWindow demandPredictor).isSome := by
    simp only [AggState.updateUsage, hdecrease]
    split_ifs <;> simp_all
  exact Option.isSome_iff_exists.mp hsome

theorem counters_of_updateUsage
    {s s' : AggState} {wip : AggWip} {usageHistoryWindow : ℚ} {demandPredictor : DemandPredictor}
    (hs' : s.updateUsage wip.asUpdate usageHistoryWindow demandPredictor = some s') :
    counters s'.cur = reportedCounters s wip := by
  rcases AggState.updateUsage_cases hs' with ⟨holder, rfl⟩ | ⟨holder, -, rfl | rfl⟩
  · rw [reportedCounters, if_pos holder]
  · rw [reportedCounters, holder, if_neg Bool.false_ne_true]
    rfl
  · rw [reportedCounters, holder, if_neg Bool.false_ne_true]
    rfl

def aggOutput (states : FlowMap AggState) (entry : Sigma fun _ : FlowMarker => AggWip) :
    ℚ × AggInfo :=
  (entry.2.time, { parent := (aggStateOf states entry.1).cur, children := entry.2.children })

structure AggsUpdated (a : FlowAggregator) (entries : List (Sigma fun _ : FlowMarker => AggWip))
    (states states' : FlowMap AggState) : Prop where
  updated : ∀ entry ∈ entries, (aggStateOf states entry.1).updateUsage entry.2.asUpdate
    a.config.usageHistoryWindow a.aggDemandPredictor = some (aggStateOf states' entry.1)
  frame : ∀ agg, agg ∉ entries.map Sigma.fst → aggStateOf states' agg = aggStateOf states agg

theorem AggsUpdated.counters
    {entries : List (Sigma fun _ : FlowMarker => AggWip)} {states states' : FlowMap AggState}
    (h : AggsUpdated a entries states states') :
    ∀ entry ∈ entries, counters (aggStateOf states' entry.1).cur =
      reportedCounters (aggStateOf states entry.1) entry.2 :=
  fun entry hentry => counters_of_updateUsage (h.updated entry hentry)

/-- The loop over the aggregates succeeds where no aggregate is ahead of its sums. -/
theorem exists_foldlM_updateAgg (entries : List (Sigma fun _ : FlowMarker => AggWip))
    (hnodup : (entries.map Sigma.fst).Nodup) (states : FlowMap AggState) (outs : List (ℚ × AggInfo))
    (hle : ∀ entry ∈ entries, counters (aggStateOf states entry.1).cur ≤ entry.2.counters) :
    ∃ states', entries.foldlM a.updateAgg (states, outs) =
        some (states', outs ++ entries.map (aggOutput states')) ∧
      AggsUpdated a entries states states' := by
  induction entries generalizing states outs with
  | nil => exact ⟨states, by simp, by simp, fun _ _ => rfl⟩
  | cons entry entries ih =>
    rw [List.map_cons, List.nodup_cons] at hnodup
    obtain ⟨s', hs'⟩ := exists_updateUsage (hle entry (List.mem_cons_self ..))
      a.config.usageHistoryWindow a.aggDemandPredictor
    have hstep : a.updateAgg (states, outs) entry = some (states.insert entry.1 s',
        outs ++ [(entry.2.time, { parent := s'.cur, children := entry.2.children })]) := by
      have hfirst := hs'
      rw [aggStateOf] at hfirst
      simp [FlowAggregator.updateAgg, hfirst]
    have hself : aggStateOf (states.insert entry.1 s') entry.1 = s' := by
      simp [aggStateOf]
    have hother : ∀ agg, agg ≠ entry.1 →
        aggStateOf (states.insert entry.1 s') agg = aggStateOf states agg := by
      intro agg hagg
      rw [aggStateOf, aggStateOf, AList.lookup_insert_ne hagg]
    have hne : ∀ e ∈ entries, e.1 ≠ entry.1 := fun e he heq =>
      hnodup.1 (List.mem_map.mpr ⟨e, he, heq⟩)
    obtain ⟨states', hfold, hupdated, hframe⟩ := ih hnodup.2 (states.insert entry.1 s')
      (outs ++ [(entry.2.time, { parent := s'.cur, children := entry.2.children })])
      (fun e he => by
        rw [hother _ (hne e he)]
        exact hle e (List.mem_cons_of_mem _ he))
    have hfinal : aggStateOf states' entry.1 = s' := (hframe _ hnodup.1).trans hself
    refine ⟨states', ?_, ?_, ?_⟩
    · rw [List.foldlM_cons, hstep, Option.bind_eq_bind, Option.bind_some, hfold,
        List.append_assoc, List.singleton_append, List.map_cons, aggOutput, hfinal]
    · rw [List.forall_mem_cons]
      refine ⟨by rw [hfinal, hs'], fun e he => ?_⟩
      rw [← hother _ (hne e he)]
      exact hupdated e he
    · intro agg hagg
      rw [List.map_cons, List.mem_cons, not_or] at hagg
      rw [hframe agg hagg.2, hother agg hagg.1]

def Behind (rs : List Report) (a : FlowAggregator) : Prop :=
  ∀ agg, counters (aggStateOf a.aggStates agg).cur ≤ total a.config.getAggFlowFn rs agg

variable {rs : List Report}

theorem Behind.append {a' : FlowAggregator} {rs' : List Report} (h : Behind rs a)
    (hstates : a'.aggStates = a.aggStates) (hconfig : a'.config = a.config)
    (hreports : Successive (rs ++ rs')) : Behind (rs ++ rs') a' := by
  intro agg
  rw [hstates, hconfig]
  exact (h agg).trans (hreports.total_le_total _ agg)

theorem reportedCounters_le {s : AggState} {wip : AggWip} (h : counters s.cur ≤ wip.counters) :
    reportedCounters s wip ≤ wip.counters := by
  unfold reportedCounters
  split_ifs
  · exact h
  · exact le_rfl

theorem Conserved.of_states (h : Conserved rs a) (states : FlowMap AggState) :
    Conserved rs { a with aggStates := states } :=
  ⟨h.nodup, h.known, h.fresh, h.holds⟩

/-- `ForEachAgg` succeeds, and reports the sums unless they are older than the last. -/
theorem Conserved.forEachAgg (h : Conserved rs a) (hreports : Successive rs)
    (hfits : Fits a.config.getAggFlowFn rs) (hbehind : Behind rs a) :
    ∃ states, a.forEachAgg =
        some ({ a with aggStates := states }, a.aggWips.entries.map (aggOutput states)) ∧
      AggsUpdated a a.aggWips.entries a.aggStates states ∧
      Behind rs { a with aggStates := states } := by
  have hle : ∀ entry ∈ a.aggWips.entries,
      counters (aggStateOf a.aggStates entry.1).cur ≤ entry.2.counters := by
    intro entry hentry
    rw [h.counters_of_mem hreports hfits hentry]
    exact hbehind entry.1
  obtain ⟨states, hfold, hupdated⟩ :=
    exists_foldlM_updateAgg (a := a) a.aggWips.entries a.aggWips.keys_nodup a.aggStates [] hle
  refine ⟨states, ?_, hupdated, fun agg => ?_⟩
  · rw [FlowAggregator.forEachAgg, hfold]
    rfl
  · by_cases hagg : agg ∈ a.aggWips.entries.map Sigma.fst
    · obtain ⟨entry, hentry, rfl⟩ := List.mem_map.mp hagg
      dsimp only
      rw [hupdated.counters entry hentry, ← h.counters_of_mem hreports hfits hentry]
      exact reportedCounters_le (hle entry hentry)
    · dsimp only
      rw [hupdated.frame agg hagg]
      exact hbehind agg

end Aggregates

section Runs

variable {a : FlowAggregator} {rs : List Report}

theorem conserved_create (demandPredictor : DemandPredictor) (config : FlowAggregatorConfig) :
    Conserved [] (.create demandPredictor config) :=
  ⟨List.nodup_nil, by simp, fun _ _ => rfl, fun id bundler hid => by
    simp [FlowAggregator.create] at hid⟩

theorem behind_create (demandPredictor : DemandPredictor) (config : FlowAggregatorConfig) :
    Behind [] (.create demandPredictor config) := by
  intro agg
  simp [FlowAggregator.create, aggStateOf, AggState.create, counters, total, seen, Prod.mk_zero_zero]

/-- A run never aborts, keeps the latest reports and lets no aggregate get ahead. -/
theorem exists_run (demandPredictor : DemandPredictor) (config : FlowAggregatorConfig)
    (calls : List AggregatorCall)
    (hvalid : ∀ r ∈ reports calls, config.isValidChild r.2.flow = true)
    (hreports : Successive (reports calls)) (hfits : Fits config.getAggFlowFn (reports calls)) :
    ∃ a, exec FlowAggregator.call (.create demandPredictor config) calls = some a ∧
      a.config = config ∧ Conserved (reports calls) a ∧ Behind (reports calls) a := by
  induction calls using List.reverseRecOn with
  | nil =>
    exact ⟨_, rfl, rfl, conserved_create demandPredictor config,
      behind_create demandPredictor config⟩
  | append_singleton calls c ih =>
    rw [reports_append] at hvalid hreports hfits ⊢
    obtain ⟨a, hrun, rfl, hconserved, hbehind⟩ :=
      ih (fun r hr => hvalid r (List.mem_append_left _ hr)) hreports.of_append
        (hfits.of_append hreports)
    have hc : reports [c] = c.reports := by simp [reports]
    rw [hc] at hvalid hreports hfits ⊢
    cases c with
    | update bundle =>
      obtain ⟨a', hcall, hconserved', hconfig, hstates, -⟩ := hconserved.update
        (fun info hinfo => hvalid _ (List.mem_append_right _
          (List.mem_map.mpr ⟨info, hinfo, rfl⟩))) hreports
      exact ⟨a', exec_concat_eq_some.mpr ⟨a, hrun, hcall⟩, hconfig, hconserved',
        hbehind.append hstates hconfig hreports⟩
    | forEachAgg =>
      obtain ⟨states, hcall, -, hbehind'⟩ := hconserved.forEachAgg hreports.of_append
        (hfits.of_append hreports) hbehind
      refine ⟨{ a with aggStates := states }, exec_concat_eq_some.mpr ⟨a, hrun, ?_⟩, rfl,
        ?_, ?_⟩
      · rw [FlowAggregator.call, hcall]
        rfl
      · rw [AggregatorCall.reports, List.append_nil]
        exact hconserved.of_states states
      · rw [AggregatorCall.reports, List.append_nil]
        exact hbehind'

namespace FlowAggregator

structure KeepsLatest (rs : List Report) (a : FlowAggregator) : Prop where
  not_both : ∀ id flow, ¬ (flow ∈ (a.bundleStates id).active ∧ flow ∈ (a.bundleStates id).dead)
  latest : ∀ flow bundler info, latest rs flow = some (bundler, info) →
    ∃ id, a.bundlers[id]? = some bundler ∧
      Xor (∃ time, (a.bundleStates id).active.lookup flow = some (time, info))
        (∃ time, (a.bundleStates id).dead.lookup flow = some (time, info))

structure SumsLatest (rs : List Report) (a : FlowAggregator) : Prop where
  aggs : ∀ agg, agg ∈ a.aggWips ↔ ∃ flow ∈ seen rs, a.config.getAggFlowFn flow = agg
  counters : ∀ agg, ∀ wip ∈ a.aggWips.lookup agg,
    (wip.cumHipriUsageBytes, wip.cumLopriUsageBytes) = total a.config.getAggFlowFn rs agg

end FlowAggregator

theorem Conserved.keepsLatest (h : Conserved rs a) : a.KeepsLatest rs := by
  refine ⟨fun id flow => ?_, fun flow bundler info hlatest => ?_⟩
  · rcases lt_or_ge id a.bundlers.length with hlt | hge
    · exact (h.holds id _ (List.getElem?_eq_getElem hlt)).not_both flow
    · rw [h.fresh id hge]
      exact BundleState.holds_empty.not_both flow
  · obtain ⟨id, hid⟩ := List.mem_iff_getElem?.mp (h.known _ (mem_of_latest hlatest).1)
    refine ⟨id, hid, ?_⟩
    have hinfo := latestFrom_eq_some_iff.mpr hlatest
    rcases h.holds id bundler hid flow with ⟨hactive, hdead⟩ | ⟨hactive, hdead⟩
    · rw [hinfo, Option.map_eq_some_iff] at hactive
      obtain ⟨⟨time, _⟩, hactive, rfl⟩ := hactive
      exact .inl ⟨⟨time, hactive⟩, by simp [hdead]⟩
    · rw [hinfo, Option.map_eq_some_iff] at hdead
      obtain ⟨⟨time, _⟩, hdead, rfl⟩ := hdead
      exact .inr ⟨⟨time, hdead⟩, by simp [hactive]⟩

theorem Conserved.sumsLatest (h : Conserved rs a) (hreports : Successive rs)
    (hfits : Fits a.config.getAggFlowFn rs) : a.SumsLatest rs := by
  refine ⟨h.mem_aggWips_iff, fun agg wip hwip => ?_⟩
  have hentry : ⟨agg, wip⟩ ∈ a.aggWips.entries := AList.mem_lookup_iff.mp hwip
  exact h.counters_of_mem hreports hfits hentry

/--
A sequence of calls in which each flow is reported by one bundler with counters that do
not decrease, and the sums of the latest counters of each aggregate stay below `2 ^ 63`,
never aborts. The bundlers keep the latest reports, the counters that are summed up for
each aggregate are the sums of those of all its flows ever seen, they are no less than
those at any earlier time, and the next `ForEachAgg` reports them unless they are older
than the last ones.
-/
theorem run_conserves_usage (demandPredictor : DemandPredictor) (config : FlowAggregatorConfig)
    (calls : List AggregatorCall)
    (hvalid : ∀ r ∈ reports calls, config.isValidChild r.2.flow = true)
    (hreports : Successive (reports calls)) (hfits : Fits config.getAggFlowFn (reports calls)) :
    ∃ a, exec FlowAggregator.call (.create demandPredictor config) calls = some a ∧
      a.KeepsLatest (reports calls) ∧ a.SumsLatest (reports calls) ∧
      (∀ pre b, pre <+: calls →
        exec FlowAggregator.call (.create demandPredictor config) pre = some b →
        ∀ agg, ∀ wip ∈ b.aggWips.lookup agg, ∃ wip' ∈ a.aggWips.lookup agg,
          wip.cumHipriUsageBytes ≤ wip'.cumHipriUsageBytes ∧
            wip.cumLopriUsageBytes ≤ wip'.cumLopriUsageBytes) ∧
      ∃ a', a.forEachAgg = some (a', a.aggWips.entries.map (aggOutput a'.aggStates)) ∧
        ∀ entry ∈ a.aggWips.entries, counters (aggStateOf a'.aggStates entry.1).cur =
          reportedCounters (aggStateOf a.aggStates entry.1) entry.2 := by
  obtain ⟨a, hrun, hconfig, hconserved, hbehind⟩ :=
    exists_run demandPredictor config calls hvalid hreports hfits
  have hsums := hconserved.sumsLatest hreports (hconfig ▸ hfits)
  refine ⟨a, hrun, hconserved.keepsLatest, hsums, ?_, ?_⟩
  · rintro pre b ⟨rest, rfl⟩ hpre agg wip hwip
    rw [reports_append] at hvalid hreports hfits hsums
    have hfits' := hfits.of_append hreports
    obtain ⟨b', hb', hconfig', hconserved', -⟩ := exists_run demandPredictor config pre
      (fun r hr => hvalid r (List.mem_append_left _ hr)) hreports.of_append hfits'
    obtain rfl : b' = b := Option.some.inj (hb'.symm.trans hpre)
    have hsums' := hconserved'.sumsLatest hreports.of_append (hconfig' ▸ hfits')
    have hagg : agg ∈ a.aggWips := by
      obtain ⟨flow, hflow, hagg⟩ := (hsums'.aggs agg).mp
        (AList.lookup_isSome.mp (Option.isSome_iff_exists.mpr ⟨wip, hwip⟩))
      exact (hsums.aggs agg).mpr ⟨flow, seen_subset_append _ _ hflow,
        by rw [hconfig, ← hconfig', hagg]⟩
    obtain ⟨wip', hwip'⟩ := Option.isSome_iff_exists.mp (AList.lookup_isSome.mpr hagg)
    refine ⟨wip', hwip', ?_⟩
    have hle := hreports.total_le_total config.getAggFlowFn agg
    rw [← hconfig'] at hle
    rw [← hsums'.counters agg wip hwip, hconfig', ← hconfig, ← hsums.counters agg wip' hwip'] at hle
    exact hle
  · obtain ⟨states, hforEach, hupdated, -⟩ :=
      hconserved.forEachAgg hreports (hconfig ▸ hfits) hbehind
    exact ⟨_, hforEach, hupdated.counters⟩

def revived : List AggregatorCall :=
  [.update { bundler := { hostId := 1 }, timestamp := 100, flowInfos :=
      [{ flow := { srcPort := 10 }, cumHipriUsageBytes := 5 },
        { flow := { srcPort := 20 }, cumLopriUsageBytes := 7 }] },
    .forEachAgg,
    .update { bundler := { hostId := 1 }, timestamp := 300, flowInfos :=
      [{ flow := { srcPort := 20 }, cumLopriUsageBytes := 8 }] },
    .forEachAgg,
    .update { bundler := { hostId := 1 }, timestamp := 200, flowInfos :=
      [{ flow := { srcPort := 10 }, cumHipriUsageBytes := 6 }] },
    .forEachAgg]

theorem run_conserves_usage_revived :
    ∃ a, exec FlowAggregator.call (.create (fun _ _ => 0) { getAggFlowFn := fun _ => {} })
        revived = some a ∧
      a.KeepsLatest (reports revived) ∧ a.SumsLatest (reports revived) := by
  obtain ⟨a, hrun, hlatest, hsums, -⟩ := run_conserves_usage (fun _ _ => 0)
    { getAggFlowFn := fun _ => {} } revived (fun _ _ => rfl) ⟨by decide, by decide⟩ (by
      unfold Fits
      decide +kernel)
  exact ⟨a, hrun, hlatest, hsums⟩

def overflowing : List AggregatorCall :=
  [.update { bundler := { hostId := 1 }, timestamp := 100, flowInfos :=
      [{ flow := { srcPort := 10 }, cumHipriUsageBytes := 2 ^ 62 },
        { flow := { srcPort := 20 }, cumHipriUsageBytes := 2 ^ 62 }] },
    .forEachAgg]

/--
A sum of `2 ^ 63` bytes is negative as an `int64_t`, and the process exits.  An update that
is older than the last one leaves the counters of the parent as they were.
-/
theorem not_conserved_overflowing :
    let a : FlowAggregator := .create (fun _ _ => 0) { getAggFlowFn := fun _ => {} }
    (Successive (reports overflowing) ∧ exec FlowAggregator.call a overflowing = none) ∧
      Successive (reports revived) ∧ total (fun _ => {}) (reports revived) {} = (6, 8) ∧
      ((exec FlowAggregator.call a (revived.take 5)).bind fun a =>
        a.forEachAgg.map fun result => result.2.map fun out => counters out.2.parent) =
          some [(5, 8)] := by
  have hnone : (exec FlowAggregator.call
      (.create (fun _ _ => 0) { getAggFlowFn := fun _ => {} }) overflowing).isNone = true := by
    decide +kernel
  exact ⟨⟨⟨by decide, by decide⟩, Option.isNone_iff_eq_none.mp hnone⟩, ⟨by decide, by decide⟩,
    by decide +kernel, by decide +kernel⟩

end Runs

end Flows
end HeypAgents
