import HeypAgents.Flows.FlowAggregatorConservation

/-!
# Updates in the order of their times

`UpdateUsage` drops the sums of an aggregate if their time is before that of the last
ones.  The time of the sums is that of the flow that was reported least recently, or that
of the last expiry when no flow is active.  With bundles whose timestamps do not decrease
it does not decrease either, so `ForEachAgg` reports all sums, which are those of the
latest reports if they fit into `int64_t`.
-/

namespace HeypAgents
namespace Flows

open GroupFold

def TaggedEntry.time (e : TaggedEntry) : ℚ := e.2.2.1

section Moves

variable {timestamp window : ℚ} {entries entries' entries'' : List TaggedEntry}

structure Moved (timestamp : ℚ) (entries entries' : List TaggedEntry) : Prop where
  kept : ∀ e ∈ entries, e ∈ entries' ∨ ∃ e' ∈ entries', e'.flow = e.flow ∧ e'.time = timestamp
  origin : ∀ e' ∈ entries', e' ∈ entries ∨ e'.time = timestamp

theorem Moved.refl (entries : List TaggedEntry) : Moved timestamp entries entries :=
  ⟨fun _ => .inl, fun _ => .inl⟩

theorem Moved.trans (h : Moved timestamp entries entries')
    (h' : Moved timestamp entries' entries'') : Moved timestamp entries entries'' := by
  refine ⟨fun e he => ?_, fun e he => ?_⟩
  · rcases h.kept e he with he' | ⟨e', he', hflow, htime⟩
    · exact h'.kept e he'
    · rcases h'.kept e' he' with hsame | ⟨e'', he'', hflow', htime'⟩
      · exact .inr ⟨e', hsame, hflow, htime⟩
      · exact .inr ⟨e'', he'', hflow'.trans hflow, htime'⟩
  · rcases h'.origin e he with he' | htime
    · exact h.origin e he'
    · exact .inr htime

namespace BundleState

variable {bs : BundleState} {e : TaggedEntry}

theorem mem_entries_iff_lookup :
    e ∈ bs.entries ↔ (if e.1 then bs.active else bs.dead).lookup e.flow = some e.2.2 := by
  obtain ⟨active, flow, v⟩ := e
  cases active <;> simp [entries, TaggedEntry.flow, AList.mem_lookup_iff.symm]

theorem active_report (bs : BundleState) (info : FlowInfo) :
    (bs.report timestamp info).active = bs.active.insert info.flow (timestamp, info) := by
  unfold report
  split <;> rfl

theorem lookup_dead_report (bs : BundleState) (info : FlowInfo) (flow : FlowMarker) :
    (bs.report timestamp info).dead.lookup flow = bs.dead.lookup flow ∨
      flow = info.flow ∧ (bs.report timestamp info).dead.lookup flow = none := by
  unfold report
  split
  · by_cases hflow : flow = info.flow
    · subst hflow
      exact .inr ⟨rfl, AList.lookup_erase _ _⟩
    · exact .inl (AList.lookup_erase_ne hflow)
  · exact .inl rfl

theorem moved_report (bs : BundleState) (info : FlowInfo) :
    Moved timestamp bs.entries (bs.report timestamp info).entries := by
  have hself : (true, ⟨info.flow, timestamp, info⟩) ∈ (bs.report timestamp info).entries := by
    rw [mem_entries_iff_lookup, if_pos rfl, active_report]
    exact AList.lookup_insert _
  refine ⟨fun e he => ?_, fun e he => ?_⟩
  · by_cases hflow : e.flow = info.flow
    · exact .inr ⟨_, hself, hflow.symm, rfl⟩
    · refine .inl ?_
      rw [mem_entries_iff_lookup] at he ⊢
      split_ifs at he ⊢
      · rw [active_report, AList.lookup_insert_ne hflow, he]
      · rcases bs.lookup_dead_report info e.flow with hsame | ⟨hself, -⟩
        · rw [hsame, he]
        · exact absurd hself hflow
  · rw [mem_entries_iff_lookup] at he ⊢
    split_ifs at he ⊢
    · rw [active_report] at he
      by_cases hflow : e.flow = info.flow
      · rw [hflow, AList.lookup_insert] at he
        exact .inr (congrArg Prod.fst (Option.some.inj he)).symm
      · exact .inl ((AList.lookup_insert_ne hflow).symm.trans he)
    · rcases bs.lookup_dead_report info e.flow with hsame | ⟨-, hnone⟩
      · exact .inl (hsame.symm.trans he)
      · rw [hnone] at he
        cases he

theorem moved_expireFlow (bs : BundleState) (flow : FlowMarker) :
    Moved timestamp bs.entries (bs.expireFlow timestamp flow).entries := by
  unfold expireFlow
  split
  · exact .refl _
  · rename_i time info hactive
    refine ⟨fun e he => ?_, fun e he => ?_⟩
    · by_cases hflow : e.flow = flow
      · refine .inr ⟨(false, ⟨flow, timestamp, info⟩), ?_, hflow.symm, rfl⟩
        rw [mem_entries_iff_lookup, if_neg Bool.false_ne_true]
        exact AList.lookup_insert _
      · refine .inl ?_
        rw [mem_entries_iff_lookup] at he ⊢
        split_ifs at he ⊢
        · exact (AList.lookup_erase_ne hflow).trans he
        · exact (AList.lookup_insert_ne hflow).trans he
    · rw [mem_entries_iff_lookup] at he ⊢
      by_cases hflow : e.flow = flow
      · rw [hflow] at he
        split_ifs at he
        · rw [AList.lookup_erase] at he
          cases he
        · rw [AList.lookup_insert] at he
          exact .inr (congrArg Prod.fst (Option.some.inj he)).symm
      · refine .inl ?_
        split_ifs at he ⊢
        · exact (AList.lookup_erase_ne hflow).symm.trans he
        · exact (AList.lookup_insert_ne hflow).symm.trans he

theorem moved_foldl {ι : Type} {step : BundleState → ι → BundleState}
    (hstep : ∀ bs i, Moved timestamp bs.entries (step bs i).entries) (bs : BundleState)
    (l : List ι) : Moved timestamp bs.entries (l.foldl step bs).entries := by
  induction l generalizing bs with
  | nil => exact .refl _
  | cons i l ih => exact (hstep bs i).trans (ih (step bs i))

/-- What a bundle touches gets its timestamp. -/
theorem moved_update (bs : BundleState) (infos : List FlowInfo) :
    Moved timestamp bs.entries (bs.update window timestamp infos).entries :=
  (moved_foldl moved_report bs infos).trans (moved_foldl moved_expireFlow _ _)

end BundleState

end Moves

/-- The usage in the latest report of the flow, of both classes together. -/
def usageOf (rs : List Report) (flow : FlowMarker) : ℤ :=
  ((latest rs flow).map fun r => r.2.cumHipriUsageBytes + r.2.cumLopriUsageBytes).getD 0

theorem total_fst_add_snd
    (getAggFlowFn : FlowMarker → FlowMarker) (rs : List Report) (agg : FlowMarker) :
    (total getAggFlowFn rs agg).1 + (total getAggFlowFn rs agg).2 =
      ∑ flow ∈ (seen rs).filter fun flow => getAggFlowFn flow = agg, usageOf rs flow := by
  rw [total, Prod.fst_sum, Prod.snd_sum, ← Finset.sum_add_distrib]
  refine Finset.sum_congr rfl fun flow _ => ?_
  rw [usageOf]
  cases latest rs flow <;> rfl

theorem Successive.usageOf_nonneg {rs : List Report} (h : Successive rs) (flow : FlowMarker) :
    0 ≤ usageOf rs flow := by
  rw [usageOf]
  cases hr : latest rs flow with
  | none => exact le_rfl
  | some r =>
    obtain ⟨hhipri, hlopri⟩ := h.nonneg r (mem_of_latest hr).1
    exact add_nonneg hhipri hlopri

namespace AggWip

def cumUsageBytes (wip : AggWip) : ℤ := wip.asUpdate.cumUsageBytes

def timesOf (active : Bool) (entries : List TaggedEntry) : List ℚ :=
  (entries.filter fun e => e.1 == active).map TaggedEntry.time

variable {entries : List TaggedEntry} {active : Bool} {time : ℚ}

theorem mem_timesOf_iff :
    time ∈ timesOf active entries ↔ ∃ e ∈ entries, e.1 = active ∧ e.time = time := by
  simp [timesOf, and_assoc]

theorem min?_concat (times : List ℚ) (time : ℚ) :
    (times ++ [time]).min? = some (times.min?.elim time (min · time)) := by
  cases times with
  | nil => rfl
  | cons first times =>
    rw [List.cons_append, List.min?_cons', List.min?_cons', List.foldl_append]
    rfl

theorem max?_concat (times : List ℚ) (time : ℚ) :
    (times ++ [time]).max? = some (times.max?.elim time (max · time)) := by
  cases times with
  | nil => rfl
  | cons first times =>
    rw [List.cons_append, List.max?_cons', List.max?_cons', List.foldl_append]
    rfl

theorem timesOf_concat (e : TaggedEntry) :
    timesOf active (entries ++ [e]) =
      timesOf active entries ++ if e.1 = active then [e.time] else [] := by
  rw [timesOf, List.filter_append, List.map_append, ← timesOf]
  split_ifs with hkind <;> simp [hkind]

theorem times_foldl_add (entries : List TaggedEntry) :
    (entries.foldl add {}).oldestActiveTime = (timesOf true entries).min? ∧
      (entries.foldl add {}).newestDeadTime = (timesOf false entries).max? := by
  induction entries using List.reverseRecOn with
  | nil => exact ⟨rfl, rfl⟩
  | append_singleton entries e ih =>
    rw [List.foldl_append, List.foldl_cons, List.foldl_nil, add, timesOf_concat, timesOf_concat]
    cases e.1 with
    | true =>
      rw [if_pos rfl, if_pos rfl, if_neg Bool.false_ne_true.symm, List.append_nil, min?_concat,
        ← ih.1]
      exact ⟨rfl, ih.2⟩
    | false =>
      rw [if_neg Bool.false_ne_true, if_neg Bool.false_ne_true, if_pos rfl, List.append_nil,
        max?_concat, ← ih.2]
      exact ⟨ih.1, rfl⟩

theorem time_foldl_add_cases (hne : entries ≠ []) :
    (∃ e ∈ entries, e.1 = true ∧ e.time = (entries.foldl add {}).time ∧
      ∀ e ∈ entries, e.1 = true → (entries.foldl add {}).time ≤ e.time) ∨
    (∀ e ∈ entries, e.1 = false ∧ e.time ≤ (entries.foldl add {}).time) ∧
      ∃ e ∈ entries, e.time = (entries.foldl add {}).time := by
  obtain ⟨hactive, hdead⟩ := times_foldl_add entries
  rw [AggWip.time, hactive, hdead]
  cases hmin : (timesOf true entries).min? with
  | some oldest =>
    obtain ⟨hmem, hle⟩ := List.min?_eq_some_iff.mp hmin
    obtain ⟨e, he, hkind, htime⟩ := mem_timesOf_iff.mp hmem
    exact .inl ⟨e, he, hkind, htime, fun e' he' hkind' =>
      hle _ (mem_timesOf_iff.mpr ⟨e', he', hkind', rfl⟩)⟩
  | none =>
    have hnone : ∀ e ∈ entries, e.1 = false := by
      intro e he
      rw [← Bool.not_eq_true]
      intro hkind
      have hmem := mem_timesOf_iff.mpr ⟨e, he, hkind, rfl⟩
      rw [List.min?_eq_none_iff.mp hmin] at hmem
      cases hmem
    have hmem : ∀ e ∈ entries, e.time ∈ timesOf false entries := fun e he =>
      mem_timesOf_iff.mpr ⟨e, he, hnone e he, rfl⟩
    cases hmax : (timesOf false entries).max? with
    | none =>
      obtain ⟨e, he⟩ := List.exists_mem_of_ne_nil entries hne
      have hmem' := hmem e he
      rw [List.max?_eq_none_iff.mp hmax] at hmem'
      cases hmem'
    | some newest =>
      obtain ⟨hnewest, hle⟩ := List.max?_eq_some_iff.mp hmax
      obtain ⟨e, he, -, htime⟩ := mem_timesOf_iff.mp hnewest
      exact .inr ⟨fun e he => ⟨hnone e he, hle _ (hmem e he)⟩, e, he, htime⟩

theorem time_foldl_add_le (hne : entries ≠ []) :
    (∃ e ∈ entries, (entries.foldl add {}).time ≤ e.time) ∧
      ∀ e ∈ entries, e.1 = true → (entries.foldl add {}).time ≤ e.time := by
  rcases time_foldl_add_cases hne with ⟨e, he, -, htime, hle⟩ | ⟨hdead, e, he, htime⟩
  · exact ⟨⟨e, he, htime.ge⟩, hle⟩
  · exact ⟨⟨e, he, htime.ge⟩, fun e' he' hkind =>
      absurd ((hdead e' he').1.symm.trans hkind) Bool.false_ne_true⟩

theorem le_time_foldl_add (hactive : ∀ e ∈ entries, e.1 = true → time ≤ e.time)
    (hsome : ∃ e ∈ entries, time ≤ e.time) : time ≤ (entries.foldl add {}).time := by
  obtain ⟨e, he, hle⟩ := hsome
  rcases time_foldl_add_cases (List.ne_nil_of_mem he) with ⟨e', he', hkind, htime, -⟩ | ⟨hdead, -⟩
  · exact htime ▸ hactive e' he' hkind
  · exact hle.trans (hdead e he).2

end AggWip

section Times

variable {a a' : FlowAggregator} {now : ℚ}

structure FlowAggregator.Timely (now : ℚ) (a : FlowAggregator) : Prop where
  entries : ∀ e ∈ a.entries, e.time ≤ now
  updated : ∀ agg, ∀ time ∈ (aggStateOf a.aggStates agg).updatedTime,
    (∃ e ∈ a.entries, a.config.getAggFlowFn e.flow = agg ∧ time ≤ e.time) ∧
      ∀ e ∈ a.entries, a.config.getAggFlowFn e.flow = agg → e.1 = true → time ≤ e.time

namespace FlowAggregator

theorem timely_create (demandPredictor : DemandPredictor) (config : FlowAggregatorConfig)
    (now : ℚ) : (create demandPredictor config).Timely now :=
  ⟨by simp [FlowAggregator.entries, create], by
    simp [create, aggStateOf, AggState.create]⟩

theorem Timely.mono {now' : ℚ} (h : a.Timely now) (hle : now ≤ now') : a.Timely now' :=
  ⟨fun e he => (h.entries e he).trans hle, h.updated⟩

theorem moved_entries {timestamp : ℚ} (hlength : a.bundlers.length ≤ a'.bundlers.length)
    (hfresh : ∀ id, a.bundlers.length ≤ id → a.bundleStates id = {})
    (h : ∀ id, Moved timestamp (a.bundleStates id).entries (a'.bundleStates id).entries) :
    Moved timestamp a.entries a'.entries := by
  refine ⟨fun e he => ?_, fun e he => ?_⟩
  · obtain ⟨id, hid, he⟩ := mem_entries_iff.mp he
    rcases (h id).kept e he with he' | ⟨e', he', hflow⟩
    · exact .inl (mem_entries_iff.mpr ⟨id, hid.trans_le hlength, he'⟩)
    · exact .inr ⟨e', mem_entries_iff.mpr ⟨id, hid.trans_le hlength, he'⟩, hflow⟩
  · obtain ⟨id, -, he⟩ := mem_entries_iff.mp he
    rcases (h id).origin e he with he' | htime
    · refine .inl (mem_entries_iff.mpr ⟨id, ?_, he'⟩)
      by_contra hid
      rw [hfresh id (not_lt.mp hid)] at he'
      cases he'
    · exact .inr htime

theorem getBundlerID_frame (a : FlowAggregator) (bundler : FlowMarker) :
    (a.getBundlerID bundler).2.bundleStates = a.bundleStates ∧
      (a.getBundlerID bundler).2.config = a.config ∧
      (a.getBundlerID bundler).2.aggStates = a.aggStates ∧
      a.bundlers.length ≤ (a.getBundlerID bundler).2.bundlers.length := by
  unfold getBundlerID
  split
  · exact ⟨rfl, rfl, rfl, le_rfl⟩
  · exact ⟨rfl, rfl, rfl, by simp⟩

theorem of_call_update {bundle : InfoBundle}
    (hfresh : ∀ id, a.bundlers.length ≤ id → a.bundleStates id = {})
    (hcall : a.call (.update bundle) = some a') :
    Moved bundle.timestamp a.entries a'.entries ∧
      (∀ info ∈ bundle.flowInfos, a.config.isValidChild info.flow = true) ∧
      a'.bundlers = (a.getBundlerID bundle.bundler).2.bundlers ∧ a'.config = a.config ∧
      a'.aggStates = a.aggStates := by
  obtain ⟨hstates, hconfig, haggs, hlength⟩ := a.getBundlerID_frame bundle.bundler
  rw [call, update] at hcall
  split_ifs at hcall with hvalid
  cases hcall
  rw [hconfig] at hvalid
  refine ⟨moved_entries hlength hfresh fun id => ?_, by simpa using hvalid.2, rfl, hconfig, haggs⟩
  dsimp only
  rw [hstates]
  by_cases hid : id = (a.getBundlerID bundle.bundler).1
  · subst hid
    rw [Function.update_self]
    exact BundleState.moved_update _ _
  · rw [Function.update_of_ne hid]
    exact .refl _

/-- A bundle that is not older than the last one keeps the times in order. -/
theorem Timely.update (h : a.Timely now) {bundle : InfoBundle} (hnow : now ≤ bundle.timestamp)
    (hfresh : ∀ id, a.bundlers.length ≤ id → a.bundleStates id = {})
    (hcall : a.call (.update bundle) = some a') : a'.Timely bundle.timestamp := by
  obtain ⟨hmoved, -, -, hconfig, haggs⟩ := of_call_update hfresh hcall
  have hold : ∀ agg, ∀ time ∈ (aggStateOf a.aggStates agg).updatedTime,
      time ≤ bundle.timestamp := by
    intro agg time htime
    obtain ⟨e, he, -, hle⟩ := (h.updated agg time htime).1
    exact hle.trans ((h.entries e he).trans hnow)
  refine ⟨fun e he => ?_, fun agg time htime => ?_⟩
  · rcases hmoved.origin e he with he' | htime
    · exact (h.entries e he').trans hnow
    · exact htime.le
  · rw [haggs] at htime
    rw [hconfig]
    obtain ⟨⟨e, he, hagg, hle⟩, hactive⟩ := h.updated agg time htime
    refine ⟨?_, fun e' he' hagg' hkind => ?_⟩
    · rcases hmoved.kept e he with he' | ⟨e', he', hflow, htime'⟩
      · exact ⟨e, he', hagg, hle⟩
      · exact ⟨e', he', by rw [hflow, hagg], htime' ▸ hold agg time htime⟩
    · rcases hmoved.origin e' he' with he'' | htime'
      · exact hactive e' he'' hagg' hkind
      · exact htime' ▸ hold agg time htime

theorem eq_foldl_of_mem_aggWips {entry : Sigma fun _ : FlowMarker => AggWip}
    (hentry : entry ∈ a.aggWips.entries) :
    entry.2 = (a.entries.filter fun e => a.config.getAggFlowFn e.flow = entry.1).foldl
        AggWip.add {} ∧
      ∃ e ∈ a.entries, a.config.getAggFlowFn e.flow = entry.1 := by
  have hlookup : a.aggWips.lookup entry.1 = some entry.2 := AList.mem_lookup_iff.mpr hentry
  constructor
  · have hfold := @getD_lookup_groupFold _ _ _ _ (fun e : TaggedEntry => a.config.getAggFlowFn e.flow)
      {} AggWip.add ∅ a.entries entry.1
    rw [← aggWips_eq_groupFold, hlookup] at hfold
    simpa using hfold
  · have hmem : entry.1 ∈ a.aggWips := AList.lookup_isSome.mp (by rw [hlookup]; rfl)
    rw [aggWips_eq_groupFold, mem_groupFold] at hmem
    exact hmem.resolve_left (AList.notMem_empty _)

theorem Timely.isOlder_eq_false (h : a.Timely now) {entry : Sigma fun _ : FlowMarker => AggWip}
    (hentry : entry ∈ a.aggWips.entries) :
    (aggStateOf a.aggStates entry.1).isOlder entry.2.asUpdate = false := by
  rw [AggState.isOlder]
  cases htime : (aggStateOf a.aggStates entry.1).updatedTime with
  | none => rfl
  | some time =>
    obtain ⟨⟨e, he, hagg, hle⟩, hactive⟩ := h.updated entry.1 time htime
    refine decide_eq_false (not_lt.mpr ?_)
    rw [AggWip.asUpdate, (eq_foldl_of_mem_aggWips hentry).1]
    refine AggWip.le_time_foldl_add (fun e' he' hkind => ?_) ⟨e, ?_, hle⟩
    · obtain ⟨he', hagg'⟩ := List.mem_filter.mp he'
      exact hactive e' he' (of_decide_eq_true hagg') hkind
    · exact List.mem_filter.mpr ⟨he, decide_eq_true hagg⟩

variable {states : FlowMap AggState}

theorem Timely.recorded (h : a.Timely now)
    (hupdated : AggsUpdated a a.aggWips.entries a.aggStates states)
    {entry : Sigma fun _ : FlowMarker => AggWip} (hentry : entry ∈ a.aggWips.entries) :
    (aggStateOf states entry.1).updatedTime = some entry.2.time ∧
      (aggStateOf states entry.1).cur.cumUsageBytes = entry.2.cumUsageBytes := by
  have holder := h.isOlder_eq_false hentry
  rcases AggState.updateUsage_cases (hupdated.updated entry hentry) with
    ⟨htrue, -⟩ | ⟨-, -, hrecord | hrecord⟩
  · exact absurd (holder.symm.trans htrue) Bool.false_ne_true
  · rw [hrecord]
    exact ⟨rfl, rfl⟩
  · rw [hrecord]
    exact ⟨rfl, rfl⟩

/-- `ForEachAgg` leaves no aggregate with a later time than its sums. -/
theorem Timely.forEachAgg (h : a.Timely now)
    (hupdated : AggsUpdated a a.aggWips.entries a.aggStates states) :
    Timely now { a with aggStates := states } := by
  refine ⟨h.entries, fun agg time htime => ?_⟩
  by_cases hagg : agg ∈ a.aggWips.entries.map Sigma.fst
  · obtain ⟨entry, hentry, rfl⟩ := List.mem_map.mp hagg
    obtain ⟨hwip, e, he, heagg⟩ := eq_foldl_of_mem_aggWips hentry
    have hne : (a.entries.filter fun e => a.config.getAggFlowFn e.flow = entry.1) ≠ [] :=
      List.ne_nil_of_mem (List.mem_filter.mpr ⟨he, decide_eq_true heagg⟩)
    obtain ⟨⟨e', he', hle⟩, hactive⟩ := AggWip.time_foldl_add_le hne
    dsimp only at htime
    rw [(h.recorded hupdated hentry).1] at htime
    obtain rfl := Option.some.inj htime
    rw [← hwip] at hle hactive
    refine ⟨⟨e', List.mem_of_mem_filter he', ?_, hle⟩, fun e he hagg => ?_⟩
    · exact of_decide_eq_true (List.mem_filter.mp he').2
    · exact hactive e (List.mem_filter.mpr ⟨he, decide_eq_true hagg⟩)
  · dsimp only at htime
    rw [hupdated.frame agg hagg] at htime
    exact h.updated agg time htime

/-- `ForEachAgg` reports all sums: the usage of the aggregates is that of the latest reports. -/
theorem Timely.sum_aggOutput {rs : List Report} (h : a.Timely now) (hconserved : Conserved rs a)
    (hreports : Successive rs) (hfits : Fits a.config.getAggFlowFn rs)
    (hupdated : AggsUpdated a a.aggWips.entries a.aggStates states) :
    ((a.aggWips.entries.map (aggOutput states)).map fun out => out.2.parent.cumUsageBytes).sum =
      ∑ flow ∈ seen rs, usageOf rs flow := by
  have houts : (a.aggWips.entries.map (aggOutput states)).map
      (fun out => out.2.parent.cumUsageBytes) = a.aggWips.keys.map fun agg =>
        (total a.config.getAggFlowFn rs agg).1 + (total a.config.getAggFlowFn rs agg).2 := by
    rw [AList.keys, List.keys, List.map_map, List.map_map]
    refine List.map_congr_left fun entry hentry => ?_
    rw [Function.comp_apply, Function.comp_apply,
      ← hconserved.counters_of_mem hreports hfits hentry]
    exact (h.recorded hupdated hentry).2
  have hkeys : a.aggWips.keys.toFinset = (seen rs).image a.config.getAggFlowFn := by
    ext agg
    rw [List.mem_toFinset, ← AList.mem_keys, hconserved.mem_aggWips_iff, Finset.mem_image]
  rw [houts, ← List.sum_toFinset _ a.aggWips.keys_nodup, hkeys]
  simp only [total_fst_add_snd]
  exact Finset.sum_fiberwise_of_maps_to (fun flow => Finset.mem_image_of_mem _) _

end FlowAggregator

end Times

end Flows
end HeypAgents
