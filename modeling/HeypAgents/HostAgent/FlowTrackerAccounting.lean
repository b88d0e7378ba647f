import HeypAgents.Lib.CounterSessions
import HeypAgents.HostAgent.FlowTracker

/-!
# What the flow tracker accounts for

For each key the active state has the usage of the session that goes on, and the done
states have the usages of those that are over.  A state is never dropped, and each has
a number of its own.
-/

namespace HeypAgents

open Flows MapValues CounterSessions Runs

namespace FlowTracker

def openUsage (t : FlowTracker) (key : FlowMarker) : Option ℤ :=
  (t.activeFlows.lookup key).map fun state => state.cur.cumUsageBytes

def closedUsage (t : FlowTracker) (key : FlowMarker) : ℤ :=
  ((t.doneFlows.filter fun state => hostFlowKey state.flow = key).map
    fun state => state.cur.cumUsageBytes).sum

/-- The numbers of the states, those of `ForEachFlow`. -/
def seqnums (t : FlowTracker) : List ℕ := t.flows.map fun state => state.flow.seqnum.toNat

structure Sound (t : FlowTracker) : Prop where
  keyed : ∀ key state, t.activeFlows.lookup key = some state → hostFlowKey state.flow = key
  numbered : t.seqnums.Perm (List.range' 1 t.nextSeqnum.toNat)

/-- No active state was updated later. -/
def Dated (t : FlowTracker) (timestamp : ℚ) : Prop :=
  ∀ key state, t.activeFlows.lookup key = some state →
    ∀ time ∈ state.impl.updatedTime, time ≤ timestamp

section States

variable {t t' : FlowTracker} {flow key : FlowMarker} {state state' : LeafState} {timestamp : ℚ}

theorem perm_seqnums (hflow : state'.flow = state.flow)
    (hperm : (state :: t'.flows).Perm (state' :: t.flows)) : t'.seqnums.Perm t.seqnums := by
  have hmap := hperm.map fun state => state.flow.seqnum.toNat
  rw [List.map_cons, List.map_cons, hflow] at hmap
  exact hmap.cons_inv

theorem lookup_setState (h : key ≠ hostFlowKey flow) :
    (t.setState flow state).activeFlows.lookup key = t.activeFlows.lookup key :=
  AList.lookup_insert_ne h

theorem lookup_retire_of_ne (h : key ≠ hostFlowKey flow) :
    (t.retire flow state).activeFlows.lookup key = t.activeFlows.lookup key :=
  AList.lookup_erase_ne h

theorem Sound.setState (h : t.Sound) (hstate : t.activeFlows.lookup (hostFlowKey flow) = some state)
    (hflow : state'.flow = state.flow) : (t.setState flow state').Sound := by
  refine ⟨fun key found hfound => ?_, ?_⟩
  · by_cases hkey : key = hostFlowKey flow
    · subst hkey
      rw [FlowTracker.setState, AList.lookup_insert] at hfound
      cases hfound
      rw [hflow]
      exact h.keyed _ _ hstate
    · rw [lookup_setState hkey] at hfound
      exact h.keyed _ _ hfound
  · exact (perm_seqnums hflow (perm_flows_setState hstate)).trans h.numbered

theorem Sound.retire (h : t.Sound) (hstate : t.activeFlows.lookup (hostFlowKey flow) = some state)
    (hflow : state'.flow = state.flow) : (t.retire flow state').Sound := by
  refine ⟨fun key found hfound => ?_, ?_⟩
  · by_cases hkey : key = hostFlowKey flow
    · subst hkey
      rw [lookup_retire] at hfound
      cases hfound
    · rw [lookup_retire_of_ne hkey] at hfound
      exact h.keyed _ _ hfound
  · exact (perm_seqnums hflow (perm_flows_retire hstate)).trans h.numbered

theorem length_flows (h : t.Sound) : t.flows.length = t.nextSeqnum.toNat := by
  have hlength := h.numbered.length_eq
  rwa [seqnums, List.length_map, List.length_range'] at hlength

structure Found (t : FlowTracker) (flow : FlowMarker) (t₁ : FlowTracker) (state : LeafState) :
    Prop where
  sound : t₁.Sound
  lookup : t₁.activeFlows.lookup (hostFlowKey flow) = some state
  others : ∀ key, key ≠ hostFlowKey flow → t₁.activeFlows.lookup key = t.activeFlows.lookup key
  done : t₁.doneFlows = t.doneFlows
  usage : state.cur.cumUsageBytes = (t.openUsage (hostFlowKey flow)).getD 0
  dated : ∀ timestamp, t.Dated timestamp → t₁.Dated timestamp

theorem Sound.emplace {t₁ : FlowTracker} (h : t.Sound)
    (hnone : t.activeFlows.lookup (hostFlowKey flow) = none)
    (hemplace : t.emplace flow = some (t₁, state)) : t.Found flow t₁ state := by
  unfold FlowTracker.emplace at hemplace
  split_ifs at hemplace with hmemory
  obtain ⟨rfl, rfl⟩ := Prod.mk.inj (Option.some.inj hemplace)
  rw [length_flows h] at hmemory
  have hnext : (t.nextSeqnum + 1).toNat = t.nextSeqnum.toNat + 1 := by
    rw [UInt64.toNat_add, Nat.mod_eq_of_lt]
    · rfl
    · exact hmemory
  have hothers : ∀ key, key ≠ hostFlowKey flow →
      (t.setState flow (createLeafState flow (t.nextSeqnum + 1))).activeFlows.lookup key =
        t.activeFlows.lookup key := fun key hkey => lookup_setState hkey
  have hself : (t.setState flow (createLeafState flow (t.nextSeqnum + 1))).activeFlows.lookup
      (hostFlowKey flow) = some (createLeafState flow (t.nextSeqnum + 1)) := AList.lookup_insert _
  refine ⟨⟨fun key found hfound => ?_, ?_⟩, hself, hothers, rfl, ?_,
    fun timestamp hdated key found hfound => ?_⟩
  · by_cases hkey : key = hostFlowKey flow
    · subst hkey
      obtain rfl := Option.some.inj (hself.symm.trans hfound)
      rfl
    · exact h.keyed _ _ ((hothers key hkey).symm.trans hfound)
  · have hflows : seqnums { t.setState flow (createLeafState flow (t.nextSeqnum + 1)) with
        nextSeqnum := t.nextSeqnum + 1 } = (t.nextSeqnum + 1).toNat :: t.seqnums := by
      rw [seqnums, seqnums, flows, flows, FlowTracker.setState, values_insert,
        values_erase_of_none hnone]
      rfl
    rw [hflows, hnext, List.range'_1_concat, Nat.add_comm 1]
    exact (h.numbered.cons _).trans (List.perm_append_singleton _ _).symm
  · rw [openUsage, hnone]
    rfl
  · by_cases hkey : key = hostFlowKey flow
    · subst hkey
      obtain rfl := Option.some.inj (hself.symm.trans hfound)
      exact fun time htime => absurd htime (by simp [createLeafState, LeafState.create,
        AggState.create])
    · exact hdated _ _ ((hothers key hkey).symm.trans hfound)

theorem Sound.getOrEmplace {t₁ : FlowTracker} (h : t.Sound)
    (hget : t.getOrEmplace flow = some (t₁, state)) : t.Found flow t₁ state := by
  unfold FlowTracker.getOrEmplace at hget
  split at hget
  · rename_i found hfound
    cases hget
    refine ⟨h, hfound, fun _ _ => rfl, rfl, ?_, fun _ hdated => hdated⟩
    rw [openUsage, hfound]
    rfl
  · rename_i hnone
    exact h.emplace hnone hget

theorem Sound.updateStep {u : Update} {advances : Bool} (h : t.Sound)
    (hstep : t.updateStep timestamp u = some (t', advances)) : t'.Sound := by
  obtain ⟨t₁, state, hget, hcase⟩ := updateStep_eq_some_iff.mp hstep
  have hfound := h.getOrEmplace hget
  rcases hcase with ⟨-, -, rfl⟩ | ⟨-, -, -, state', hstate', rfl⟩
  · exact hfound.sound.retire hfound.lookup rfl
  · exact hfound.sound.setState hfound.lookup (LeafState.of_updateUsage hstate').1

theorem Sound.absorb {u : Update} (h : t.Sound) (habsorb : t.absorb timestamp u = some t') :
    t'.Sound := by
  rcases absorb_eq_some_iff.mp habsorb with hstep | ⟨t₁, hstep, hstep'⟩
  · exact h.updateStep hstep
  · exact (h.updateStep hstep).updateStep hstep'

theorem Sound.finalizeFlow {u : Update} (h : t.Sound)
    (hfinalize : t.finalizeFlow timestamp u = some t') : t'.Sound := by
  obtain ⟨t₁, state, hget, state', hstate', rfl⟩ := finalizeFlow_eq_some_iff.mp hfinalize
  have hfound := h.getOrEmplace hget
  exact hfound.sound.retire hfound.lookup (LeafState.of_updateUsage hstate').1

theorem Sound.nodup_seqnums (h : t.Sound) : t.seqnums.Nodup :=
  h.numbered.nodup_iff.mpr (List.nodup_range' 1)

theorem Sound.eq_of_seqnum (h : t.Sound) (hstate : state ∈ t.flows) (hstate' : state' ∈ t.flows)
    (hseqnum : state.flow.seqnum = state'.flow.seqnum) : state = state' :=
  List.inj_on_of_nodup_map h.nodup_seqnums hstate hstate' (congrArg UInt64.toNat hseqnum)

end States

section Effects

variable {t t' t₁ : FlowTracker} {flow : FlowMarker} {state state' : LeafState} {u : Update}
  {timestamp : ℚ}

structure Effect (t : FlowTracker) (timestamp : ℚ) (flow : FlowMarker) (t' : FlowTracker)
    (openUsage : Option ℤ) (newlyClosed : ℤ) : Prop where
  sound : t'.Sound
  dated : t'.Dated timestamp
  openUsage : t'.openUsage (hostFlowKey flow) = openUsage
  closedUsage : t'.closedUsage (hostFlowKey flow) = t.closedUsage (hostFlowKey flow) + newlyClosed
  others : ∀ key, key ≠ hostFlowKey flow →
    t'.openUsage key = t.openUsage key ∧ t'.closedUsage key = t.closedUsage key

theorem Found.updateState (h : t.Found flow t₁ state) (hdated : t.Dated timestamp)
    {isLopri : Bool} (hupdate : t₁.updateState timestamp state u isLopri = some state') :
    state'.flow = state.flow ∧ state'.impl.updatedTime = some timestamp ∧
      state'.cur.cumUsageBytes = max ((t.openUsage (hostFlowKey flow)).getD 0) u.cumUsageBytes := by
  obtain ⟨found, hfound, hflow, hcase⟩ := state.exists_updateUsage
    (t₁.leafUpdate timestamp u isLopri) t₁.config.usageHistoryWindow t₁.demandPredictor
  obtain rfl : found = state' := Option.some.inj (hfound.symm.trans hupdate)
  have holder : state.impl.isOlder (state.asAggUpdate (t₁.leafUpdate timestamp u isLopri)) =
      false := by
    rw [AggState.isOlder]
    cases htime : state.impl.updatedTime with
    | none => rfl
    | some time =>
      have hle := h.dated timestamp hdated _ _ h.lookup time htime
      exact decide_eq_false (not_lt.mpr hle)
  rw [holder, if_neg Bool.false_ne_true, h.usage] at hcase
  exact ⟨hflow, hcase.1, hcase.2⟩

theorem Found.effect_setState (h : t.Found flow t₁ state) (hdated : t.Dated timestamp)
    {isLopri : Bool} (hupdate : t₁.updateState timestamp state u isLopri = some state') :
    t.Effect timestamp flow (t₁.setState flow state')
      (some (max ((t.openUsage (hostFlowKey flow)).getD 0) u.cumUsageBytes)) 0 := by
  obtain ⟨hflow, htime, husage⟩ := h.updateState hdated hupdate
  have hself : (t₁.setState flow state').activeFlows.lookup (hostFlowKey flow) = some state' :=
    AList.lookup_insert _
  have hclosed : ∀ key, (t₁.setState flow state').closedUsage key = t.closedUsage key := by
    intro key
    rw [FlowTracker.closedUsage, FlowTracker.setState, h.done, ← FlowTracker.closedUsage]
  refine ⟨h.sound.setState h.lookup hflow, fun key found hfound => ?_, ?_, ?_,
    fun key hkey => ⟨?_, hclosed key⟩⟩
  · by_cases hkey : key = hostFlowKey flow
    · subst hkey
      obtain rfl := Option.some.inj (hself.symm.trans hfound)
      rw [htime]
      exact fun time heq => (Option.some.inj heq).ge
    · rw [lookup_setState hkey] at hfound
      exact h.dated timestamp hdated _ _ hfound
  · rw [FlowTracker.openUsage, hself, Option.map_some, husage]
  · rw [hclosed, add_zero]
  · rw [FlowTracker.openUsage, lookup_setState hkey, h.others key hkey, FlowTracker.openUsage]

theorem Found.effect_retire (h : t.Found flow t₁ state) (hdated : t.Dated timestamp)
    (hflow : state'.flow = state.flow) :
    t.Effect timestamp flow (t₁.retire flow state') none state'.cur.cumUsageBytes := by
  have hkeyed : hostFlowKey state'.flow = hostFlowKey flow := by
    rw [hflow]
    exact h.sound.keyed _ _ h.lookup
  have hclosed : ∀ key, (t₁.retire flow state').closedUsage key =
      t.closedUsage key + if hostFlowKey flow = key then state'.cur.cumUsageBytes else 0 := by
    intro key
    simp only [FlowTracker.closedUsage, FlowTracker.retire, h.done, List.filter_append,
      List.map_append, List.sum_append, List.filter_singleton, hkeyed]
    split_ifs <;> simp_all
  refine ⟨h.sound.retire h.lookup hflow, fun key found hfound => ?_, ?_, ?_,
    fun key hkey => ⟨?_, ?_⟩⟩
  · by_cases hkey : key = hostFlowKey flow
    · subst hkey
      rw [lookup_retire] at hfound
      cases hfound
    · rw [lookup_retire_of_ne hkey] at hfound
      exact h.dated timestamp hdated _ _ hfound
  · rw [FlowTracker.openUsage, lookup_retire]
    rfl
  · rw [hclosed, if_pos rfl]
  · rw [FlowTracker.openUsage, lookup_retire_of_ne hkey, h.others key hkey, FlowTracker.openUsage]
  · rw [hclosed, if_neg (Ne.symm hkey), add_zero]

/-- What an update does to a session that goes on or to a new one. -/
theorem Sound.effect_absorb (h : t.Sound) (hdated : t.Dated timestamp)
    (hnonneg : 0 ≤ u.cumUsageBytes) (habsorb : t.absorb timestamp u = some t') :
    t.Effect timestamp u.flow t' (some u.cumUsageBytes)
      (if u.cumUsageBytes < (t.openUsage (hostFlowKey u.flow)).getD 0 then
        (t.openUsage (hostFlowKey u.flow)).getD 0 else 0) := by
  rcases absorb_eq_some_iff.mp habsorb with hstep | ⟨t₁, hstep, hstep'⟩
  · obtain ⟨t₀, state, hget, ⟨-, hfalse, -⟩ | ⟨hle, -, -, state', hstate', rfl⟩⟩ :=
      updateStep_eq_some_iff.mp hstep
    · cases hfalse
    · have hfound := h.getOrEmplace hget
      have heffect := hfound.effect_setState hdated hstate'
      rw [hfound.usage] at hle
      rw [max_eq_right hle] at heffect
      rwa [if_neg (not_lt.mpr hle)]
  · obtain ⟨t₀, state, hget, ⟨hlt, -, rfl⟩ | ⟨-, hfalse, -⟩⟩ := updateStep_eq_some_iff.mp hstep
    · have hfound := h.getOrEmplace hget
      have hretired := hfound.effect_retire hdated rfl
      rw [hfound.usage] at hlt hretired
      obtain ⟨t₂, state', hget', ⟨-, hfalse, -⟩ | ⟨hle, -, -, state'', hstate', rfl⟩⟩ :=
        updateStep_eq_some_iff.mp hstep'
      · cases hfalse
      · have heffect := (hretired.sound.getOrEmplace hget').effect_setState hretired.dated hstate'
        rw [hretired.openUsage, Option.getD_none, max_eq_right hnonneg] at heffect
        rw [if_pos hlt]
        refine ⟨heffect.sound, heffect.dated, heffect.openUsage, ?_, fun key hkey => ?_⟩
        · rw [heffect.closedUsage, hretired.closedUsage, add_zero]
        · obtain ⟨hopen, hclosed⟩ := heffect.others key hkey
          obtain ⟨hopen', hclosed'⟩ := hretired.others key hkey
          exact ⟨hopen.trans hopen', hclosed.trans hclosed'⟩
    · cases hfalse

/-- What the last update of a session does. -/
theorem Sound.effect_finalizeFlow (h : t.Sound) (hdated : t.Dated timestamp)
    (hfinalize : t.finalizeFlow timestamp u = some t') {time : ℚ} (htime : t.Dated time) :
    t.Effect time u.flow t' none
      (max ((t.openUsage (hostFlowKey u.flow)).getD 0) u.cumUsageBytes) := by
  obtain ⟨t₁, state, hget, state', hstate', rfl⟩ := finalizeFlow_eq_some_iff.mp hfinalize
  have hfound := h.getOrEmplace hget
  obtain ⟨hflow, -, husage⟩ := hfound.updateState hdated hstate'
  rw [← husage]
  exact hfound.effect_retire htime hflow

/-- What the updates of a batch do if it has no flow twice. -/
theorem Sound.foldlM_absorb (h : t.Sound) (hdated : t.Dated timestamp) {batch : List Update}
    (hnonneg : ∀ u ∈ batch, 0 ≤ u.cumUsageBytes)
    (hnodup : (batch.map fun u => hostFlowKey u.flow).Nodup)
    (hrun : batch.foldlM (FlowTracker.absorb timestamp) t = some t') :
    t'.Sound ∧ t'.Dated timestamp ∧
      (∀ u ∈ batch, t'.openUsage (hostFlowKey u.flow) = some u.cumUsageBytes ∧
        t'.closedUsage (hostFlowKey u.flow) = t.closedUsage (hostFlowKey u.flow) +
          if u.cumUsageBytes < (t.openUsage (hostFlowKey u.flow)).getD 0 then
            (t.openUsage (hostFlowKey u.flow)).getD 0 else 0) ∧
      ∀ key, (∀ u ∈ batch, key ≠ hostFlowKey u.flow) →
        t'.openUsage key = t.openUsage key ∧ t'.closedUsage key = t.closedUsage key := by
  induction batch generalizing t with
  | nil =>
    cases hrun
    exact ⟨h, hdated, by simp, fun _ _ => ⟨rfl, rfl⟩⟩
  | cons u batch ih =>
    rw [List.foldlM_cons, Option.bind_eq_bind, Option.bind_eq_some_iff] at hrun
    obtain ⟨t₁, hfirst, hrest⟩ := hrun
    rw [List.forall_mem_cons] at hnonneg
    rw [List.map_cons, List.nodup_cons] at hnodup
    have hother : ∀ v ∈ batch, hostFlowKey u.flow ≠ hostFlowKey v.flow :=
      fun v hv heq => hnodup.1 (List.mem_map.mpr ⟨v, hv, heq.symm⟩)
    have heffect := h.effect_absorb hdated hnonneg.1 hfirst
    obtain ⟨hsound, hdated', hbatch, hothers⟩ :=
      ih heffect.sound heffect.dated hnonneg.2 hnodup.2 hrest
    refine ⟨hsound, hdated', List.forall_mem_cons.mpr ⟨?_, fun v hv => ?_⟩, fun key hkey => ?_⟩
    · obtain ⟨hopen, hclosed⟩ := hothers _ hother
      rw [hopen, hclosed]
      exact ⟨heffect.openUsage, heffect.closedUsage⟩
    · obtain ⟨hopen, hclosed⟩ := heffect.others _ (hother v hv).symm
      rw [← hopen, ← hclosed]
      exact hbatch v hv
    · obtain ⟨hfirstKey, hrestKeys⟩ := List.forall_mem_cons.mp hkey
      obtain ⟨hopen, hclosed⟩ := hothers key hrestKeys
      obtain ⟨hopen', hclosed'⟩ := heffect.others key hfirstKey
      exact ⟨hopen.trans hopen', hclosed.trans hclosed'⟩

end Effects

section Books

/-- The reports of all keys, in order. -/
abbrev History := List (FlowMarker × Report ℤ)

/-- The sessions of a key. -/
def sessionsOf (history : History) (key : FlowMarker) : Sessions ℤ :=
  sessions ((history.filter fun r => r.1 = key).map Prod.snd)

theorem sessionsOf_concat_self (history : History) (key : FlowMarker) (r : Report ℤ) :
    sessionsOf (history ++ [(key, r)]) key = (sessionsOf history key).report r := by
  simp [sessionsOf, sessions]

theorem sessionsOf_concat_of_ne (history : History) {key key' : FlowMarker} (h : key' ≠ key)
    (r : Report ℤ) : sessionsOf (history ++ [(key, r)]) key' = sessionsOf history key' := by
  simp [sessionsOf, Ne.symm h]

structure Books (t : FlowTracker) (history : History) : Prop where
  sound : t.Sound
  opened : ∀ key, t.openUsage key =
    if (sessionsOf history key).current = [] then none
    else some (largest (sessionsOf history key).current)
  closed : ∀ key, t.closedUsage key = (sessionsOf history key).counted

variable {t t' : FlowTracker} {history : History} {u : Update} {timestamp : ℚ}

theorem Books.getD_openUsage (h : t.Books history) (key : FlowMarker) :
    (t.openUsage key).getD 0 = largest (sessionsOf history key).current := by
  rw [h.opened]
  split_ifs with hnil
  · rw [hnil]
    rfl
  · rfl

theorem Effect.books {flow : FlowMarker} {openUsage : Option ℤ} {newlyClosed : ℤ} {r : Report ℤ}
    (heffect : t.Effect timestamp flow t' openUsage newlyClosed) (h : t.Books history)
    (hopen : openUsage = if ((sessionsOf history (hostFlowKey flow)).report r).current = [] then
      none else some (largest ((sessionsOf history (hostFlowKey flow)).report r).current))
    (hclosed : ((sessionsOf history (hostFlowKey flow)).report r).counted =
      (sessionsOf history (hostFlowKey flow)).counted + newlyClosed) :
    t'.Books (history ++ [(hostFlowKey flow, r)]) := by
  refine ⟨heffect.sound, fun key => ?_, fun key => ?_⟩
  · by_cases hkey : key = hostFlowKey flow
    · subst hkey
      rw [heffect.openUsage, sessionsOf_concat_self, hopen]
    · rw [(heffect.others key hkey).1, sessionsOf_concat_of_ne _ hkey, h.opened]
  · by_cases hkey : key = hostFlowKey flow
    · subst hkey
      rw [heffect.closedUsage, sessionsOf_concat_self, hclosed, h.closed]
    · rw [(heffect.others key hkey).2, sessionsOf_concat_of_ne _ hkey, h.closed]

theorem Books.absorb (h : t.Books history) (hdated : t.Dated timestamp)
    (hnonneg : 0 ≤ u.cumUsageBytes) (habsorb : t.absorb timestamp u = some t') :
    t'.Books (history ++ [(hostFlowKey u.flow, .update u.cumUsageBytes)]) ∧ t'.Dated timestamp := by
  have heffect := h.sound.effect_absorb hdated hnonneg habsorb
  rw [h.getD_openUsage] at heffect
  refine ⟨heffect.books h ?_ ?_, heffect.dated⟩
  · by_cases hlt : u.cumUsageBytes < largest (sessionsOf history (hostFlowKey u.flow)).current
    · rw [(counted_report_of_lt hlt).2, if_neg (List.cons_ne_nil _ _)]
      simp [largest, hnonneg]
    · rw [(counted_report_of_le (not_lt.mp hlt)).2, if_neg (by simp), largest_concat,
        max_eq_right (not_lt.mp hlt)]
  · split_ifs with hlt
    · exact (counted_report_of_lt hlt).1
    · rw [(counted_report_of_le (not_lt.mp hlt)).1, add_zero]

theorem Books.finalizeFlow (h : t.Books history) (hdated : t.Dated timestamp)
    (hfinalize : t.finalizeFlow timestamp u = some t') :
    t'.Books (history ++ [(hostFlowKey u.flow, .finish u.cumUsageBytes)]) ∧ t'.Dated timestamp := by
  have heffect := h.sound.effect_finalizeFlow hdated hfinalize hdated
  rw [h.getD_openUsage] at heffect
  refine ⟨heffect.books h ?_ counted_report_finish.1, heffect.dated⟩
  rw [counted_report_finish.2, if_pos rfl]

end Books

section Calls

inductive Call where
  | updateFlows (timestamp : ℚ) (batch : List Update)
  | finalizeFlows (timestamp : ℚ) (batch : List Update)

namespace Call

def timestamp : Call → ℚ
  | .updateFlows timestamp _ => timestamp
  | .finalizeFlows timestamp _ => timestamp

def batch : Call → List Update
  | .updateFlows _ batch => batch
  | .finalizeFlows _ batch => batch

def report : Call → Update → Report ℤ
  | .updateFlows _ _, u => .update u.cumUsageBytes
  | .finalizeFlows _ _, u => .finish u.cumUsageBytes

def reports (c : Call) : History := c.batch.map fun u => (hostFlowKey u.flow, c.report u)

def step : Call → FlowTracker → Update → Option FlowTracker
  | .updateFlows timestamp _ => absorb timestamp
  | .finalizeFlows timestamp _ => finalizeFlow timestamp

/-- The counters are not negative, and `UpdateFlows` gets the priorities. -/
def Valid : Call → Prop
  | .updateFlows _ batch => ∀ u ∈ batch, 0 ≤ u.cumUsageBytes ∧ u.usedPriority ≠ .unset
  | .finalizeFlows _ batch => ∀ u ∈ batch, 0 ≤ u.cumUsageBytes

theorem Valid.nonneg {c : Call} (h : c.Valid) : ∀ u ∈ c.batch, 0 ≤ u.cumUsageBytes := by
  cases c with
  | updateFlows timestamp batch => exact fun u hu => (h u hu).1
  | finalizeFlows timestamp batch => exact h

end Call

/-- A call, whatever its timestamp. -/
def call (t : FlowTracker) : Call → Option FlowTracker
  | .updateFlows timestamp batch => t.updateFlows timestamp batch
  | .finalizeFlows timestamp batch => t.finalizeFlows timestamp batch

variable {t t' : FlowTracker} {history : History} {c : Call}

theorem call_eq_some_iff : t.call c = some t' ↔ c.batch.foldlM c.step t = some t' := by
  cases c with
  | updateFlows timestamp batch => exact updateFlows_eq_some_iff
  | finalizeFlows timestamp batch => exact Iff.rfl

/-- A call keeps the tracker sound, whatever its timestamp. -/
theorem Sound.call (h : t.Sound) (hcall : t.call c = some t') : t'.Sound := by
  have hfold : ∀ batch : List Update, ∀ t : FlowTracker, t.Sound →
      batch.foldlM c.step t = some t' → t'.Sound := by
    intro batch
    induction batch with
    | nil =>
      intro t h hrun
      cases hrun
      exact h
    | cons u batch ih =>
      intro t h hrun
      rw [List.foldlM_cons, Option.bind_eq_bind, Option.bind_eq_some_iff] at hrun
      obtain ⟨t₁, hstep, hrest⟩ := hrun
      refine ih t₁ ?_ hrest
      cases c with
      | updateFlows timestamp _ => exact h.absorb hstep
      | finalizeFlows timestamp _ => exact h.finalizeFlow hstep
  exact hfold c.batch t h (call_eq_some_iff.mp hcall)

theorem evolves_call (hcall : t.call c = some t') : Evolves (fun _ => True) t t' := by
  cases c with
  | updateFlows timestamp batch => exact evolves_updateFlows (fun _ _ _ => trivial) hcall
  | finalizeFlows timestamp batch => exact evolves_finalizeFlows (fun _ _ _ => trivial) hcall

/-- An update of a call is entered into the books. -/
theorem Books.step {u : Update} (h : t.Books history) (hdated : t.Dated c.timestamp)
    (hnonneg : 0 ≤ u.cumUsageBytes) (hstep : c.step t u = some t') :
    t'.Books (history ++ [(hostFlowKey u.flow, c.report u)]) ∧ t'.Dated c.timestamp ∧
      t'.flows.length ≤ t.flows.length + 1 := by
  cases c with
  | updateFlows timestamp batch =>
    obtain ⟨hbooks, hdated'⟩ := h.absorb hdated hnonneg hstep
    exact ⟨hbooks, hdated', length_absorb_le hnonneg hstep⟩
  | finalizeFlows timestamp batch =>
    obtain ⟨hbooks, hdated'⟩ := h.finalizeFlow hdated hstep
    exact ⟨hbooks, hdated', length_finalizeFlow_le hstep⟩

theorem Books.foldlM {batch : List Update} (h : t.Books history) (hdated : t.Dated c.timestamp)
    (hnonneg : ∀ u ∈ batch, 0 ≤ u.cumUsageBytes) (hrun : batch.foldlM c.step t = some t') :
    t'.Books (history ++ batch.map fun u => (hostFlowKey u.flow, c.report u)) ∧
      t'.Dated c.timestamp ∧ t'.flows.length ≤ t.flows.length + batch.length := by
  induction batch generalizing t history with
  | nil =>
    cases hrun
    simpa using ⟨h, hdated⟩
  | cons u batch ih =>
    rw [List.foldlM_cons, Option.bind_eq_bind, Option.bind_eq_some_iff] at hrun
    obtain ⟨t₁, hstep, hrest⟩ := hrun
    rw [List.forall_mem_cons] at hnonneg
    obtain ⟨hbooks, hdated₁, hlength⟩ := h.step hdated hnonneg.1 hstep
    obtain ⟨hbooks', hdated', hlength'⟩ := ih hbooks hdated₁ hnonneg.2 hrest
    rw [List.append_assoc] at hbooks'
    refine ⟨hbooks', hdated', ?_⟩
    rw [List.length_cons]
    omega

theorem exists_call (hvalid : c.Valid) (hmemory : t.flows.length + c.batch.length < 2 ^ 64) :
    ∃ t', t.call c = some t' := by
  cases c with
  | updateFlows timestamp batch => exact exists_updateFlows timestamp hvalid hmemory
  | finalizeFlows timestamp batch => exact exists_finalizeFlows timestamp hmemory

theorem Dated.mono {timestamp timestamp' : ℚ} (h : t.Dated timestamp)
    (hle : timestamp ≤ timestamp') : t.Dated timestamp' :=
  fun key state hstate time htime => (h key state hstate time htime).trans hle

/-- A run of calls with timestamps that do not decrease is entered into the books. -/
theorem Books.exec {calls : List Call} (h : t.Books history)
    (hdated : ∀ c ∈ calls, t.Dated c.timestamp) (hvalid : ∀ c ∈ calls, c.Valid)
    (htimes : (calls.map Call.timestamp).Pairwise (· ≤ ·)) :
    (t.flows.length + (calls.map fun c => c.batch.length).sum < 2 ^ 64 →
      ∃ t', exec FlowTracker.call t calls = some t') ∧
    ∀ t', exec FlowTracker.call t calls = some t' →
      t'.Books (history ++ calls.flatMap Call.reports) := by
  induction calls generalizing t history with
  | nil =>
    refine ⟨fun _ => ⟨t, rfl⟩, fun t' hrun => ?_⟩
    cases hrun
    simpa using h
  | cons c calls ih =>
    rw [List.forall_mem_cons] at hdated hvalid
    rw [List.map_cons, List.pairwise_cons, List.forall_mem_map] at htimes
    have hstep : ∀ t₁, t.call c = some t₁ →
        t₁.Books (history ++ c.reports) ∧ (∀ c' ∈ calls, t₁.Dated c'.timestamp) ∧
          t₁.flows.length ≤ t.flows.length + c.batch.length := by
      intro t₁ hcall
      obtain ⟨hbooks, hdated₁, hlength⟩ :=
        h.foldlM hdated.1 hvalid.1.nonneg (call_eq_some_iff.mp hcall)
      exact ⟨hbooks, fun c' hc' => hdated₁.mono (htimes.1 c' hc'), hlength⟩
    rw [List.map_cons, List.sum_cons, List.flatMap_cons]
    refine ⟨fun hmemory => ?_, fun t' hrun => ?_⟩
    · obtain ⟨t₁, hcall⟩ := exists_call hvalid.1 (by omega : t.flows.length + _ < 2 ^ 64)
      obtain ⟨hbooks, hdated₁, hlength⟩ := hstep t₁ hcall
      obtain ⟨t', hrun⟩ := (ih hbooks hdated₁ hvalid.2 htimes.2).1 (by omega)
      exact ⟨t', exec_cons_eq_some.mpr ⟨t₁, hcall, hrun⟩⟩
    · obtain ⟨t₁, hcall, hrun⟩ := exec_cons_eq_some.mp hrun
      obtain ⟨hbooks, hdated₁, -⟩ := hstep t₁ hcall
      rw [← List.append_assoc]
      exact (ih hbooks hdated₁ hvalid.2 htimes.2).2 t' hrun

theorem books_create (demandPredictor : DemandPredictor) (config : Config) :
    (create demandPredictor config).Books [] := by
  refine ⟨⟨fun key state hstate => ?_, List.Perm.refl _⟩, fun key => rfl, fun key => rfl⟩
  simp [create] at hstate

/-- The states of a key, active and done. -/
def statesOf (t : FlowTracker) (key : FlowMarker) : List LeafState :=
  t.flows.filter fun state => hostFlowKey state.flow = key

theorem Sound.usage_statesOf (h : t.Sound) (key : FlowMarker) :
    ((t.statesOf key).map fun state => state.cur.cumUsageBytes).sum =
      (t.openUsage key).getD 0 + t.closedUsage key := by
  rw [statesOf, flows, List.filter_append, filter_values h.keyed, List.map_append,
    List.sum_append, ← closedUsage, openUsage]
  cases t.activeFlows.lookup key <;> simp

/--
Along every run, no two states have the same number, a key has at most one active state, and
the usage of its states is what was counted in its sessions. The run goes on as long as
there is memory for the states.
-/
theorem run_accountsSessions
    (demandPredictor : DemandPredictor) (config : Config) (calls : List Call)
    (hvalid : ∀ c ∈ calls, c.Valid) (htimes : (calls.map Call.timestamp).Pairwise (· ≤ ·)) :
    ((calls.map fun c => c.batch.length).sum < 2 ^ 64 →
      ∃ t, exec call (create demandPredictor config) calls = some t) ∧
    ∀ t, exec call (create demandPredictor config) calls = some t →
      t.seqnums.Perm (List.range' 1 t.nextSeqnum.toNat) ∧
      (∀ key, ((values t.activeFlows).filter fun state =>
        hostFlowKey state.flow = key).length ≤ 1) ∧
      ∀ key, ((t.statesOf key).map fun state => state.cur.cumUsageBytes).sum =
        (sessionsOf (calls.flatMap Call.reports) key).total := by
  have hdated : ∀ c ∈ calls, (create demandPredictor config).Dated c.timestamp := by
    intro c _ key state hstate
    simp [create] at hstate
  obtain ⟨hexists, hbooks⟩ := (books_create demandPredictor config).exec hdated hvalid htimes
  refine ⟨fun hmemory => hexists ?_, fun t hrun => ?_⟩
  · have hempty : (create demandPredictor config).flows = [] := rfl
    rwa [hempty, List.length_nil, Nat.zero_add]
  · have h := hbooks t hrun
    rw [List.nil_append] at h
    refine ⟨h.sound.numbered, fun key => ?_, fun key => ?_⟩
    · rw [filter_values h.sound.keyed]
      cases t.activeFlows.lookup key <;> simp
    · rw [h.sound.usage_statesOf, h.getD_openUsage, h.closed, Sessions.total, add_comm]

def restartedCounter : List Call :=
  [.updateFlows 0 [{ flow := { srcPort := 80 }, cumUsageBytes := 100, usedPriority := .hi }],
    .updateFlows 1 [{ flow := { srcPort := 80 }, cumUsageBytes := 40, usedPriority := .lo }],
    .finalizeFlows 2 [{ flow := { srcPort := 80 }, cumUsageBytes := 60 }]]

theorem run_accountsSessions_restartedCounter :
    ∃ t, exec call (create (fun _ _ => 0) {}) restartedCounter = some t ∧
      ((t.statesOf { srcPort := 80 }).map fun state => state.cur.cumUsageBytes).sum = 160 := by
  obtain ⟨hexists, haccounts⟩ := run_accountsSessions (fun _ _ => 0) {} restartedCounter
    (by simp [restartedCounter, Call.Valid]) (by simp [restartedCounter, Call.timestamp])
  obtain ⟨t, hrun⟩ := hexists (by simp [restartedCounter, Call.batch])
  refine ⟨t, hrun, ((haccounts t hrun).2.2 _).trans ?_⟩
  rfl

end Calls

end FlowTracker
end HeypAgents
