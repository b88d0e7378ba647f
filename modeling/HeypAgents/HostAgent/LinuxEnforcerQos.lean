import HeypAgents.HostAgent.IptablesFindDscp
import HeypAgents.HostAgent.LinuxEnforcerCalls

/-!
# The QoS in force

The class that the cluster agent looks up in a bundle against the DSCP in the
settings of the host that has enforced the bundle.

Allocations of one flow group that differ only in the job share a record on the
host, where the last one decides; the lookup takes the first one.
-/

namespace HeypAgents
namespace LinuxEnforcer

open Iptables Runs IdSlots QosEncoding

section Slots

def Slot.Created (slot : Slot) : Prop :=
  (slot.1.didCreateClass = true ∨ slot.2 = true) ∧ slot.1.classId ≠ none

/--
Without a class the limit is not positive. A late update may have taken an id
without creating the class, but not for HIPRI.
-/
def Slot.Sound (q : Qos) (slot : Slot) : Prop :=
  slot.Created ∨
    slot.1.didCreateClass = false ∧ slot.2 = false ∧ slot.1.curRateLimitBps ≤ 0 ∧
      (q = .hipri → slot.1.classId = none ∧ slot.1.updateAfterIptChange = false)

variable (config : HostEnforcerConfig) (dev : String) {q : Qos} {slot : Slot} (n : ℕ)

variable {limit : ℤ} {matched : List FlowMarker}

def Stages (limit : ℤ) (matched : List FlowMarker) (p : Priority) : Prop :=
  (p.classId = none ∧ matched ≠ []) ∨ p.curRateLimitBps < limit

theorem earlyUpdate_of_stages {p : Priority} (h : Stages limit matched p) :
    (earlyUpdate config dev limit matched p n).sys =
        { p with
          classId := some (p.classId.getD n), curRateLimitBps := limit
          updateAfterIptChange := false, matched := matched } ∧
      (earlyUpdate config dev limit matched p n).creates = !p.didCreateClass := by
  have hif : (p.classId.isNone && !matched.isEmpty || decide (limit > p.curRateLimitBps)) =
      true := by simpa [Stages] using h
  simp only [earlyUpdate, hif, if_true, stageTrafficControlForFlow_sys,
    stageTrafficControlForFlow_creates, and_self]

theorem earlyUpdate_of_not_stages {p : Priority} (h : ¬ Stages limit matched p) :
    (earlyUpdate config dev limit matched p n).sys =
        { p with
          curRateLimitBps := limit
          updateAfterIptChange := decide (limit < p.curRateLimitBps) || p.updateAfterIptChange
          matched := matched } ∧
      (earlyUpdate config dev limit matched p n).creates = false := by
  have hif : ¬ (p.classId.isNone && !matched.isEmpty ||
      decide (limit > p.curRateLimitBps)) = true := by simpa [Stages] using h
  simp only [earlyUpdate, if_neg hif]
  split_ifs with hlt <;> simp [hlt]

variable {config dev n}

/--
The first loop keeps a priority sound. LOPRI matches flows with a positive limit only, and
HIPRI has no negative limit while it matches none.
-/
theorem Slot.Sound.earlyUpdate (h : slot.Sound q) (hlopri : q = .lopri → matched ≠ [] → 0 < limit)
    (hhipri : q = .hipri → matched = [] → 0 ≤ limit) :
    Slot.Sound q (asChange (earlyUpdate config dev limit matched) slot n).record ∧
      (matched ≠ [] →
        Slot.Created (asChange (earlyUpdate config dev limit matched) slot n).record) := by
  obtain ⟨p, flag⟩ := slot
  by_cases hstages : Stages limit matched p
  · obtain ⟨hsys, hcreates⟩ := earlyUpdate_of_stages config dev n hstages
    have hcreated : Slot.Created
        (asChange (earlyUpdate config dev limit matched) (p, flag) n).record := by
      simp only [Slot.Created, asChange, hsys, hcreates]
      cases p.didCreateClass <;> simp
    exact ⟨.inl hcreated, fun _ => hcreated⟩
  · obtain ⟨hsys, hcreates⟩ := earlyUpdate_of_not_stages config dev n hstages
    simp only [asChange, hsys, hcreates, Bool.or_false]
    obtain ⟨hclass, hle⟩ : (p.classId = none → matched = []) ∧ limit ≤ p.curRateLimitBps := by
      simpa [Stages] using hstages
    rcases h with hcreated | ⟨hnot, hflag, hcur, hnew⟩
    · exact ⟨.inl hcreated, fun _ => hcreated⟩
    · dsimp only at hnot hcur hnew
      cases q with
      | hipri =>
        obtain ⟨hnone, hdone⟩ := hnew rfl
        obtain rfl := hclass hnone
        have hzero := hhipri rfl rfl
        refine ⟨.inr ⟨hnot, hflag, by dsimp only; omega, fun _ => ⟨hnone, ?_⟩⟩,
          fun h => absurd rfl h⟩
        simp [hdone, show p.curRateLimitBps ≤ limit by omega]
      | lopri =>
        refine ⟨.inr ⟨hnot, hflag, by dsimp only; omega, by simp⟩, fun hmatched => ?_⟩
        have hpos := hlopri rfl hmatched
        omega

/-- The last loop keeps a priority sound. -/
theorem Slot.Sound.lateUpdate {p : Priority} (h : Slot.Sound q (p, false)) :
    Slot.Sound q ((lateUpdate config dev p n).sys, false) := by
  unfold LinuxEnforcer.lateUpdate
  split_ifs with hpending
  · simp only [stageTrafficControlForFlow_sys]
    rcases h with ⟨hcreated, -⟩ | ⟨hnot, -, hcur, hnew⟩
    · exact .inl ⟨hcreated, by simp⟩
    · refine .inr ⟨hnot, rfl, hcur, fun hq => absurd (hnew hq).2 ?_⟩
      simpa using hpending
  · exact h

def Slot.marked (slot : Slot) : Priority :=
  if slot.2 then { slot.1 with didCreateClass := true } else slot.1

theorem Slot.Created.marked (h : slot.Created) :
    slot.marked.didCreateClass = true ∧ slot.marked.classId ≠ none := by
  obtain ⟨p, flag⟩ := slot
  cases flag with
  | true => exact ⟨rfl, h.2⟩
  | false => exact ⟨by simpa [Slot.marked] using h.1, h.2⟩

theorem Slot.Sound.marked (h : slot.Sound q) : Slot.Sound q (slot.marked, false) := by
  rcases h with hcreated | ⟨hnot, hflag, hcur, hnew⟩
  · exact .inl ⟨.inl hcreated.marked.1, hcreated.marked.2⟩
  · have hmarked : slot.marked = slot.1 := by simp [Slot.marked, hflag]
    rw [hmarked]
    exact .inr ⟨hnot, rfl, hcur, hnew⟩

end Slots

section Settings

def prioritySettings (config : HostEnforcerConfig) (sys : FlowSys) (q : Qos) : List Setting :=
  (sys q).matched.map fun f =>
    { dstAddr := f.dstAddr, classId := classIdText ((sys q).classId.getD 0), dscp := q.dscp config }

theorem mapM_eq_some_map
    {α β : Type} {f : α → Option β} {g : α → β} {l : List α} (h : ∀ a ∈ l, f a = some (g a)) :
    l.mapM f = some (l.map g) := by
  induction l with
  | nil => rfl
  | cons a l ih =>
    rw [List.forall_mem_cons] at h
    simp [h.1, ih h.2]

variable {config : HostEnforcerConfig} {sys : FlowSys}

theorem lacksClass_eq_false (h : ∀ q, (sys q).matched ≠ [] → (sys q).didCreateClass = true)
    (q : Qos) : (sys q).lacksClass = false := by
  by_cases hmatched : (sys q).matched = []
  · simp [Priority.lacksClass, hmatched]
  · simp [Priority.lacksClass, h q hmatched]

theorem stageFlow_eq_some (hports : ∀ q, ∀ f ∈ (sys q).matched, f.srcPort = 0 ∧ f.dstPort = 0)
    (hclass : ∀ q, (sys q).matched ≠ [] → (sys q).didCreateClass = true ∧ (sys q).classId ≠ none) :
    stageFlow config sys =
      some (prioritySettings config sys .hipri ++ prioritySettings config sys .lopri) := by
  have hlacks := lacksClass_eq_false fun q hmatched => (hclass q hmatched).1
  have hstage : ∀ q : Qos, stageIptablesForFlow (sys q).matched (q.dscp config) (sys q).classId =
      some (prioritySettings config sys q) := by
    intro q
    unfold stageIptablesForFlow
    split_ifs with hempty
    · rw [List.isEmpty_iff] at hempty
      simp [prioritySettings, hempty]
    · rw [List.isEmpty_iff] at hempty
      obtain ⟨i, hi⟩ := Option.ne_none_iff_exists'.mp (hclass q hempty).2
      rw [prioritySettings, hi, Option.bind_some]
      refine mapM_eq_some_map fun f hf => ?_
      obtain ⟨hsrc, hdst⟩ := hports q f hf
      simp [settingFor, hsrc, hdst, assertValidPort]
  have hhipri := hstage .hipri
  have hlopri := hstage .lopri
  simp only [Qos.dscp] at hhipri hlopri
  simp [stageFlow, hlacks, hhipri, hlopri]

end Settings

section Bundles

/-- `EnforceAllocs` with `ExpandDestIntoHostsSinglePri`. -/
def enforcing (dcMapper : StaticDcMapper) (bundle : AllocBundle) : Call where
  matchHostFlows := expandDestIntoHostsSinglePri dcMapper
  bundle := bundle

/-- The class that an allocation asks for. -/
def qosOf (alloc : FlowAlloc) : Qos :=
  if 0 < alloc.lopriRateLimitBps then .lopri else .hipri

variable {dcMapper : StaticDcMapper} {bundle : AllocBundle} {alloc : FlowAlloc}

theorem expandDest_noJob_eq_nil_iff (flow : FlowMarker) :
    expandDest dcMapper (noJob flow) = [] ↔ expandDest dcMapper flow = [] := by
  by_cases haddr : flow.dstAddr = ""
  · cases hhosts : dcMapper flow.dstDc <;> simp [expandDest, noJob, haddr, hhosts]
  · simp [expandDest, noJob, haddr]

theorem expandDestIntoHostsSinglePri_isSome_iff :
    (expandDestIntoHostsSinglePri dcMapper alloc).isSome ↔
      (0 < alloc.lopriRateLimitBps → alloc.hipriRateLimitBps = 0) := by
  simp only [expandDestIntoHostsSinglePri]
  split_ifs <;> simp_all

theorem matched_enforcing (h : (expandDestIntoHostsSinglePri dcMapper alloc).isSome) (q : Qos) :
    (enforcing dcMapper bundle).matched alloc q =
      if q = qosOf alloc then expandDest dcMapper alloc.flow else [] := by
  rw [expandDestIntoHostsSinglePri_isSome_iff] at h
  simp only [enforcing, Call.matched, expandDestIntoHostsSinglePri, qosOf]
  by_cases hlopri : 0 < alloc.lopriRateLimitBps
  · cases q <;> simp [hlopri, h hlopri, Qos.matched]
  · cases q <;> simp [hlopri, Qos.matched]

namespace Enforcer

variable {e e' : Enforcer}

structure Sound (dcMapper : StaticDcMapper) (e : Enforcer) : Prop where
  iptables : Ready e.iptables
  slots : ∀ key q, expandDest dcMapper key ≠ [] → Slot.Sound q (e.sysInfo key q, false)

theorem sound_create (device : String) (config : HostEnforcerConfig) :
    (create device config).Sound dcMapper :=
  ⟨ready_create device config, fun _ _ _ => .inr ⟨rfl, rfl, le_rfl, fun _ => ⟨rfl, rfl⟩⟩⟩

theorem matched_marked_early {c : Call} {q : Qos} {slot : Slot} {n : ℕ} :
    (asChange (e.early c alloc q) slot n).record.marked.matched = c.matched alloc q := by
  have hmarked : ∀ slot : Slot, slot.marked.matched = slot.1.matched := by
    intro slot
    unfold Slot.marked
    split_ifs <;> rfl
  rw [hmarked, asChange, early]
  by_cases hstages : Stages (newLimit e.config q alloc) (c.matched alloc q) slot.1
  · rw [(earlyUpdate_of_stages _ _ _ hstages).1]
  · rw [(earlyUpdate_of_not_stages _ _ _ hstages).1]

theorem early_sound (h : (expandDestIntoHostsSinglePri dcMapper alloc).isSome)
    (hhosts : expandDest dcMapper alloc.flow ≠ []) {q : Qos} {slot : Slot} {n : ℕ}
    (hslot : slot.Sound q) :
    Slot.Sound q (asChange (e.early (enforcing dcMapper bundle) alloc q) slot n).record ∧
      ((enforcing dcMapper bundle).matched alloc q ≠ [] →
        Slot.Created (asChange (e.early (enforcing dcMapper bundle) alloc q) slot n).record) := by
  have hmax : 0 < kMaxBandwidthBps := by decide
  rw [early, matched_enforcing h]
  rw [expandDestIntoHostsSinglePri_isSome_iff] at h
  refine hslot.earlyUpdate ?_ ?_
  · rintro rfl hmatched
    have hlopri : 0 < alloc.lopriRateLimitBps := by
      by_contra hnot
      simp [qosOf, hnot] at hmatched
    simp only [newLimit, Qos.rateLimitBps]
    split_ifs <;> assumption
  · rintro rfl hmatched
    have hlopri : 0 < alloc.lopriRateLimitBps := by
      by_contra hnot
      simp [qosOf, hnot, hhosts] at hmatched
    simp only [newLimit, Qos.rateLimitBps, h hlopri]
    split_ifs
    · exact le_rfl
    · exact hmax.le

theorem Sound.updates (h : e.Sound dcMapper)
    (hmatch : ∀ alloc ∈ bundle.flowAllocs, (expandDestIntoHostsSinglePri dcMapper alloc).isSome)
    {changes : List ((FlowMarker × Qos) × Change Slot TcCommand)}
    (hchanges : changes ⊆ slotChanges (e.early (enforcing dcMapper bundle)) bundle.flowAllocs)
    (k : FlowMarker × Qos) (hk : expandDest dcMapper k.1 ≠ []) :
    Slot.Sound k.2 ((IdSlots.updates e.slots changes).slots k) := by
  refine updates_invariant (s := e.slots) changes
    (P := fun k slot => expandDest dcMapper k.1 ≠ [] → Slot.Sound k.2 slot)
    (fun k hk => h.slots k.1 k.2 hk) (fun x hx r n hr hhosts => ?_) k hk
  obtain ⟨alloc, halloc, q, rfl⟩ := exists_of_mem_slotChanges (hchanges hx)
  rw [Ne, expandDest_noJob_eq_nil_iff] at hhosts
  refine (early_sound (hmatch alloc halloc) hhosts (hr ?_)).1
  rwa [Ne, expandDest_noJob_eq_nil_iff]

theorem committed_sysInfo (e : Enforcer) (c : Call) (iptables : System) (k : FlowMarker × Qos) :
    (e.committed c iptables).sysInfo k.1 k.2 =
      ((IdSlots.updates e.slots (slotChanges (e.early c) c.bundle.flowAllocs)).slots k).marked := by
  rw [Enforcer.slots, ← Work.slots_updateAll, committed, afterStage1_sysInfo]
  rfl

/-- One call keeps the priorities sound. -/
theorem Sound.call (h : e.Sound dcMapper) (hcall : e.call (enforcing dcMapper bundle) = some e') :
    e'.Sound dcMapper := by
  obtain ⟨hmatch, settings, iptables, -, hcommit, rfl⟩ := (call_eq_some_iff h.iptables).mp hcall
  refine ⟨(h.iptables.of_commit hcommit).1, fun key q hhosts => ?_⟩
  have hslot := updates_invariant (s := (e.committed (enforcing dcMapper bundle) iptables).slots)
    (P := fun k slot => expandDest dcMapper k.1 ≠ [] → Slot.Sound k.2 (slot.1, false))
    (slotChanges (e.committed (enforcing dcMapper bundle) iptables).late
      bundle.flowAllocs) ?_ ?_ (key, q) hhosts
  · rwa [Enforcer.slots, ← Work.slots_updateAll] at hslot
  · intro k hk
    have hsys : ((e.committed (enforcing dcMapper bundle) iptables).slots.slots k).1 = _ :=
      e.committed_sysInfo (enforcing dcMapper bundle) iptables k
    rw [hsys]
    exact (h.updates hmatch (List.Subset.refl _) k hk).marked
  · intro x hx r n hr hk
    obtain ⟨alloc, -, q, rfl⟩ := exists_of_mem_slotChanges hx
    exact (hr hk).lateUpdate

theorem exists_slotChanges_eq_append
    (change : FlowAlloc → Qos → Priority → ℕ → Staged) (pre : List FlowAlloc)
    {post : List FlowAlloc} (hpost : ∀ a ∈ post, noJob a.flow ≠ noJob alloc.flow) (q : Qos) :
    ∃ before after, slotChanges change (pre ++ alloc :: post) =
        before ++ ((noJob alloc.flow, q), asChange (change alloc q)) :: after ∧
      ∀ x ∈ after, x.1 ≠ (noJob alloc.flow, q) := by
  have hafter : ∀ x ∈ slotChanges change post, x.1 ≠ (noJob alloc.flow, q) := by
    intro x hx
    obtain ⟨a, ha, q', rfl⟩ := exists_of_mem_slotChanges hx
    exact fun heq => hpost a ha (Prod.mk.inj heq).1
  cases q with
  | hipri =>
    refine ⟨slotChanges change pre,
      ((noJob alloc.flow, .lopri), asChange (change alloc .lopri)) :: slotChanges change post,
      by simp [slotChanges], List.forall_mem_cons.mpr ⟨by simp, hafter⟩⟩
  | lopri =>
    exact ⟨slotChanges change pre ++
        [((noJob alloc.flow, .hipri), asChange (change alloc .hipri))],
      slotChanges change post, by simp [slotChanges], hafter⟩

structure Decided (dcMapper : StaticDcMapper) (alloc : FlowAlloc) (sys : FlowSys) : Prop where
  matched : ∀ q, (sys q).matched = if q = qosOf alloc then expandDest dcMapper alloc.flow else []
  created : ∀ q, (sys q).matched ≠ [] → (sys q).didCreateClass = true ∧ (sys q).classId ≠ none

/-- The last allocation decides about the record of its flow. -/
theorem Sound.decided (h : e.Sound dcMapper)
    (hmatch : ∀ alloc ∈ bundle.flowAllocs, (expandDestIntoHostsSinglePri dcMapper alloc).isSome)
    {pre post : List FlowAlloc} (hbundle : bundle.flowAllocs = pre ++ alloc :: post)
    (hpost : ∀ a ∈ post, noJob a.flow ≠ noJob alloc.flow) (iptables : System) :
    Decided dcMapper alloc
      ((e.committed (enforcing dcMapper bundle) iptables).sysInfo (noJob alloc.flow)) := by
  have halloc : alloc ∈ bundle.flowAllocs := by simp [hbundle]
  have hslot : ∀ q, ∃ slot n, (expandDest dcMapper alloc.flow ≠ [] → Slot.Sound q slot) ∧
      (e.committed (enforcing dcMapper bundle) iptables).sysInfo (noJob alloc.flow) q =
        (asChange (e.early (enforcing dcMapper bundle) alloc q) slot n).record.marked := by
    intro q
    obtain ⟨before, after, hsplit, hafter⟩ := exists_slotChanges_eq_append
      (e.early (enforcing dcMapper bundle)) pre hpost q
    obtain ⟨n, hlast⟩ := updates_last (s := e.slots) before
      (f := asChange (e.early (enforcing dcMapper bundle) alloc q)) hafter
    rw [← hbundle] at hsplit
    refine ⟨(IdSlots.updates e.slots before).slots (noJob alloc.flow, q), n, fun hhosts => ?_, ?_⟩
    · refine h.updates hmatch (hsplit ▸ List.subset_append_left _ _) (noJob alloc.flow, q) ?_
      rwa [Ne, expandDest_noJob_eq_nil_iff]
    · rw [← hlast, ← hsplit]
      exact e.committed_sysInfo (enforcing dcMapper bundle) iptables (noJob alloc.flow, q)
  have hmatched : ∀ q, ((e.committed (enforcing dcMapper bundle) iptables).sysInfo
      (noJob alloc.flow) q).matched = (enforcing dcMapper bundle).matched alloc q := by
    intro q
    obtain ⟨slot, n, -, hsys⟩ := hslot q
    rw [hsys]
    exact matched_marked_early
  refine ⟨fun q => (hmatched q).trans (matched_enforcing (hmatch alloc halloc) q), fun q hne => ?_⟩
  rw [hmatched] at hne
  have hhosts : expandDest dcMapper alloc.flow ≠ [] := by
    rw [matched_enforcing (hmatch alloc halloc)] at hne
    exact fun hnil => hne (by simp [hnil])
  obtain ⟨slot, n, hsound, hsys⟩ := hslot q
  rw [hsys]
  exact ((early_sound (hmatch alloc halloc) hhosts (hsound hhosts)).2 hne).marked

end Enforcer

end Bundles

section Agreement

def hostsOf (dcMapper : StaticDcMapper) (dc : String) : List String := (dcMapper dc).getD []

/-- The comparison of the lookup. -/
def sameGroup (flow : FlowMarker) (alloc : FlowAlloc) : Bool :=
  isSameFlow alloc.flow flow lookupOptions

/--
A bundle for one host: the flows have no fields below those of the host, no
allocation has two limits, and the destinations have no host in common.
-/
structure HostBundle
    (dcMapper : StaticDcMapper) (srcDc : String) (hostId : UInt64) (bundle : AllocBundle) :
    Prop where
  flow : ∀ alloc ∈ bundle.flowAllocs, alloc.flow =
    { srcDc := srcDc, dstDc := alloc.flow.dstDc, job := alloc.flow.job, hostId := hostId }
  limits : ∀ alloc ∈ bundle.flowAllocs, 0 < alloc.lopriRateLimitBps → alloc.hipriRateLimitBps = 0
  disjoint : ∀ a ∈ bundle.flowAllocs, ∀ b ∈ bundle.flowAllocs, a.flow.dstDc ≠ b.flow.dstDc →
    ∀ host ∈ hostsOf dcMapper a.flow.dstDc, host ∉ hostsOf dcMapper b.flow.dstDc

variable {dcMapper : StaticDcMapper} {srcDc : String} {hostId : UInt64} {bundle : AllocBundle}
  {a b : FlowAlloc}

theorem sameGroup_iff {flow : FlowMarker} :
    sameGroup flow a = true ↔ a.flow.srcDc = flow.srcDc ∧ a.flow.dstDc = flow.dstDc := by
  simp [sameGroup, isSameFlow, lookupOptions]

theorem sameGroup_congr {flow flow' : FlowMarker}
    (hsrc : flow.srcDc = flow'.srcDc) (hdst : flow.dstDc = flow'.dstDc) :
    sameGroup flow = sameGroup flow' := by
  funext alloc
  simp [sameGroup, isSameFlow, lookupOptions, hsrc, hdst]

namespace HostBundle

variable (h : HostBundle dcMapper srcDc hostId bundle)

include h

theorem sameGroup_iff_dstDc_eq (ha : a ∈ bundle.flowAllocs) (hb : b ∈ bundle.flowAllocs) :
    sameGroup a.flow b = true ↔ b.flow.dstDc = a.flow.dstDc := by
  rw [sameGroup_iff, h.flow a ha, h.flow b hb]
  simp

theorem noJob_eq_iff (ha : a ∈ bundle.flowAllocs) (hb : b ∈ bundle.flowAllocs) :
    noJob b.flow = noJob a.flow ↔ b.flow.dstDc = a.flow.dstDc := by
  rw [h.flow a ha, h.flow b hb]
  simp [noJob]

theorem expandDest_eq (ha : a ∈ bundle.flowAllocs) :
    expandDest dcMapper a.flow =
      (hostsOf dcMapper a.flow.dstDc).map fun host => { a.flow with dstAddr := host } := by
  have haddr : a.flow.dstAddr = "" := by rw [h.flow a ha]
  cases hhosts : dcMapper a.flow.dstDc <;> simp [expandDest, haddr, hostsOf, hhosts]

theorem exists_last (ha : a ∈ bundle.flowAllocs) :
    ∃ last pre post, bundle.flowAllocs.reverse.find? (sameGroup a.flow) = some last ∧
      bundle.flowAllocs = pre ++ last :: post ∧ last.flow.dstDc = a.flow.dstDc ∧
      ∀ x ∈ post, noJob x.flow ≠ noJob last.flow := by
  have hsome : (bundle.flowAllocs.reverse.find? (sameGroup a.flow)).isSome :=
    List.find?_isSome.mpr ⟨a, by simpa using ha, (h.sameGroup_iff_dstDc_eq ha ha).mpr rfl⟩
  obtain ⟨last, hlast⟩ := Option.isSome_iff_exists.mp hsome
  obtain ⟨hgroup, post, pre, hsplit, hpost⟩ := List.find?_eq_some_iff_append.mp hlast
  have hbundle : bundle.flowAllocs = pre.reverse ++ last :: post.reverse := by
    simpa using congrArg List.reverse hsplit
  have hmem : last ∈ bundle.flowAllocs := by simp [hbundle]
  have hdc : last.flow.dstDc = a.flow.dstDc := (h.sameGroup_iff_dstDc_eq ha hmem).mp hgroup
  refine ⟨last, pre.reverse, post.reverse, hlast, hbundle, hdc, fun x hx hkey => ?_⟩
  have hxmem : x ∈ bundle.flowAllocs := by simp [hbundle, List.mem_reverse.mp hx]
  have hxdc := (h.noJob_eq_iff hmem hxmem).mp hkey
  have hxgroup := (h.sameGroup_iff_dstDc_eq ha hxmem).mpr (hxdc.trans hdc)
  simpa [hxgroup] using hpost x (List.mem_reverse.mp hx)

theorem isSome : ∀ alloc ∈ bundle.flowAllocs,
    (expandDestIntoHostsSinglePri dcMapper alloc).isSome := fun alloc halloc =>
  expandDestIntoHostsSinglePri_isSome_iff.mpr (h.limits alloc halloc)

end HostBundle

def lastQos (bundle : AllocBundle) (a : FlowAlloc) : Qos :=
  (bundle.flowAllocs.reverse.find? (sameGroup a.flow)).elim .hipri qosOf

theorem Enforcer.Decided.stageFlow_eq
    {sys : FlowSys} (hdecided : Enforcer.Decided dcMapper a sys) (config : HostEnforcerConfig)
    (h : HostBundle dcMapper srcDc hostId bundle) (ha : a ∈ bundle.flowAllocs) :
    stageFlow config sys = some ((hostsOf dcMapper a.flow.dstDc).map fun host =>
      { dstAddr := host, classId := classIdText ((sys (qosOf a)).classId.getD 0)
        dscp := (qosOf a).dscp config }) := by
  have hexpand := h.expandDest_eq ha
  have hports : ∀ q, ∀ f ∈ (sys q).matched, f.srcPort = 0 ∧ f.dstPort = 0 := by
    intro q f hf
    rw [hdecided.matched] at hf
    split_ifs at hf
    · rw [hexpand, h.flow a ha] at hf
      obtain ⟨host, -, rfl⟩ := List.mem_map.mp hf
      exact ⟨rfl, rfl⟩
    · simp at hf
  rw [stageFlow_eq_some hports hdecided.created]
  cases hq : qosOf a <;> simp [prioritySettings, hdecided.matched, hq, hexpand]

namespace Enforcer

variable {e : Enforcer}

theorem Sound.stage2_eq (h : e.Sound dcMapper) (hbundle : HostBundle dcMapper srcDc hostId bundle)
    (iptables : System) :
    ∃ classId : FlowAlloc → String,
      (e.committed (enforcing dcMapper bundle) iptables).stage2 bundle =
        some (bundle.flowAllocs.flatMap fun a =>
          (hostsOf dcMapper a.flow.dstDc).map fun host =>
            { dstAddr := host, classId := classId a, dscp := (lastQos bundle a).dscp e.config }) := by
  refine ⟨fun a => classIdText (((e.committed (enforcing dcMapper bundle) iptables).sysInfo
    (noJob a.flow) (lastQos bundle a)).classId.getD 0), ?_⟩
  rw [stage2, mapM_eq_some_map, Option.map_some, List.flatMap_def]
  intro a ha
  obtain ⟨last, pre, post, hlast, hsplit, hdc, hpost⟩ := hbundle.exists_last ha
  have hmem : last ∈ bundle.flowAllocs := by simp [hsplit]
  have hstage := (h.decided hbundle.isSome hsplit hpost iptables).stageFlow_eq e.config hbundle hmem
  rw [(hbundle.noJob_eq_iff ha hmem).mpr hdc, hdc] at hstage
  simp only [lastQos, hlast, Option.elim_some]
  exact hstage

def reportedDscp
    (config : HostEnforcerConfig) (bundles : UInt64 → Option AllocBundle) (hostId : UInt64)
    (flow : FlowMarker) : Option String :=
  match lookupAlloc bundles hostId flow with
  | 0 => some config.dscpHipri
  | 1 => some config.dscpLopri
  | _ => none

/--
For every flow group of the bundle the applied settings give the hosts of the
destination the DSCP of the class that the cluster agent looks up.
-/
def AgreesWith (dcMapper : StaticDcMapper) (bundles : UInt64 → Option AllocBundle) (hostId : UInt64)
    (e : Enforcer) : Prop :=
  ∀ bundle ∈ bundles hostId, ∀ a ∈ bundle.flowAllocs, ∀ flow, sameGroup flow a = true →
    ∀ host ∈ hostsOf dcMapper flow.dstDc, ∀ srcPort dstPort defaultDscp,
      reportedDscp e.config bundles hostId flow =
        some (settingsFindDscp e.iptables.controller.applied srcPort dstPort host defaultDscp)

theorem reportedDscp_eq
    {config : HostEnforcerConfig} {bundles : UInt64 → Option AllocBundle} {flow : FlowMarker}
    {first : FlowAlloc} (hmap : bundles hostId = some bundle)
    (hfirst : bundle.flowAllocs.find? (sameGroup flow) = some first) :
    reportedDscp config bundles hostId flow = some ((qosOf first).dscp config) := by
  have hfind : bundle.flowAllocs.find? (fun alloc => isSameFlow alloc.flow flow lookupOptions) =
      some first := hfirst
  by_cases hlopri : 0 < first.lopriRateLimitBps <;>
    simp [reportedDscp, lookupAlloc, hmap, hfind, hlopri, qosOf, Qos.dscp]

/-- What a call makes of a bundle for a host. -/
theorem Sound.exists_call
    (h : e.Sound dcMapper) (hbundle : HostBundle dcMapper srcDc hostId bundle) :
    ∃ e', e.call (enforcing dcMapper bundle) = some e' ∧ e'.config = e.config ∧
      ∀ a ∈ bundle.flowAllocs, ∀ host ∈ hostsOf dcMapper a.flow.dstDc,
        ∀ srcPort dstPort defaultDscp,
          settingsFindDscp e'.iptables.controller.applied srcPort dstPort host defaultDscp =
            (lastQos bundle a).dscp e.config := by
  obtain ⟨classId, hsettings⟩ := h.stage2_eq hbundle e.iptables
  generalize hbatch : (bundle.flowAllocs.flatMap fun a =>
    (hostsOf dcMapper a.flow.dstDc).map fun host =>
      ({ dstAddr := host, classId := classId a, dscp := (lastQos bundle a).dscp e.config } :
        Setting)) = settings at hsettings
  obtain ⟨iptables, hcommit, -, -, happlied⟩ := h.iptables.commit settings
  refine ⟨(e.committed (enforcing dcMapper bundle) iptables).stage3 bundle {},
    (call_eq_some_iff h.iptables).mpr
      ⟨hbundle.isSome, settings, iptables, hsettings, hcommit, rfl⟩, rfl, ?_⟩
  intro a ha host hhost srcPort dstPort defaultDscp
  have hmem : ∀ x, x ∈ sortBatch settings ↔ x ∈ settings := fun x =>
    (List.perm_insertionSort _ settings).mem_iff
  have happlied' : ((e.committed (enforcing dcMapper bundle) iptables).stage3
      bundle {}).iptables.controller.applied = sortBatch settings := happlied
  rw [happlied']
  refine settingsFindDscp_of_forall (pairwise_sortBatch settings) ?_
    (s := { dstAddr := host, classId := classId a, dscp := (lastQos bundle a).dscp e.config })
    ?_ rfl srcPort dstPort defaultDscp
  · intro x hx haddr
    rw [hmem, ← hbatch] at hx
    obtain ⟨b, hb, hx⟩ := List.mem_flatMap.mp hx
    obtain ⟨host', hhost', rfl⟩ := List.mem_map.mp hx
    obtain rfl : host' = host := haddr
    have hdc : b.flow.dstDc = a.flow.dstDc := by
      by_contra hne
      exact hbundle.disjoint b hb a ha hne host' hhost' hhost
    have hsrc : b.flow.srcDc = a.flow.srcDc := by rw [hbundle.flow a ha, hbundle.flow b hb]
    simp only [lastQos, sameGroup_congr hsrc hdc]
  · rw [hmem, ← hbatch]
    exact List.mem_flatMap.mpr ⟨a, ha, List.mem_map.mpr ⟨host, hhost, rfl⟩⟩

end Enforcer

/--
The first and the last allocation of a flow group ask for the same class, where
there are hosts and the DSCPs of the classes differ.
-/
def FirstLikeLast
    (config : HostEnforcerConfig) (dcMapper : StaticDcMapper) (bundle : AllocBundle) : Prop :=
  ∀ a ∈ bundle.flowAllocs,
    hostsOf dcMapper a.flow.dstDc = [] ∨ config.dscpHipri = config.dscpLopri ∨
      ∀ first ∈ bundle.flowAllocs.find? (sameGroup a.flow),
        ∀ last ∈ bundle.flowAllocs.reverse.find? (sameGroup a.flow),
          (0 < first.lopriRateLimitBps ↔ 0 < last.lopriRateLimitBps)
deriving Decidable

theorem dscp_qosOf_eq_iff {config : HostEnforcerConfig} :
    (qosOf a).dscp config = (qosOf b).dscp config ↔
      config.dscpHipri = config.dscpLopri ∨
        (0 < a.lopriRateLimitBps ↔ 0 < b.lopriRateLimitBps) := by
  by_cases ha : 0 < a.lopriRateLimitBps <;> by_cases hb : 0 < b.lopriRateLimitBps <;>
    simp [qosOf, ha, hb, Qos.dscp, eq_comm]

theorem Enforcer.agreesWith_iff {e e' : Enforcer} {bundles : UInt64 → Option AllocBundle}
    (hbundle : HostBundle dcMapper srcDc hostId bundle) (hmap : bundles hostId = some bundle)
    (hconfig : e'.config = e.config)
    (hfind : ∀ a ∈ bundle.flowAllocs, ∀ host ∈ hostsOf dcMapper a.flow.dstDc,
      ∀ srcPort dstPort defaultDscp,
        settingsFindDscp e'.iptables.controller.applied srcPort dstPort host defaultDscp =
          (lastQos bundle a).dscp e.config) :
    e'.AgreesWith dcMapper bundles hostId ↔ FirstLikeLast e.config dcMapper bundle := by
  have hgroup : ∀ a ∈ bundle.flowAllocs, ∃ first last,
      bundle.flowAllocs.find? (sameGroup a.flow) = some first ∧
      bundle.flowAllocs.reverse.find? (sameGroup a.flow) = some last ∧
      lastQos bundle a = qosOf last := by
    intro a ha
    have hsome : (bundle.flowAllocs.find? (sameGroup a.flow)).isSome :=
      List.find?_isSome.mpr ⟨a, ha, (hbundle.sameGroup_iff_dstDc_eq ha ha).mpr rfl⟩
    obtain ⟨first, hfirst⟩ := Option.isSome_iff_exists.mp hsome
    obtain ⟨last, -, -, hlast, -⟩ := hbundle.exists_last ha
    exact ⟨first, last, hfirst, hlast, by rw [lastQos, hlast, Option.elim_some]⟩
  simp only [Enforcer.AgreesWith, hmap, Option.mem_some_iff, forall_eq', FirstLikeLast]
  refine forall₂_congr fun a ha => ?_
  obtain ⟨first, last, hfirst, hlast, hqos⟩ := hgroup a ha
  simp only [hfirst, hlast, Option.mem_some_iff, forall_eq', hconfig]
  rw [← dscp_qosOf_eq_iff, ← hqos]
  constructor
  · intro h
    by_cases hhosts : hostsOf dcMapper a.flow.dstDc = []
    · exact .inl hhosts
    · obtain ⟨host, hhost⟩ := List.exists_mem_of_ne_nil _ hhosts
      have hagree := h a.flow (sameGroup_iff.mpr ⟨rfl, rfl⟩) host hhost 0 0 ""
      rw [Enforcer.reportedDscp_eq hmap hfirst, hfind a ha host hhost] at hagree
      exact .inr (Option.some.inj hagree)
  · intro h flow hflow host hhost srcPort dstPort defaultDscp
    obtain ⟨hsrc, hdst⟩ := sameGroup_iff.mp hflow
    rw [← hdst] at hhost
    rw [sameGroup_congr hsrc hdst] at hfirst
    rw [Enforcer.reportedDscp_eq hmap hfirst, hfind a ha host hhost]
    rcases h with hnil | h
    · simp [hnil] at hhost
    · rw [h]

/--
Controller and host agree after a host has enforced a bundle, whatever bundles it has
enforced before, iff the first and the last allocation of each flow group ask for the same
class.
-/
theorem agreesWith_iff_firstLikeLast
    (device : String) (config : HostEnforcerConfig) (dcMapper : StaticDcMapper)
    (history : List AllocBundle) (e : Enforcer)
    (hrun : exec (fun e bundle => e.call (enforcing dcMapper bundle))
      (Enforcer.create device config) history = some e)
    (srcDc : String) (hostId : UInt64) (bundle : AllocBundle)
    (hbundle : HostBundle dcMapper srcDc hostId bundle)
    (bundles : UInt64 → Option AllocBundle) (hmap : bundles hostId = some bundle) :
    ∃ e', e.call (enforcing dcMapper bundle) = some e' ∧
      (e'.AgreesWith dcMapper bundles hostId ↔ FirstLikeLast config dcMapper bundle) := by
  obtain ⟨hsound, rfl⟩ : e.Sound dcMapper ∧ e.config = config := by
    refine exec_invariant (P := fun e => e.Sound dcMapper ∧ e.config = config) ?_
      ⟨Enforcer.sound_create device config, rfl⟩ hrun
    rintro e b e' ⟨hsound, hconfig⟩ hcall
    refine ⟨hsound.call hcall, ?_⟩
    obtain ⟨-, settings, iptables, -, -, rfl⟩ :=
      (Enforcer.call_eq_some_iff hsound.iptables).mp hcall
    exact hconfig
  obtain ⟨e', hcall, hconfig, hfind⟩ := hsound.exists_call hbundle
  exact ⟨e', hcall, Enforcer.agreesWith_iff hbundle hmap hconfig hfind⟩

def edgeHosts : StaticDcMapper :=
  fun dc => if dc = "edge" then some ["10.0.0.1", "10.0.0.2"] else none

def twoJobs (hipriRateLimitBps lopriRateLimitBps : ℤ) : AllocBundle where
  flowAllocs :=
    [{ flow := { srcDc := "core", dstDc := "edge", job := "web", hostId := 7 }
       hipriRateLimitBps := 100 },
      { flow := { srcDc := "core", dstDc := "edge", job := "backup", hostId := 7 }
        hipriRateLimitBps := hipriRateLimitBps
        lopriRateLimitBps := lopriRateLimitBps }]

theorem agreesWith_two_hipri_jobs :
    ∃ e e', exec (fun e bundle => e.call (enforcing edgeHosts bundle))
        (Enforcer.create "eth1" {}) [twoJobs 0 50] = some e ∧
      e.call (enforcing edgeHosts (twoJobs 80 0)) = some e' ∧
      e'.AgreesWith edgeHosts (fun _ => some (twoJobs 80 0)) 7 := by
  obtain ⟨e, hrun⟩ := Option.isSome_iff_exists.mp
    (show (exec (fun e bundle => e.call (enforcing edgeHosts bundle))
      (Enforcer.create "eth1" {}) [twoJobs 0 50]).isSome from by decide +kernel)
  have hbundle : HostBundle edgeHosts "core" 7 (twoJobs 80 0) := ⟨by decide, by decide, by decide⟩
  obtain ⟨e', hcall, hiff⟩ := agreesWith_iff_firstLikeLast "eth1" {} edgeHosts [twoJobs 0 50] e
    hrun "core" 7 (twoJobs 80 0) hbundle (fun _ => some (twoJobs 80 0)) rfl
  exact ⟨e, e', hrun, hcall, hiff.mpr (by decide)⟩

/-- The lookup reports HIPRI for the flow group, and the host marks it as LOPRI. -/
theorem not_agreesWith_second_job_lopri :
    ∃ e', (Enforcer.create "eth1" {}).call (enforcing edgeHosts (twoJobs 0 50)) = some e' ∧
      ¬ e'.AgreesWith edgeHosts (fun _ => some (twoJobs 0 50)) 7 := by
  have hdscp : ((Enforcer.create "eth1" {}).call (enforcing edgeHosts (twoJobs 0 50))).map
      (fun e => (e.config, settingsFindDscp e.iptables.controller.applied 0 0 "10.0.0.1" "")) =
        some ({}, "BE") := by
    decide +kernel
  obtain ⟨e', hcall, heq⟩ := Option.map_eq_some_iff.mp hdscp
  obtain ⟨hconfig, hbe⟩ := Prod.mk.inj heq
  refine ⟨e', hcall, fun h => ?_⟩
  have hagree := h (twoJobs 0 50) rfl _ (List.mem_cons_self ..)
    { srcDc := "core", dstDc := "edge" } rfl "10.0.0.1" (by decide) 0 0 ""
  rw [hconfig, hbe] at hagree
  exact absurd hagree (by decide)

end Agreement

end LinuxEnforcer
end HeypAgents