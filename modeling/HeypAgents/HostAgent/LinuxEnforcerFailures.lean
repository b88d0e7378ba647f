import HeypAgents.HostAgent.LinuxEnforcerQos

/-!
# Calls of the enforcer whose commands may fail

Every command of a call may fail.  A class that counts as created exists, whatever
has failed before.  The converse is where the enforcer does not recover: the id of a
class and the limit are remembered also when the class could not be created, so the
same bundle does not ask for it again.

A flow without a class is left out of the staged settings.  As a commit replaces what
is applied, its rules are deleted.
-/

namespace HeypAgents
namespace LinuxEnforcer

open Iptables Runs IdSlots

/-- A call, with how its commands end. -/
structure Attempt where
  call : Call
  results : CommandResults := {}

namespace Enforcer

variable (e : Enforcer) (a : Attempt)

def attempt : Option Enforcer := e.enforceAllocs a.call.matchHostFlows a.call.bundle a.results

def classed : Enforcer :=
  e.afterStage1 a.results (e.work.updateAll (e.early a.call) a.call.bundle.flowAllocs)

/-- The commit of a call; `none` when a check of the second stage fails. -/
def commit : Option (Status × System) :=
  ((e.classed a).stage2 a.call.bundle).map fun settings =>
    (settings.foldl System.stage e.iptables).commitChanges a.results.restoreFails

variable {e a} {e' : Enforcer}

/-- What a call does, whatever fails. -/
theorem exists_of_attempt (hcall : e.attempt a = some e') :
    ∃ settings status iptables, (e.classed a).stage2 a.call.bundle = some settings ∧
      (settings.foldl System.stage e.iptables).commitChanges a.results.restoreFails =
        (status, iptables) ∧
      e' = if status = .ok then
          { e.classed a with
            iptables := iptables, iptSnapshot := iptables.controller.applied }.stage3
              a.call.bundle a.results
        else { e.classed a with iptables := iptables } := by
  simp only [attempt, enforceAllocs, Option.bind_eq_bind, Option.bind_eq_some_iff] at hcall
  obtain ⟨w, hw, settings, hsettings, hcall⟩ := hcall
  obtain ⟨-, rfl⟩ := (e.stage1_eq_some_iff a.call w).mp hw
  have hiptables : ∀ w, (e.afterStage1 a.results w).iptables = e.iptables := fun _ => rfl
  rw [hiptables] at hcall
  generalize hcommit : (settings.foldl System.stage e.iptables).commitChanges
    a.results.restoreFails = committed at hcall
  obtain ⟨status, iptables⟩ := committed
  refine ⟨settings, status, iptables, hsettings, hcommit, ?_⟩
  split_ifs at hcall ⊢ <;> exact (Option.some.inj hcall).symm

end Enforcer

section ClassesExist

open Enforcer (foundClasses)

variable {config : HostEnforcerConfig} {dev : String} {limit : ℤ} {matched : List FlowMarker}
  {p : Priority} {n i : ℕ}

theorem mem_foundClasses_append {log log' : List TcCommand} :
    i ∈ foundClasses (log ++ log') ↔ i ∈ foundClasses log ∨ i ∈ foundClasses log' := by
  simp [foundClasses]

def Priority.ClassIn (p : Priority) (log : List TcCommand) : Prop :=
  ∃ i ∈ foundClasses log, p.classId = some i

theorem Priority.ClassIn.append {log : List TcCommand} (h : p.ClassIn log)
    (log' : List TcCommand) : p.ClassIn (log ++ log') := by
  obtain ⟨i, hi, hid⟩ := h
  exact ⟨i, mem_foundClasses_append.mpr (.inl hi), hid⟩

theorem earlyUpdate_keeps :
    (earlyUpdate config dev limit matched p n).sys.didCreateClass = p.didCreateClass ∧
      ∀ i, p.classId = some i →
        (earlyUpdate config dev limit matched p n).sys.classId = some i := by
  by_cases hstages : Stages limit matched p
  · rw [(earlyUpdate_of_stages config dev n hstages).1]
    refine ⟨rfl, fun i hi => ?_⟩
    simp [hi]
  · rw [(earlyUpdate_of_not_stages config dev n hstages).1]
    exact ⟨rfl, fun _ => id⟩

theorem earlyUpdate_adds (h : (earlyUpdate config dev limit matched p n).creates = true) :
    (earlyUpdate config dev limit matched p n).sys.ClassIn
      (earlyUpdate config dev limit matched p n).commands := by
  unfold earlyUpdate stageTrafficControlForFlow at h ⊢
  dsimp only at h ⊢
  split_ifs at h ⊢ <;> simp_all [Priority.ClassIn, foundClasses, tcCommand]

theorem lateUpdate_keeps :
    (lateUpdate config dev p n).sys.didCreateClass = p.didCreateClass ∧
      (lateUpdate config dev p n).sys.matched = p.matched ∧
      ∀ i, p.classId = some i → (lateUpdate config dev p n).sys.classId = some i := by
  unfold lateUpdate
  split_ifs
  · simp only [stageTrafficControlForFlow_sys, true_and]
    intro i hi
    simp [hi]
  · exact ⟨rfl, rfl, fun _ => id⟩

namespace Enforcer

variable (e : Enforcer) (a : Attempt)

def looped (c : Call) (k : FlowMarker × Qos) : Slot :=
  (IdSlots.updates e.slots (slotChanges (e.early c) c.bundle.flowAllocs)).slots k

theorem looped_eq (c : Call) (k : FlowMarker × Qos) :
    e.looped c k =
      ((e.work.updateAll (e.early c) c.bundle.flowAllocs).sysInfo k.1 k.2,
        (e.work.updateAll (e.early c) c.bundle.flowAllocs).classesToCreate.contains k) := by
  rw [looped, Enforcer.slots, ← Work.slots_updateAll]
  rfl

theorem looped_adds {c : Call} {k : FlowMarker × Qos} (hk : (e.looped c k).2 = true) :
    (e.looped c k).1.ClassIn (e.work.updateAll (e.early c) c.bundle.flowAllocs).tcBatchInput := by
  have hlog := updates_log_invariant (s := e.work.slots [])
    (P := fun slot log => slot.2 = true → slot.1.ClassIn log)
    (slotChanges (e.early c) c.bundle.flowAllocs)
    (fun _ _ commands h hflag => (h hflag).append commands)
    (fun _ hflag => absurd hflag (by simp [Work.slots, work])) ?_ k
  · rw [← Work.slots_updateAll] at hlog
    rw [looped_eq] at hk ⊢
    exact hlog hk
  · intro x hx slot n log hslot hflag
    obtain ⟨alloc, -, q, rfl⟩ := exists_of_mem_slotChanges hx
    simp only [asChange, Bool.or_eq_true] at hflag ⊢
    rcases hflag with hflag | hcreates
    · obtain ⟨i, hi, hid⟩ := hslot hflag
      exact ⟨i, mem_foundClasses_append.mpr (.inl hi), earlyUpdate_keeps.2 i hid⟩
    · obtain ⟨i, hi, hid⟩ := earlyUpdate_adds hcreates
      exact ⟨i, mem_foundClasses_append.mpr (.inr hi), hid⟩

theorem looped_keeps (c : Call) (k : FlowMarker × Qos) :
    (e.looped c k).1.didCreateClass = (e.sysInfo k.1 k.2).didCreateClass ∧
      ∀ i, (e.sysInfo k.1 k.2).classId = some i → (e.looped c k).1.classId = some i := by
  refine updates_invariant (s := e.slots)
    (P := fun k slot => slot.1.didCreateClass = (e.sysInfo k.1 k.2).didCreateClass ∧
      ∀ i, (e.sysInfo k.1 k.2).classId = some i → slot.1.classId = some i)
    (slotChanges (e.early c) c.bundle.flowAllocs) (fun _ => ⟨rfl, fun _ h => h⟩) ?_ k
  rintro x hx slot n ⟨hdid, hid⟩
  obtain ⟨alloc, -, q, rfl⟩ := exists_of_mem_slotChanges hx
  exact ⟨earlyUpdate_keeps.1.trans hdid, fun i hi => earlyUpdate_keeps.2 i (hid i hi)⟩

theorem classed_sysInfo (k : FlowMarker × Qos) :
    (e.classed a).sysInfo k.1 k.2 =
      if (e.looped a.call k).2 && isCreated a.results
          (e.work.updateAll (e.early a.call) a.call.bundle.flowAllocs) (e.classed a).tcLog k then
        { (e.looped a.call k).1 with didCreateClass := true }
      else (e.looped a.call k).1 := by
  rw [looped_eq]
  rfl

def ClassesExist (e : Enforcer) : Prop :=
  ∀ key q, (e.sysInfo key q).didCreateClass = true → (e.sysInfo key q).ClassIn e.tcLog

variable {e a} {e' : Enforcer}

/-- The first stage keeps the classes, whatever its commands do. -/
theorem ClassesExist.classed (h : e.ClassesExist) : (e.classed a).ClassesExist := by
  intro key q hdid
  have hsys := e.classed_sysInfo a (key, q)
  have hlog : (e.classed a).tcLog = e.tcLog ++ a.results.increases.executed
    (e.work.updateAll (e.early a.call) a.call.bundle.flowAllocs).tcBatchInput := rfl
  obtain ⟨hkept, hid⟩ := e.looped_keeps a.call (key, q)
  have hold : (e.looped a.call (key, q)).1.didCreateClass = true →
      (e.looped a.call (key, q)).1.ClassIn (e.classed a).tcLog := by
    intro hcreated
    obtain ⟨i, hi, hclass⟩ := h key q (hkept ▸ hcreated)
    exact ⟨i, hlog ▸ mem_foundClasses_append.mpr (.inl hi), hid i hclass⟩
  simp only at hsys
  rw [hsys] at hdid ⊢
  split_ifs at hdid ⊢ with hnew
  · rw [Bool.and_eq_true, isCreated, Bool.or_eq_true, Bool.and_eq_true] at hnew
    obtain ⟨hflag, hbatch | ⟨-, hfound⟩⟩ := hnew
    · obtain ⟨i, hi, hclass⟩ := e.looped_adds hflag
      refine ⟨i, ?_, hclass⟩
      rw [hlog]
      refine mem_foundClasses_append.mpr (.inr ?_)
      rcases Bool.or_eq_true _ _ ▸ hbatch with hempty | hok
      · rw [List.isEmpty_iff] at hempty
        simp [hempty, foundClasses] at hi
      · cases hresult : a.results.increases with
        | ok => exact hi
        | failed executed => simp [hresult, BatchResult.isOk] at hok
    · obtain ⟨i, hclass, hi⟩ := (Option.any_eq_true _ _).mp hfound
      rw [looped_eq]
      exact ⟨i, by simpa using hi, hclass⟩
  · exact hold hdid

theorem stage3_keeps (bundle : AllocBundle) (results : CommandResults) (key : FlowMarker)
    (q : Qos) :
    ((e.stage3 bundle results).sysInfo key q).didCreateClass = (e.sysInfo key q).didCreateClass ∧
      ((e.stage3 bundle results).sysInfo key q).matched = (e.sysInfo key q).matched ∧
      ∀ i, (e.sysInfo key q).classId = some i →
        ((e.stage3 bundle results).sysInfo key q).classId = some i := by
  have hslot := updates_invariant (s := e.slots)
    (P := fun k slot => slot.1.didCreateClass = (e.sysInfo k.1 k.2).didCreateClass ∧
      slot.1.matched = (e.sysInfo k.1 k.2).matched ∧
      ∀ i, (e.sysInfo k.1 k.2).classId = some i → slot.1.classId = some i)
    (slotChanges e.late bundle.flowAllocs) (fun _ => ⟨rfl, rfl, fun _ h => h⟩) ?_ (key, q)
  · rwa [Enforcer.slots, ← Work.slots_updateAll] at hslot
  · rintro x hx slot n ⟨hdid, hmatched, hid⟩
    obtain ⟨alloc, -, q, rfl⟩ := exists_of_mem_slotChanges hx
    obtain ⟨hdid', hmatched', hid'⟩ := @lateUpdate_keeps e.config e.dev slot.1 n
    exact ⟨hdid'.trans hdid, hmatched'.trans hmatched, fun i hi => hid' i (hid i hi)⟩

theorem ClassesExist.stage3 (h : e.ClassesExist) (bundle : AllocBundle)
    (results : CommandResults) : (e.stage3 bundle results).ClassesExist := by
  intro key q hdid
  obtain ⟨hkept, -, hid⟩ := e.stage3_keeps bundle results key q
  obtain ⟨i, hi, hclass⟩ := h key q (hkept ▸ hdid)
  exact ⟨i, mem_foundClasses_append.mpr (.inl hi), hid i hclass⟩

/-- One call keeps the classes that count as created in the kernel. -/
theorem ClassesExist.attempt (h : e.ClassesExist) (hcall : e.attempt a = some e') :
    e'.ClassesExist := by
  obtain ⟨settings, status, iptables, -, -, rfl⟩ := exists_of_attempt hcall
  have hclassed := h.classed (a := a)
  generalize e.classed a = e₁ at hclassed ⊢
  split_ifs
  · exact ClassesExist.stage3 (e := { e₁ with iptables := iptables, iptSnapshot := _ })
      hclassed a.call.bundle a.results
  · exact hclassed

theorem classesExist_create (device : String) (config : HostEnforcerConfig) :
    (create device config).ClassesExist := by
  intro key q hdid
  cases hdid

end Enforcer

end ClassesExist

section SecondStage

def classSettings (config : HostEnforcerConfig) (sys : FlowSys) (q : Qos) : List Setting :=
  (sys q).matched.filterMap (settingFor (q.dscp config) (classIdText ((sys q).classId.getD 0)))

def passedOver (sys : FlowSys) : Qos → Bool
  | .hipri => (sys .hipri).lacksClass
  | .lopri => (sys .hipri).lacksClass || (sys .lopri).lacksClass

def flowSettings (config : HostEnforcerConfig) (sys : FlowSys) : List Setting :=
  [Qos.hipri, Qos.lopri].flatMap fun q =>
    if passedOver sys q then [] else classSettings config sys q

def Enforcer.stagedSettings (e : Enforcer) (bundle : AllocBundle) : List Setting :=
  bundle.flowAllocs.flatMap fun alloc => flowSettings e.config (e.sysInfo (noJob alloc.flow))

theorem filterMap_of_mapM {α β : Type} {f : α → Option β} {l : List α} {r : List β}
    (h : l.mapM f = some r) : r = l.filterMap f ∧ ∀ x ∈ l, (f x).isSome := by
  induction l generalizing r with
  | nil =>
    cases h
    exact ⟨rfl, fun _ hx => absurd hx List.not_mem_nil⟩
  | cons x l ih =>
    simp only [List.mapM_cons, Option.bind_eq_bind, Option.bind_eq_some_iff, Option.pure_def,
      Option.some.injEq] at h
    obtain ⟨y, hy, rest, hrest, rfl⟩ := h
    obtain ⟨rfl, hsome⟩ := ih hrest
    refine ⟨by rw [List.filterMap_cons_some hy], List.forall_mem_cons.mpr ⟨?_, hsome⟩⟩
    rw [hy]
    rfl

variable {config : HostEnforcerConfig} {sys : FlowSys} {settings : List Setting}

theorem stageIptablesForFlow_spec {q : Qos} {l : List Setting}
    (h : stageIptablesForFlow (sys q).matched (q.dscp config) (sys q).classId = some l) :
    l = classSettings config sys q ∧ ∀ f ∈ (sys q).matched,
      (settingFor (q.dscp config) (classIdText ((sys q).classId.getD 0)) f).isSome := by
  unfold stageIptablesForFlow at h
  split_ifs at h with hempty
  · rw [List.isEmpty_iff] at hempty
    cases h
    simp [classSettings, hempty]
  · obtain ⟨i, hi, hsettings⟩ := Option.bind_eq_some_iff.mp h
    rw [classSettings, hi]
    exact filterMap_of_mapM hsettings

/-- What the second stage stages for a flow. -/
theorem stageFlow_spec (h : stageFlow config sys = some settings) :
    settings = flowSettings config sys ∧
      ∀ q, passedOver sys q = false → ∀ f ∈ (sys q).matched,
        (settingFor (q.dscp config) (classIdText ((sys q).classId.getD 0)) f).isSome := by
  unfold stageFlow at h
  split_ifs at h with hhipri hlopri
  · cases h
    refine ⟨by simp [flowSettings, passedOver, hhipri], fun q hq => ?_⟩
    cases q <;> simp [passedOver, hhipri] at hq
  · obtain ⟨hipri, hstaged, hrest⟩ := Option.bind_eq_some_iff.mp h
    obtain ⟨rfl, hports⟩ := stageIptablesForFlow_spec (q := .hipri) hstaged
    cases hrest
    refine ⟨by simp [flowSettings, passedOver, hhipri, hlopri], fun q hq => ?_⟩
    cases q with
    | hipri => exact hports
    | lopri => simp [passedOver, hlopri] at hq
  · simp only [Option.bind_eq_bind, Option.bind_eq_some_iff] at h
    obtain ⟨hipri, hstaged, lopri, hstaged', hrest⟩ := h
    obtain ⟨rfl, hports⟩ := stageIptablesForFlow_spec (q := .hipri) hstaged
    obtain ⟨rfl, hports'⟩ := stageIptablesForFlow_spec (q := .lopri) hstaged'
    cases hrest
    refine ⟨by simp [flowSettings, passedOver, hhipri, hlopri], fun q _ => ?_⟩
    cases q with
    | hipri => exact hports
    | lopri => exact hports'

theorem Enforcer.stage2_spec {e : Enforcer} {bundle : AllocBundle}
    (h : e.stage2 bundle = some settings) :
    settings = e.stagedSettings bundle ∧
      ∀ alloc ∈ bundle.flowAllocs, (stageFlow e.config (e.sysInfo (noJob alloc.flow))).isSome := by
  obtain ⟨parts, hparts, rfl⟩ := Option.map_eq_some_iff.mp h
  have hsome := (filterMap_of_mapM hparts).2
  refine ⟨?_, hsome⟩
  rw [mapM_eq_some_map (g := fun alloc => flowSettings e.config (e.sysInfo (noJob alloc.flow)))]
    at hparts
  · cases hparts
    rw [stagedSettings, List.flatMap_def]
  · intro alloc halloc
    obtain ⟨l, hl⟩ := Option.isSome_iff_exists.mp (hsome alloc halloc)
    rw [hl, (stageFlow_spec hl).1]

/-- What a call does when its commit returns OK. -/
theorem Enforcer.exists_of_commit_ok {e e' : Enforcer} {a : Attempt}
    (hcall : e.attempt a = some e') (hok : (e.commit a).map Prod.fst = some .ok) :
    (∀ alloc ∈ a.call.bundle.flowAllocs,
      (stageFlow e.config ((e.classed a).sysInfo (noJob alloc.flow))).isSome) ∧
    ∃ iptables,
      iptables.controller.applied =
        sortBatch (e.iptables.controller.staged ++ (e.classed a).stagedSettings a.call.bundle) ∧
      e' = { e.classed a with
        iptables := iptables, iptSnapshot := iptables.controller.applied }.stage3
          a.call.bundle a.results := by
  obtain ⟨settings, status, iptables, hstage2, hcommit, he'⟩ := exists_of_attempt hcall
  obtain ⟨rfl, hsome⟩ := stage2_spec hstage2
  rw [commit, hstage2, Option.map_some, Option.map_some, hcommit] at hok
  obtain rfl : status = .ok := Option.some.inj hok
  refine ⟨hsome, iptables, ?_, by rw [he', if_pos rfl]⟩
  have hcontroller := System.controller_of_ok (congrArg Prod.fst hcommit)
  rw [hcommit, System.foldl_stage] at hcontroller
  rw [hcontroller]
  rfl

end SecondStage

section Recovery

def Call.allocsOf (c : Call) (key : FlowMarker) : List FlowAlloc :=
  c.bundle.flowAllocs.filter fun alloc => noJob alloc.flow = key

def Call.lastMatched (c : Call) (key : FlowMarker) (q : Qos) : List FlowMarker :=
  (c.allocsOf key).getLast?.elim [] fun alloc => c.matched alloc q

def Slot.Pending (slot : Slot) : Prop := slot.1.didCreateClass = true ∨ slot.2 = true

variable (e : Enforcer) (c : Call) (q : Qos)

theorem filter_slotChanges (change : FlowAlloc → Qos → Priority → ℕ → Staged) (key : FlowMarker) :
    ((slotChanges change c.bundle.flowAllocs).filter fun x => x.1 = (key, q)).map Prod.snd =
      (c.allocsOf key).map fun alloc => asChange (change alloc q) := by
  rw [slotChanges, Call.allocsOf]
  induction c.bundle.flowAllocs with
  | nil => rfl
  | cons alloc allocs ih =>
    rw [List.flatMap_cons, List.filter_append, List.map_append, ih]
    by_cases hkey : noJob alloc.flow = key
    · cases q <;> simp [hkey]
    · simp [hkey]

variable {e c q}

/--
After the first loop the class of a priority is there or asked for iff it was before, or it
has no id yet and something matches, or some limit exceeds the one before it.
-/
theorem pending_of_follows {allocs : List FlowAlloc} {slot slot' : Slot}
    (h : Follows (allocs.map fun alloc => asChange (e.early c alloc q)) slot slot') :
    slot'.1.matched = allocs.getLast?.elim slot.1.matched (fun alloc => c.matched alloc q) ∧
      (slot'.Pending ↔ slot.Pending ∨
        (slot.1.classId = none ∧ ∃ alloc ∈ allocs, c.matched alloc q ≠ []) ∨
        ¬ List.IsChain (· ≥ ·) (slot.1.curRateLimitBps :: allocs.map (newLimit e.config q))) := by
  induction allocs generalizing slot with
  | nil =>
    cases h
    simp
  | cons alloc allocs ih =>
    rw [List.map_cons] at h
    cases h with
    | cons n h =>
      obtain ⟨hmatched, hpending⟩ := ih h
      obtain ⟨p, flag⟩ := slot
      have hlast : ∀ d, (alloc :: allocs).getLast?.elim d (fun alloc => c.matched alloc q) =
          allocs.getLast?.elim (c.matched alloc q) fun alloc => c.matched alloc q := by
        intro d
        rw [List.getLast?_cons]
        cases allocs.getLast? <;> rfl
      rw [hlast, List.map_cons, List.isChain_cons_cons]
      by_cases hstages : Stages (newLimit e.config q alloc) (c.matched alloc q) p
      · obtain ⟨hsys, hcreates⟩ := earlyUpdate_of_stages e.config e.dev n hstages
        simp only [asChange, Enforcer.early, hsys, hcreates] at hmatched hpending
        refine ⟨hmatched, iff_of_true (hpending.mpr (.inl ?_)) (.inr ?_)⟩
        · cases p.didCreateClass <;> simp [Slot.Pending]
        · rcases hstages with ⟨hnone, hne⟩ | hlt
          · exact .inl ⟨hnone, alloc, by simp, hne⟩
          · exact .inr fun hchain => absurd hchain.1 (not_le.mpr hlt)
      · obtain ⟨hsys, hcreates⟩ := earlyUpdate_of_not_stages e.config e.dev n hstages
        simp only [asChange, Enforcer.early, hsys, hcreates, Bool.or_false] at hmatched hpending
        obtain ⟨hclass, hle⟩ : (p.classId = none → c.matched alloc q = []) ∧
            newLimit e.config q alloc ≤ p.curRateLimitBps := by
          simpa [Stages] using hstages
        refine ⟨hmatched, hpending.trans (or_congr Iff.rfl (or_congr
          (and_congr_right fun hnone => ?_) (not_congr ?_)))⟩
        · simp [hclass hnone]
        · exact (and_iff_right hle).symm

namespace Enforcer

def Creatable (e : Enforcer) (c : Call) (key : FlowMarker) (q : Qos) : Prop :=
  (e.sysInfo key q).didCreateClass = true ∨ (e.sysInfo key q).classId = none ∨
    ¬ List.IsChain (· ≥ ·)
      ((e.sysInfo key q).curRateLimitBps :: (c.allocsOf key).map (newLimit e.config q))

/--
Every priority of the bundle that matches flows has a class in the kernel, and the
settings that direct the flows to it are applied.
-/
def Recovered (e : Enforcer) (c : Call) : Prop :=
  ∀ alloc ∈ c.bundle.flowAllocs, ∀ q, (e.sysInfo (noJob alloc.flow) q).matched ≠ [] →
    (e.sysInfo (noJob alloc.flow) q).didCreateClass = true ∧
    ∃ i ∈ foundClasses e.tcLog, (e.sysInfo (noJob alloc.flow) q).classId = some i ∧
      ∀ f ∈ (e.sysInfo (noJob alloc.flow) q).matched,
        ∃ x ∈ e.iptables.controller.applied, settingFor (q.dscp e.config) (classIdText i) f = some x

variable {e e' : Enforcer} {c : Call} {a : Attempt}

theorem classed_of_ok (c : Call) (k : FlowMarker × Qos) :
    (e.classed { call := c }).sysInfo k.1 k.2 = (e.looped c k).marked := by
  rw [classed_sysInfo]
  simp [isCreated, BatchResult.isOk, Slot.marked]

theorem didCreateClass_classed_iff {key : FlowMarker} {q : Qos} :
    ((e.classed { call := c }).sysInfo key q).didCreateClass = true ↔
      (e.looped c (key, q)).Pending := by
  rw [e.classed_of_ok c (key, q), Slot.Pending, Slot.marked]
  cases hflag : (e.looped c (key, q)).2 <;> simp

theorem matched_classed (key : FlowMarker) (q : Qos) :
    ((e.classed a).sysInfo key q).matched = (e.looped a.call (key, q)).1.matched := by
  rw [e.classed_sysInfo a (key, q)]
  split_ifs <;> rfl

theorem follows_looped (e : Enforcer) (c : Call) (key : FlowMarker) (q : Qos) :
    Follows ((c.allocsOf key).map fun alloc => asChange (e.early c alloc q))
      (e.sysInfo key q, false) (e.looped c (key, q)) := by
  have hfollows := updates_follows e.slots (slotChanges (e.early c) c.bundle.flowAllocs) (key, q)
  rw [filter_slotChanges] at hfollows
  exact hfollows

theorem exists_getLast_allocsOf {alloc : FlowAlloc} (halloc : alloc ∈ c.bundle.flowAllocs) :
    ∃ last ∈ c.allocsOf (noJob alloc.flow),
      (c.allocsOf (noJob alloc.flow)).getLast? = some last := by
  have hmem : alloc ∈ c.allocsOf (noJob alloc.flow) :=
    List.mem_filter.mpr ⟨halloc, decide_eq_true rfl⟩
  have hne := List.ne_nil_of_mem hmem
  exact ⟨_, List.getLast_mem hne, List.getLast?_eq_some_getLast hne⟩

theorem matched_looped (e : Enforcer) {alloc : FlowAlloc}
    (halloc : alloc ∈ c.bundle.flowAllocs) (q : Qos) :
    (e.looped c (noJob alloc.flow, q)).1.matched = c.lastMatched (noJob alloc.flow) q := by
  obtain ⟨last, -, hlast⟩ := exists_getLast_allocsOf halloc
  rw [(pending_of_follows (e.follows_looped c (noJob alloc.flow) q)).1, Call.lastMatched, hlast]
  rfl

theorem creatable_iff {alloc : FlowAlloc} (halloc : alloc ∈ c.bundle.flowAllocs) {q : Qos}
    (hmatched : c.lastMatched (noJob alloc.flow) q ≠ []) :
    e.Creatable c (noJob alloc.flow) q ↔ (e.looped c (noJob alloc.flow, q)).Pending := by
  obtain ⟨last, hmem, hlast⟩ := exists_getLast_allocsOf halloc
  rw [Call.lastMatched, hlast] at hmatched
  have hsome : ∃ alloc' ∈ c.allocsOf (noJob alloc.flow), c.matched alloc' q ≠ [] :=
    ⟨last, hmem, hmatched⟩
  rw [(pending_of_follows (e.follows_looped c (noJob alloc.flow) q)).2, Creatable,
    and_iff_left hsome]
  simp only [Slot.Pending, Bool.false_eq_true, or_false]

theorem mem_flowSettings_of_created {config : HostEnforcerConfig} {sys : FlowSys}
    (hstaged : (stageFlow config sys).isSome)
    (hcreated : ∀ q, (sys q).matched ≠ [] → (sys q).didCreateClass = true)
    {q : Qos} {i : ℕ} (hclass : (sys q).classId = some i) {f : FlowMarker}
    (hf : f ∈ (sys q).matched) :
    ∃ x ∈ flowSettings config sys, settingFor (q.dscp config) (classIdText i) f = some x := by
  obtain ⟨settings, hsettings⟩ := Option.isSome_iff_exists.mp hstaged
  have hlacks := lacksClass_eq_false hcreated
  have hpassed : ∀ q, passedOver sys q = false := by
    intro q
    cases q <;> simp [passedOver, hlacks]
  have hsome := (stageFlow_spec hsettings).2 q (hpassed q) f hf
  rw [hclass, Option.getD_some] at hsome
  obtain ⟨x, hx⟩ := Option.isSome_iff_exists.mp hsome
  refine ⟨x, List.mem_flatMap.mpr ⟨q, by cases q <;> simp, ?_⟩, hx⟩
  rw [if_neg (by simp [hpassed q]), classSettings, hclass]
  exact List.mem_filterMap.mpr ⟨f, hf, hx⟩

/--
After a call whose commands all succeed, whatever has failed before, the priorities that
match flows have their classes and rules iff the state before the call gave it a reason to
create what was missing.
-/
theorem recovered_iff (device : String) (config : HostEnforcerConfig) (history : List Attempt)
    (hrun : exec attempt (create device config) history = some e)
    (hcall : e.attempt { call := c } = some e')
    (hok : (e.commit { call := c }).map Prod.fst = some .ok) :
    e'.Recovered c ↔
      ∀ alloc ∈ c.bundle.flowAllocs, ∀ q, c.lastMatched (noJob alloc.flow) q ≠ [] →
        e.Creatable c (noJob alloc.flow) q := by
  have hexist : e.ClassesExist :=
    exec_invariant (fun _ _ _ h => h.attempt) (classesExist_create device config) hrun
  have hclassed : (e.classed { call := c }).ClassesExist := hexist.classed
  have hexist' := hexist.attempt hcall
  obtain ⟨hstaged, iptables, happlied, rfl⟩ := exists_of_commit_ok hcall hok
  -- the last stage is over, and has only changed what is pending
  have hkeeps := stage3_keeps (e := { e.classed { call := c } with
    iptables := iptables, iptSnapshot := iptables.controller.applied }) c.bundle {}
  have hmatched : ∀ alloc ∈ c.bundle.flowAllocs, ∀ q, _ = c.lastMatched (noJob alloc.flow) q :=
    fun alloc halloc q => (hkeeps (noJob alloc.flow) q).2.1.trans
      ((matched_classed _ _).trans (e.matched_looped halloc q))
  constructor
  · intro h alloc halloc q hne
    have hdid := (h alloc halloc q (by rwa [hmatched alloc halloc q])).1
    rw [(hkeeps _ q).1] at hdid
    exact (creatable_iff halloc hne).mpr (didCreateClass_classed_iff.mp hdid)
  · intro h alloc halloc q hne
    have hcreated : ∀ q, ((e.classed { call := c }).sysInfo (noJob alloc.flow) q).matched ≠ [] →
        ((e.classed { call := c }).sysInfo (noJob alloc.flow) q).didCreateClass = true := by
      intro q hne
      rw [matched_classed, e.matched_looped halloc q] at hne
      exact didCreateClass_classed_iff.mpr ((creatable_iff halloc hne).mp (h alloc halloc q hne))
    rw [(hkeeps _ q).2.1] at hne
    have hdid := hcreated q hne
    obtain ⟨i, -, hid⟩ := hclassed _ q hdid
    obtain ⟨j, hj, hid'⟩ := hexist' _ q ((hkeeps _ q).1.trans hdid)
    obtain rfl : j = i := Option.some.inj (hid'.symm.trans ((hkeeps _ q).2.2 i hid))
    refine ⟨(hkeeps _ q).1.trans hdid, j, hj, hid', fun f hf => ?_⟩
    rw [(hkeeps _ q).2.1] at hf
    obtain ⟨x, hx, hsetting⟩ := mem_flowSettings_of_created (hstaged alloc halloc) hcreated hid hf
    refine ⟨x, ?_, hsetting⟩
    change x ∈ iptables.controller.applied
    rw [happlied, sortBatch, List.mem_insertionSort]
    exact List.mem_append_right _ (List.mem_flatMap.mpr ⟨alloc, halloc, hx⟩)

def twoHosts : Call where
  matchHostFlows := fun alloc => some {
    hipri := [{ alloc.flow with dstAddr := "10.0.0.1" }]
    lopri := [{ alloc.flow with dstAddr := "10.0.0.2" }] }
  bundle := { flowAllocs := [
    { flow := { srcDc := "a", dstDc := "b" }, hipriRateLimitBps := 100, lopriRateLimitBps := 50 }] }

/-- The batch reports a failure, but has created both classes. -/
theorem recovered_listed_classes :
    ∃ e e', exec attempt (create "eth1" {})
        [{ call := twoHosts, results := { increases := .failed fun _ => true } }] = some e ∧
      e.attempt { call := twoHosts } = some e' ∧
      (e.commit { call := twoHosts }).map Prod.fst = some .ok ∧ e'.Recovered twoHosts := by
  have hruns : ((exec attempt (create "eth1" {})
      [{ call := twoHosts, results := { increases := .failed fun _ => true } }]).map fun e =>
        ((e.attempt { call := twoHosts }).isSome, (e.commit { call := twoHosts }).map Prod.fst,
          [Qos.hipri, Qos.lopri].map fun q =>
            (e.sysInfo { srcDc := "a", dstDc := "b" } q).didCreateClass)) =
      some (true, some .ok, [true, true]) := by
    decide +kernel
  obtain ⟨e, hrun, he⟩ := Option.map_eq_some_iff.mp hruns
  simp only [Prod.mk.injEq, List.map_cons, List.map_nil, List.cons.injEq, and_true] at he
  obtain ⟨hsome, hok, hhipri, hlopri⟩ := he
  obtain ⟨e', hcall⟩ := Option.isSome_iff_exists.mp hsome
  refine ⟨e, e', hrun, hcall, hok, (recovered_iff "eth1" {} _ hrun hcall hok).mpr ?_⟩
  intro alloc halloc q _
  obtain rfl := List.mem_singleton.mp halloc
  refine .inl ?_
  cases q with
  | hipri => exact hhipri
  | lopri => exact hlopri

/-- The batch creates nothing. The same bundle is enforced again, and nothing fails. -/
theorem not_recovered_same_limits :
    ∃ e e', exec attempt (create "eth1" {})
        [{ call := twoHosts, results := { increases := .failed fun _ => false } }] = some e ∧
      e.attempt { call := twoHosts } = some e' ∧
      (e.commit { call := twoHosts }).map Prod.fst = some .ok ∧ ¬ e'.Recovered twoHosts := by
  have hruns : ((exec attempt (create "eth1" {})
      [{ call := twoHosts, results := { increases := .failed fun _ => false } }]).bind fun e =>
        (e.attempt { call := twoHosts }).map fun e' =>
          ((e.commit { call := twoHosts }).map Prod.fst,
            (e'.sysInfo { srcDc := "a", dstDc := "b" } .hipri).matched.length,
            (e'.sysInfo { srcDc := "a", dstDc := "b" } .hipri).didCreateClass)) =
      some (some .ok, 1, false) := by
    decide +kernel
  obtain ⟨e, hrun, hcalled⟩ := Option.bind_eq_some_iff.mp hruns
  obtain ⟨e', hcall, he⟩ := Option.map_eq_some_iff.mp hcalled
  obtain ⟨hok, hmatched, hdid⟩ : _ ∧ _ ∧ _ := by simpa only [Prod.mk.injEq] using he
  refine ⟨e, e', hrun, hcall, hok, fun h => ?_⟩
  have hcreated := (h _ (List.mem_singleton_self _) .hipri (List.ne_nil_of_length_pos ?_)).1
  · rw [noJob, hdid] at hcreated
    cases hcreated
  · rw [noJob, hmatched]
    exact Nat.one_pos

end Enforcer

end Recovery

section AppliedClasses

open Enforcer (foundClasses)

def NamesClassIn (log : List TcCommand) (x : Setting) : Prop :=
  ∃ i ∈ foundClasses log, x.classId = classIdText i

variable {log : List TcCommand} {x : Setting}

theorem NamesClassIn.append (h : NamesClassIn log x) (log' : List TcCommand) :
    NamesClassIn (log ++ log') x := by
  obtain ⟨i, hi, hid⟩ := h
  exact ⟨i, mem_foundClasses_append.mpr (.inl hi), hid⟩

theorem classId_of_settingFor {dscp classId : String} {f : FlowMarker}
    (h : settingFor dscp classId f = some x) : x.classId = classId := by
  simp only [settingFor, Option.bind_eq_bind, Option.bind_eq_some_iff, Option.pure_def,
    Option.some.injEq] at h
  obtain ⟨srcPort, -, dstPort, -, rfl⟩ := h
  rfl

theorem didCreateClass_of_not_passedOver {sys : FlowSys} {q : Qos}
    (hpassed : passedOver sys q = false) (hmatched : (sys q).matched ≠ []) :
    (sys q).didCreateClass = true := by
  cases q <;> simp_all [passedOver, Priority.lacksClass]

theorem namesClassIn_of_mem_flowSettings {config : HostEnforcerConfig} {sys : FlowSys}
    (hclasses : ∀ q, (sys q).didCreateClass = true → (sys q).ClassIn log)
    (hx : x ∈ flowSettings config sys) : NamesClassIn log x := by
  obtain ⟨q, -, hx⟩ := List.mem_flatMap.mp hx
  split_ifs at hx with hpassed
  · exact absurd hx List.not_mem_nil
  · rw [Bool.not_eq_true] at hpassed
    obtain ⟨f, hf, hsetting⟩ := List.mem_filterMap.mp hx
    obtain ⟨i, hi, hid⟩ :=
      hclasses q (didCreateClass_of_not_passedOver hpassed (List.ne_nil_of_mem hf))
    rw [hid, Option.getD_some] at hsetting
    exact ⟨i, hi, classId_of_settingFor hsetting⟩

namespace Enforcer

structure Directed (e : Enforcer) : Prop where
  classes : e.ClassesExist
  staged : e.iptables.controller.staged = []
  applied : ∀ x ∈ e.iptables.controller.applied, NamesClassIn e.tcLog x

variable {e e' : Enforcer} {a : Attempt}

theorem ClassesExist.namesClassIn (h : e.ClassesExist) {bundle : AllocBundle}
    (hx : x ∈ e.stagedSettings bundle) : NamesClassIn e.tcLog x := by
  obtain ⟨alloc, -, hx⟩ := List.mem_flatMap.mp hx
  exact namesClassIn_of_mem_flowSettings (h (noJob alloc.flow)) hx

/-- One call keeps what is applied directed at classes that exist. -/
theorem Directed.attempt (h : e.Directed) (hcall : e.attempt a = some e') : e'.Directed := by
  have hclasses := h.classes.attempt hcall
  obtain ⟨settings, status, iptables, hstage2, hcommit, he'⟩ := exists_of_attempt hcall
  obtain ⟨hstaged, happlied⟩ :=
    (settings.foldl System.stage e.iptables).commitChanges_keeps a.results.restoreFails
  rw [hcommit] at hstaged happlied
  have hnames : ∀ x ∈ iptables.controller.applied, NamesClassIn (e.classed a).tcLog x := by
    intro x hx
    have hmem := happlied x hx
    rw [System.foldl_stage, (stage2_spec hstage2).1] at hmem
    simp only [h.staged, List.nil_append] at hmem
    exact h.classes.classed.namesClassIn hmem
  subst he'
  split_ifs at hclasses ⊢ with hok
  · exact ⟨hclasses, hstaged, fun x hx => (hnames x hx).append _⟩
  · exact ⟨hclasses, hstaged, hnames⟩

theorem directed_create (device : String) (config : HostEnforcerConfig) :
    (create device config).Directed where
  classes := classesExist_create device config
  staged := rfl
  applied := fun _ hx => absurd hx List.not_mem_nil

/--
Whatever commands fail along a run of calls, the applied settings name classes that executed
commands have created.
-/
theorem applied_names_created (device : String) (config : HostEnforcerConfig)
    (history : List Attempt) (hrun : exec attempt (create device config) history = some e)
    (hx : x ∈ e.iptables.controller.applied) :
    ∃ i ∈ foundClasses e.tcLog, x.classId = classIdText i :=
  (exec_invariant (fun _ _ _ h => h.attempt) (directed_create device config) hrun : e.Directed)
    |>.applied x hx

/-- Of the batch only the first line is executed, and the classes are listed. -/
theorem applied_names_listed_class :
    ∃ e, ∃ x ∈ e.iptables.controller.applied, exec attempt (create "eth1" {})
        [{ call := twoHosts, results := { increases := .failed fun n => n == 0 } }] = some e ∧
      ∃ i ∈ foundClasses e.tcLog, x.classId = classIdText i := by
  have hruns : ((exec attempt (create "eth1" {})
      [{ call := twoHosts, results := { increases := .failed fun n => n == 0 } }]).map fun e =>
        e.iptables.controller.applied.length) = some 1 := by
    decide +kernel
  obtain ⟨e, hrun, hlength⟩ := Option.map_eq_some_iff.mp hruns
  obtain ⟨x, happlied⟩ := List.length_eq_one_iff.mp hlength
  have hx : x ∈ e.iptables.controller.applied := happlied ▸ List.mem_singleton_self x
  exact ⟨e, x, hx, hrun, applied_names_created "eth1" {} _ hrun hx⟩

end Enforcer

end AppliedClasses

/-- The hosts that the call matches for the flow. -/
def Call.hosts (c : Call) (key : FlowMarker) : List String :=
  (c.lastMatched key .hipri ++ c.lastMatched key .lopri).map FlowMarker.dstAddr

/-- The settings whose destination is one of the hosts. -/
def settingsOf (hosts : List String) (settings : List Setting) : List Setting :=
  settings.filter fun x => x.dstAddr ∈ hosts

theorem settingsOf_eq_nil_iff {hosts : List String} {settings : List Setting} :
    settingsOf hosts settings = [] ↔ ∀ x ∈ settings, x.dstAddr ∉ hosts := by
  simp [settingsOf, List.filter_eq_nil_iff]

theorem exists_of_mem_flowSettings {config : HostEnforcerConfig} {sys : FlowSys} {x : Setting}
    (hx : x ∈ flowSettings config sys) : ∃ q, ∃ f ∈ (sys q).matched, x.dstAddr = f.dstAddr := by
  obtain ⟨q, -, hx⟩ := List.mem_flatMap.mp hx
  split_ifs at hx
  · cases hx
  · obtain ⟨f, hf, hsetting⟩ := List.mem_filterMap.mp hx
    simp only [settingFor, Option.bind_eq_bind, Option.bind_eq_some_iff] at hsetting
    obtain ⟨_, -, _, -, hsetting⟩ := hsetting
    obtain rfl := Option.some.inj hsetting
    exact ⟨q, f, hf, rfl⟩

/-- A flow with flows of one priority only, whose class is missing, is staged with nothing. -/
theorem flowSettings_of_missing {config : HostEnforcerConfig} {sys : FlowSys}
    (hsingle : (sys .hipri).matched = [] ∨ (sys .lopri).matched = [])
    (hmissing : passedOver sys .lopri = true) : flowSettings config sys = [] := by
  simp only [passedOver, Bool.or_eq_true] at hmissing
  rcases hsingle with hempty | hempty
  · simp [flowSettings, passedOver, Priority.lacksClass, classSettings, hempty] at hmissing ⊢
    simp [hmissing]
  · have hhipri : (sys .hipri).lacksClass = true := by
      simpa [Priority.lacksClass, hempty] using hmissing
    simp [flowSettings, passedOver, hhipri]

def oneHost (hipriRateLimitBps lopriRateLimitBps : ℤ) : Call :=
  enforcing (fun _ => some ["10.0.0.1"])
    { flowAllocs := [
      { flow := { srcDc := "a", dstDc := "b" }, hipriRateLimitBps := hipriRateLimitBps
        lopriRateLimitBps := lopriRateLimitBps }] }

def failedDowngrade : Attempt where
  call := oneHost 0 50
  results := { increases := .failed fun _ => false }

end LinuxEnforcer
end HeypAgents
