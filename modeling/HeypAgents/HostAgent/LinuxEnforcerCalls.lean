import HeypAgents.Lib.IdSlots
import HeypAgents.HostAgent.IptablesSync
import HeypAgents.HostAgent.LinuxEnforcer

/-!
# Calls of the enforcer whose commands succeed

What `EnforceAllocs` does when no command is made to fail.  The first and the last
loop change both priorities of one flow after the other; each priority of each
flow is a slot.  The iptables controller stays in sync from call to call, so its
commit succeeds, and the settings that it has applied are those that the call has
staged.
-/

namespace HeypAgents
namespace LinuxEnforcer

open Iptables IdSlots

instance {P : Qos → Prop} [DecidablePred P] : Decidable (∀ q, P q) :=
  decidable_of_iff (P .hipri ∧ P .lopri)
    ⟨fun h q => match q with | .hipri => h.1 | .lopri => h.2, fun h => ⟨h _, h _⟩⟩

structure Call where
  matchHostFlows : MatchHostFlowsFunc
  bundle : AllocBundle

def Call.matched (c : Call) (alloc : FlowAlloc) (q : Qos) : List FlowMarker :=
  ((c.matchHostFlows alloc).map q.matched).getD []

section TrafficControl

variable (config : HostEnforcerConfig) (dev : String) (limit : ℤ) (p : Priority) (n : ℕ)

theorem stageTrafficControlForFlow_sys :
    (stageTrafficControlForFlow config dev limit p n).sys =
      { p with classId := some (p.classId.getD n) } := by
  unfold stageTrafficControlForFlow
  dsimp only
  split_ifs <;> rfl

theorem stageTrafficControlForFlow_creates :
    (stageTrafficControlForFlow config dev limit p n).creates = !p.didCreateClass := by
  unfold stageTrafficControlForFlow
  dsimp only
  split_ifs <;> simp_all

end TrafficControl

section Loops

variable (change : FlowAlloc → Qos → Priority → ℕ → Staged)

def Work.updateBoth (w : Work) (alloc : FlowAlloc) : Work :=
  (w.update (noJob alloc.flow) .hipri (change alloc .hipri)).update (noJob alloc.flow) .lopri
    (change alloc .lopri)

def Work.updateAll (w : Work) (allocs : List FlowAlloc) : Work :=
  allocs.foldl (Work.updateBoth change) w

namespace Enforcer

/-- What a loop of `EnforceAllocs` starts with. -/
def work (e : Enforcer) : Work where
  nextClassId := e.nextClassId
  sysInfo := e.sysInfo

/-- The changes of the first loop. -/
def early (e : Enforcer) (c : Call) (alloc : FlowAlloc) (q : Qos) : Priority → ℕ → Staged :=
  earlyUpdate e.config e.dev (newLimit e.config q alloc) (c.matched alloc q)

/-- The changes of the last loop. -/
def late (e : Enforcer) (_ : FlowAlloc) (_ : Qos) : Priority → ℕ → Staged :=
  lateUpdate e.config e.dev

variable (e : Enforcer) (c : Call) (w : Work)

theorem foldlM_increaseLimits (w₀ : Work) (allocs : List FlowAlloc) :
    allocs.foldlM (fun w alloc =>
        (c.matchHostFlows alloc).map (increaseLimits e.config e.dev w alloc)) w₀ = some w ↔
      (∀ alloc ∈ allocs, (c.matchHostFlows alloc).isSome) ∧
        w = w₀.updateAll (e.early c) allocs := by
  induction allocs generalizing w₀ with
  | nil =>
    simp only [List.foldlM_nil, Option.pure_def, Option.some.injEq, List.not_mem_nil,
      false_imp_iff, implies_true, true_and, Work.updateAll, List.foldl_nil]
    exact eq_comm
  | cons alloc allocs ih =>
    rw [List.foldlM_cons, Option.bind_eq_bind, List.forall_mem_cons]
    cases hmatch : c.matchHostFlows alloc with
    | none => simp
    | some matched =>
      have hstep : increaseLimits e.config e.dev w₀ alloc matched =
          w₀.updateBoth (e.early c) alloc := by
        simp [increaseLimits, Work.updateBoth, early, Call.matched, hmatch]
      simp [ih, hstep, Work.updateAll]

theorem stage1_eq_some_iff :
    e.stage1 c.matchHostFlows c.bundle = some w ↔
      (∀ alloc ∈ c.bundle.flowAllocs, (c.matchHostFlows alloc).isSome) ∧
        w = e.work.updateAll (e.early c) c.bundle.flowAllocs :=
  e.foldlM_increaseLimits c w e.work c.bundle.flowAllocs

theorem afterStage1_sysInfo (key : FlowMarker) (q : Qos) :
    (e.afterStage1 {} w).sysInfo key q =
      if w.classesToCreate.contains (key, q) then
        { w.sysInfo key q with didCreateClass := true }
      else w.sysInfo key q := by
  simp [afterStage1, isCreated, BatchResult.isOk]

end Enforcer

end Loops

section Slots

abbrev Slot := Priority × Bool

def Slot.classId (slot : Slot) : Option ℕ := slot.1.classId

def asChange (change : Priority → ℕ → Staged) : Change Slot TcCommand := fun slot n =>
  { record := ((change slot.1 n).sys, slot.2 || (change slot.1 n).creates)
    next := (change slot.1 n).nextClassId
    commands := (change slot.1 n).commands }

def Work.slots (w : Work) (tcLog : List TcCommand) : State (FlowMarker × Qos) Slot TcCommand where
  next := w.nextClassId
  slots := fun k => (w.sysInfo k.1 k.2, w.classesToCreate.contains k)
  log := tcLog ++ w.tcBatchInput

variable {w : Work} {tcLog : List TcCommand} {key : FlowMarker} {q : Qos}

theorem Work.slots_update {change : Priority → ℕ → Staged} :
    (w.update key q change).slots tcLog = (w.slots tcLog).update (key, q) (asChange change) := by
  have hslots : ((w.update key q change).slots tcLog).slots =
      ((w.slots tcLog).update (key, q) (asChange change)).slots := by
    funext k
    obtain ⟨key', q'⟩ := k
    by_cases hk : (key', q') = (key, q)
    · obtain ⟨rfl, rfl⟩ := Prod.mk.inj hk
      rw [State.update_slots_self]
      cases hcreates : (change (w.sysInfo key' q') w.nextClassId).creates <;>
        simp [Work.slots, Work.update, asChange, hcreates]
    · rw [State.update_slots_of_ne hk]
      have hsys : (w.update key q change).sysInfo key' q' = w.sysInfo key' q' := by
        by_cases hkey : key' = key
        · subst hkey
          have hq : q' ≠ q := fun h => hk (by rw [h])
          simp [Work.update, hq]
        · simp [Work.update, hkey]
      have hcreate : (w.update key q change).classesToCreate.contains (key', q') =
          w.classesToCreate.contains (key', q') := by
        simp only [Work.update]
        split_ifs
        · simp [List.contains_eq_mem, hk]
        · simp
      exact Prod.ext hsys hcreate
  rw [State.mk.injEq]
  refine ⟨rfl, hslots, ?_⟩
  simp [Work.slots, Work.update, asChange]

variable {change : FlowAlloc → Qos → Priority → ℕ → Staged} {allocs : List FlowAlloc}

/-- The changes of a loop, slot by slot. -/
def slotChanges (change : FlowAlloc → Qos → Priority → ℕ → Staged) (allocs : List FlowAlloc) :
    List ((FlowMarker × Qos) × Change Slot TcCommand) :=
  allocs.flatMap fun alloc => [Qos.hipri, Qos.lopri].map fun q =>
    ((noJob alloc.flow, q), asChange (change alloc q))

theorem mem_slotChanges {alloc : FlowAlloc} (halloc : alloc ∈ allocs) (q : Qos) :
    ((noJob alloc.flow, q), asChange (change alloc q)) ∈ slotChanges change allocs := by
  refine List.mem_flatMap.mpr ⟨alloc, halloc, List.mem_map.mpr ⟨q, ?_, rfl⟩⟩
  cases q <;> simp

theorem exists_of_mem_slotChanges
    {x : (FlowMarker × Qos) × Change Slot TcCommand} (hx : x ∈ slotChanges change allocs) :
    ∃ alloc ∈ allocs, ∃ q, x = ((noJob alloc.flow, q), asChange (change alloc q)) := by
  obtain ⟨alloc, halloc, hx⟩ := List.mem_flatMap.mp hx
  obtain ⟨q, -, rfl⟩ := List.mem_map.mp hx
  exact ⟨alloc, halloc, q, rfl⟩

theorem Work.slots_updateAll (w : Work) (tcLog : List TcCommand) :
    (w.updateAll change allocs).slots tcLog =
      updates (w.slots tcLog) (slotChanges change allocs) := by
  induction allocs generalizing w with
  | nil => rfl
  | cons alloc allocs ih =>
    have hboth : (w.updateBoth change alloc).slots tcLog =
        updates (w.slots tcLog) (slotChanges change [alloc]) := by
      rw [updateBoth, slots_update, slots_update]
      rfl
    have hchanges : slotChanges change (alloc :: allocs) =
        slotChanges change [alloc] ++ slotChanges change allocs := by
      simp [slotChanges]
    rw [hchanges, updates, List.foldl_append, ← updates, ← updates, ← hboth]
    exact ih _

namespace Enforcer

def slots (e : Enforcer) : State (FlowMarker × Qos) Slot TcCommand := e.work.slots e.tcLog

theorem slots_log (e : Enforcer) : e.slots.log = e.tcLog := List.append_nil _

end Enforcer

end Slots

namespace Enforcer

/-- `EnforceAllocs` when every command succeeds. -/
def call (e : Enforcer) (c : Call) : Option Enforcer := e.enforceAllocs c.matchHostFlows c.bundle {}

/-- The iptables controller between the calls. -/
structure Ready (iptables : System) : Prop where
  synced : iptables.Synced
  staged : iptables.controller.staged = []
  ignored : iptables.controller.dscpsToIgnoreClassId = []

theorem ready_create (device : String) (config : HostEnforcerConfig) :
    Ready (create device config).iptables :=
  ⟨System.synced_create device [], rfl, rfl⟩

theorem Ready.commit {iptables : System} (h : Ready iptables) (settings : List Setting) :
    ∃ iptables', (settings.foldl System.stage iptables).commitChanges false = (.ok, iptables') ∧
      Ready iptables' ∧ iptables'.controller.dev = iptables.controller.dev ∧
      iptables'.controller.applied = sortBatch settings := by
  rw [System.foldl_stage, h.staged, List.nil_append]
  have hstaged : System.Synced
      { iptables with controller := { iptables.controller with staged := settings } } :=
    ⟨h.synced.toAdd, h.synced.toDel, h.synced.inSync⟩
  have hdrops : System.DropsNoIgnored
      { iptables with controller := { iptables.controller with staged := settings } }
      (.commitChanges false) := by
    intro x _
    simp [h.ignored]
  obtain ⟨hok, -⟩ := hstaged.commitsInSync_iff.mpr hdrops
  have hcontroller := System.controller_of_ok hok
  refine ⟨_, Prod.ext hok rfl, ⟨hstaged.call (c := .commitChanges false) rfl hdrops rfl, ?_, ?_⟩,
    ?_, ?_⟩ <;> rw [hcontroller]
  · rfl
  · exact h.ignored
  · rfl
  · rfl

theorem Ready.of_commit {iptables iptables' : System} {settings : List Setting} (h : Ready iptables)
    (hcommit : (settings.foldl System.stage iptables).commitChanges false = (.ok, iptables')) :
    Ready iptables' ∧ iptables'.controller.dev = iptables.controller.dev ∧
      iptables'.controller.applied = sortBatch settings := by
  obtain ⟨t, ht, hready⟩ := h.commit settings
  obtain rfl : t = iptables' := congrArg Prod.snd (ht.symm.trans hcommit)
  exact hready

def committed (e : Enforcer) (c : Call) (iptables : System) : Enforcer :=
  { e.afterStage1 {} (e.work.updateAll (e.early c) c.bundle.flowAllocs) with
    iptables := iptables, iptSnapshot := iptables.controller.applied }

variable {e e' : Enforcer} {c : Call}

/-- What a call does when no command fails. -/
theorem call_eq_some_iff (h : Ready e.iptables) :
    e.call c = some e' ↔
      (∀ alloc ∈ c.bundle.flowAllocs, (c.matchHostFlows alloc).isSome) ∧
      ∃ settings iptables, (e.committed c iptables).stage2 c.bundle = some settings ∧
        (settings.foldl System.stage e.iptables).commitChanges false = (.ok, iptables) ∧
        e' = (e.committed c iptables).stage3 c.bundle {} := by
  have hiptables : ∀ w, (e.afterStage1 {} w).iptables = e.iptables := fun _ => rfl
  constructor
  · intro hcall
    simp only [call, enforceAllocs, Option.bind_eq_bind, Option.bind_eq_some_iff] at hcall
    obtain ⟨w, hw, settings, hsettings, hcall⟩ := hcall
    obtain ⟨hmatch, rfl⟩ := (e.stage1_eq_some_iff c w).mp hw
    obtain ⟨iptables, hcommit, -⟩ := h.commit settings
    refine ⟨hmatch, settings, iptables, hsettings, hcommit, ?_⟩
    rw [hiptables, hcommit, if_pos rfl] at hcall
    exact (Option.some.inj hcall).symm
  · rintro ⟨hmatch, settings, iptables, hsettings, hcommit, rfl⟩
    have hw := (e.stage1_eq_some_iff c _).mpr ⟨hmatch, rfl⟩
    have hsettings' : (e.afterStage1 {} (e.work.updateAll (e.early c) c.bundle.flowAllocs)).stage2
        c.bundle = some settings := hsettings
    simp only [call, enforceAllocs, hw, hsettings', hiptables, hcommit, Option.bind_eq_bind,
      Option.bind_some, if_true]
    rfl

end Enforcer

end LinuxEnforcer
end HeypAgents
