import HeypAgents.HostAgent.LinuxEnforcerCalls

/-!
# The rate limits in the kernel

The last command for the class of a priority against the limit in the bundle, for
calls whose commands all succeed.  With distinct flows no loop changes a slot
twice, so the slots can be followed one by one.

The remembered limit follows the bundles also while the priority matches nothing
and no command is sent, so a limit that comes back unchanged may never have
reached the kernel.
-/

namespace HeypAgents
namespace LinuxEnforcer

open Iptables Runs IdSlots
open QosEncoding (MatchedHostFlows)

section Slots

variable {change : Priority → ℕ → Staged}

structure ClassChange (change : Priority → ℕ → Staged) : Prop where
  keeps : ∀ {p n i}, p.classId = some i →
    (change p n).sys.classId = some i ∧ (change p n).nextClassId = n
  takes : ∀ {p n}, p.classId = none →
    (change p n).sys.classId = none ∧ (change p n).nextClassId = n ∨
      (change p n).sys.classId = some n ∧ (change p n).nextClassId = n + 1
  targets : ∀ {p n}, ∀ c ∈ (change p n).commands, (change p n).sys.classId = some c.classId

theorem ClassChange.isLocal (h : ClassChange change) :
    IsLocal Slot.classId TcCommand.classId (asChange change) :=
  ⟨fun hi => h.keeps hi, fun hi => h.takes hi, fun c hc => h.targets c hc⟩

variable (config : HostEnforcerConfig) (dev : String)

theorem stageTrafficControlForFlow_nextClassId (limit : ℤ) (p : Priority) (n : ℕ) :
    (stageTrafficControlForFlow config dev limit p n).nextClassId =
      if p.classId.isNone then n + 1 else n := by
  unfold stageTrafficControlForFlow
  dsimp only
  split_ifs <;> rfl

theorem stageTrafficControlForFlow_commands (limit : ℤ) (p : Priority) (n : ℕ) :
    ∀ c ∈ (stageTrafficControlForFlow config dev limit p n).commands,
      c.classId = p.classId.getD n := by
  unfold stageTrafficControlForFlow
  dsimp only
  split_ifs <;> simp [tcCommand]

theorem classChange_stageTrafficControlForFlow (limit : ℤ) :
    ClassChange (stageTrafficControlForFlow config dev limit) := by
  refine ⟨fun {p n i} hi => ?_, fun {p n} hi => .inr ?_, fun {p n} c hc => ?_⟩
  · rw [stageTrafficControlForFlow_sys, stageTrafficControlForFlow_nextClassId, hi]
    exact ⟨rfl, rfl⟩
  · rw [stageTrafficControlForFlow_sys, stageTrafficControlForFlow_nextClassId, hi]
    exact ⟨rfl, rfl⟩
  · rw [stageTrafficControlForFlow_sys, stageTrafficControlForFlow_commands _ _ _ _ _ c hc]

theorem classChange_earlyUpdate (limit : ℤ) (matched : List FlowMarker) :
    ClassChange (earlyUpdate config dev limit matched) := by
  have hstage := classChange_stageTrafficControlForFlow config dev limit
  refine ⟨fun {p n i} hi => ?_, fun {p n} hi => ?_, fun {p n} c => ?_⟩
  · unfold earlyUpdate
    dsimp only
    split_ifs
    · exact hstage.keeps (p := { p with matched := matched }) hi
    · exact ⟨hi, rfl⟩
    · exact ⟨hi, rfl⟩
  · unfold earlyUpdate
    dsimp only
    split_ifs
    · exact hstage.takes (p := { p with matched := matched }) hi
    · exact .inl ⟨hi, rfl⟩
    · exact .inl ⟨hi, rfl⟩
  · unfold earlyUpdate
    dsimp only
    split_ifs
    · exact hstage.targets (p := { p with matched := matched }) c
    · simp
    · simp

theorem classChange_lateUpdate : ClassChange (lateUpdate config dev) := by
  refine ⟨fun {p n i} hi => ?_, fun {p n} hi => ?_, fun {p n} c => ?_⟩
  · unfold lateUpdate
    split_ifs
    · exact (classChange_stageTrafficControlForFlow config dev p.curRateLimitBps).keeps hi
    · exact ⟨hi, rfl⟩
  · unfold lateUpdate
    split_ifs
    · exact (classChange_stageTrafficControlForFlow config dev p.curRateLimitBps).takes hi
    · exact .inl ⟨hi, rfl⟩
  · unfold lateUpdate
    split_ifs
    · exact (classChange_stageTrafficControlForFlow config dev p.curRateLimitBps).targets c
    · simp

end Slots

section Loops

variable {change : FlowAlloc → Qos → Priority → ℕ → Staged} {allocs : List FlowAlloc}

theorem isLocal_of_mem_slotChanges (hchange : ∀ alloc q, ClassChange (change alloc q)) :
    ∀ x ∈ slotChanges change allocs, IsLocal Slot.classId TcCommand.classId x.2 := by
  intro x hx
  obtain ⟨alloc, -, q, rfl⟩ := exists_of_mem_slotChanges hx
  exact (hchange alloc q).isLocal

theorem nodup_slotChanges (hdistinct : (allocs.map fun alloc => noJob alloc.flow).Nodup) :
    ((slotChanges change allocs).map Prod.fst).Nodup := by
  rw [slotChanges, List.map_flatMap, List.nodup_flatMap]
  refine ⟨fun alloc _ => by simp, ?_⟩
  rw [List.Nodup, List.pairwise_map] at hdistinct
  refine hdistinct.imp fun {a b} hne => ?_
  simp [List.disjoint_left, hne]

namespace Enforcer

def ValidSlots (e : Enforcer) : Prop := Valid Slot.classId TcCommand.classId e.slots

variable {e : Enforcer}

theorem ValidSlots.loop (h : e.ValidSlots) (hchange : ∀ alloc q, ClassChange (change alloc q))
    (hdistinct : (allocs.map fun alloc => noJob alloc.flow).Nodup)
    {alloc : FlowAlloc} (halloc : alloc ∈ allocs) (q : Qos) :
    ∃ n, e.nextClassId ≤ n ∧
      (e.work.updateAll change allocs).sysInfo (noJob alloc.flow) q =
        (change alloc q (e.sysInfo (noJob alloc.flow) q) n).sys ∧
      (e.work.updateAll change allocs).classesToCreate.contains (noJob alloc.flow, q) =
        (change alloc q (e.sysInfo (noJob alloc.flow) q) n).creates ∧
      ∀ i, (change alloc q (e.sysInfo (noJob alloc.flow) q) n).sys.classId = some i →
        commandsFor TcCommand.classId (e.tcLog ++ (e.work.updateAll change allocs).tcBatchInput) i =
          commandsFor TcCommand.classId e.tcLog i ++
            (change alloc q (e.sysInfo (noJob alloc.flow) q) n).commands := by
  obtain ⟨n, hn, hslot, hlog⟩ := Valid.updates_spec h (isLocal_of_mem_slotChanges hchange)
    (nodup_slotChanges hdistinct) (mem_slotChanges halloc q)
  rw [slots, ← Work.slots_updateAll] at hslot hlog
  refine ⟨n, hn, congrArg Prod.fst hslot, congrArg Prod.snd hslot, fun i hi => ?_⟩
  have hlog' := hlog i (by rw [hslot]; exact hi)
  rwa [← slots, slots_log] at hlog'

theorem ValidSlots.loop_frame (h : e.ValidSlots) (hchange : ∀ alloc q, ClassChange (change alloc q))
    {key : FlowMarker} (hkey : ∀ alloc ∈ allocs, noJob alloc.flow ≠ key) (q : Qos) :
    (e.work.updateAll change allocs).sysInfo key q = e.sysInfo key q ∧
      (e.work.updateAll change allocs).classesToCreate.contains (key, q) = false ∧
      ∀ i, (e.sysInfo key q).classId = some i →
        commandsFor TcCommand.classId (e.tcLog ++ (e.work.updateAll change allocs).tcBatchInput) i =
          commandsFor TcCommand.classId e.tcLog i := by
  have hne : ∀ x ∈ slotChanges change allocs, x.1 ≠ (key, q) := by
    intro x hx hxk
    obtain ⟨alloc, halloc, q', rfl⟩ := exists_of_mem_slotChanges hx
    exact hkey alloc halloc (Prod.mk.inj hxk).1
  have hslot : (updates e.slots (slotChanges change allocs)).slots (key, q) =
      e.slots.slots (key, q) := updates_slots_of_ne hne
  rw [slots, ← Work.slots_updateAll] at hslot
  refine ⟨congrArg Prod.fst hslot, congrArg Prod.snd hslot, fun i hi => ?_⟩
  have hlog := Valid.updates_frame h (isLocal_of_mem_slotChanges hchange) hne hi
  rwa [slots_log, slots, ← Work.slots_updateAll] at hlog

theorem ValidSlots.of_updateAll
    {e' : Enforcer} (h : e.ValidSlots) (hchange : ∀ alloc q, ClassChange (change alloc q))
    (hnext : e'.nextClassId = (e.work.updateAll change allocs).nextClassId)
    (hids : ∀ key q, (e'.sysInfo key q).classId =
      ((e.work.updateAll change allocs).sysInfo key q).classId)
    (hlog : e'.tcLog = e.tcLog ++ (e.work.updateAll change allocs).tcBatchInput) :
    e'.ValidSlots := by
  have hlocal : ∀ x ∈ slotChanges change allocs, IsLocal Slot.classId TcCommand.classId x.2 :=
    isLocal_of_mem_slotChanges hchange
  have hvalid := Valid.updates h hlocal
  rw [slots, ← Work.slots_updateAll] at hvalid
  refine hvalid.congr hnext (fun k => hids k.1 k.2) ?_
  rw [slots_log]
  exact hlog

end Enforcer

end Loops

section OneSlot

variable (config : HostEnforcerConfig) (dev : String)

def Staged.marked (staged : Staged) : Priority :=
  if staged.creates then { staged.sys with didCreateClass := true } else staged.sys

structure Priority.Settled (p : Priority) : Prop where
  created : p.didCreateClass = p.classId.isSome
  unlimited : p.classId = none → p.curRateLimitBps = 0
  done : p.updateAfterIptChange = false

variable {limit : ℤ} {matched : List FlowMarker} {p : Priority} {n n' i : ℕ}

/-- The commands that a call sends for a priority whose class is `i` afterwards. -/
def callCommands (limit : ℤ) (matched : List FlowMarker) (p : Priority) (i : ℕ) : List TcCommand :=
  if p.classId = none then [tcCommand config dev .classAdd i limit]
  else if matched ≠ [] ∧ limit ≠ p.curRateLimitBps then
    [tcCommand config dev .classChange i limit]
  else []

structure CallSpec (limit : ℤ) (matched : List FlowMarker) (p : Priority)
    (early late : Staged) : Prop where
  settled : late.sys.Settled
  matched_eq : late.sys.matched = matched
  limit_eq : late.sys.curRateLimitBps = limit
  hasClass : matched ≠ [] → late.sys.classId ≠ none
  sameClass : late.sys.classId = early.sys.classId
  commands : ∀ i, late.sys.classId = some i →
    early.commands ++ late.commands = callCommands config dev limit matched p i

theorem callSpec_of_none (hp : p.Settled) (hnone : p.classId = none) (hlimit : 0 ≤ limit) :
    CallSpec config dev limit matched p (earlyUpdate config dev limit matched p n)
      (lateUpdate config dev (earlyUpdate config dev limit matched p n).marked n') := by
  have hcur := hp.unlimited hnone
  have hcreated : p.didCreateClass = false := by rw [hp.created, hnone]; rfl
  have hdone := hp.done
  by_cases hcreate : matched ≠ [] ∨ 0 < limit
  · have hearly : earlyUpdate config dev limit matched p n =
        { sys := { p with classId := some n, matched := matched, curRateLimitBps := limit }
          nextClassId := n + 1
          commands := [tcCommand config dev .classAdd n limit]
          creates := true } := by
      simp [earlyUpdate, stageTrafficControlForFlow, hnone, hcur, hcreated, hcreate, hdone]
    have hlate : lateUpdate config dev (earlyUpdate config dev limit matched p n).marked n' =
        { sys := { p with
            classId := some n, matched := matched, curRateLimitBps := limit
            didCreateClass := true }
          nextClassId := n' } := by
      simp [hearly, lateUpdate, Staged.marked, hdone]
    rw [hlate, hearly]
    exact ⟨⟨rfl, by simp, hdone⟩, rfl, rfl, by simp, rfl, by simp [callCommands, hnone]⟩
  · obtain ⟨rfl, hzero⟩ : matched = [] ∧ limit = 0 := by
      rw [not_or, not_ne_iff] at hcreate
      exact ⟨hcreate.1, by omega⟩
    have hearly : earlyUpdate config dev limit [] p n =
        { sys := { p with matched := [], curRateLimitBps := 0 }, nextClassId := n } := by
      simp [earlyUpdate, hnone, hcur, hzero]
    have hlate : lateUpdate config dev (earlyUpdate config dev limit [] p n).marked n' =
        { sys := { p with matched := [], curRateLimitBps := 0 }, nextClassId := n' } := by
      simp [hearly, lateUpdate, Staged.marked, hdone]
    rw [hlate, hearly]
    exact ⟨⟨hp.created, fun _ => rfl, hdone⟩, rfl, hzero.symm, by simp, rfl, by simp [hnone]⟩

theorem callSpec_of_some (hp : p.Settled) (hsome : p.classId = some i) :
    CallSpec config dev limit matched p (earlyUpdate config dev limit matched p n)
      (lateUpdate config dev (earlyUpdate config dev limit matched p n).marked n') := by
  obtain ⟨_, cur, created, pending, old⟩ := p
  obtain rfl := hsome
  obtain rfl : created = true := hp.created
  obtain rfl : pending = false := hp.done
  have hearly : earlyUpdate config dev limit matched ⟨some i, cur, true, false, old⟩ n =
      { sys := ⟨some i, limit, true, decide (limit < cur), matched⟩
        nextClassId := n
        commands := if matched ≠ [] ∧ cur < limit then
          [tcCommand config dev .classChange i limit] else [] } := by
    rcases lt_trichotomy limit cur with hlt | heq | hlt
    · simp [earlyUpdate, hlt, hlt.not_gt]
    · simp [earlyUpdate, heq]
    · by_cases hmatched : matched = [] <;>
        simp [earlyUpdate, stageTrafficControlForFlow, hlt, hlt.not_gt, hmatched]
  have hlate : lateUpdate config dev
      (earlyUpdate config dev limit matched ⟨some i, cur, true, false, old⟩ n).marked n' =
      { sys := ⟨some i, limit, true, false, matched⟩
        nextClassId := n'
        commands := if matched ≠ [] ∧ limit < cur then
          [tcCommand config dev .classChange i limit] else [] } := by
    rw [hearly]
    by_cases hlt : limit < cur
    · by_cases hmatched : matched = [] <;>
        simp [lateUpdate, Staged.marked, stageTrafficControlForFlow, hlt, hmatched]
    · simp [lateUpdate, Staged.marked, hlt]
  rw [hlate, hearly]
  refine ⟨⟨rfl, by simp, rfl⟩, rfl, rfl, by simp, rfl, fun j hj => ?_⟩
  obtain rfl : i = j := Option.some.inj hj
  rcases lt_trichotomy limit cur with hlt | heq | hlt
  · simp [callCommands, hlt, hlt.ne, hlt.not_gt]
  · simp [callCommands, heq]
  · simp [callCommands, hlt, hlt.ne', hlt.not_gt]

/-- What a call does for one priority. -/
theorem callSpec (hp : p.Settled) (hlimit : 0 ≤ limit) :
    CallSpec config dev limit matched p (earlyUpdate config dev limit matched p n)
      (lateUpdate config dev (earlyUpdate config dev limit matched p n).marked n') := by
  cases hclass : p.classId with
  | none => exact callSpec_of_none config dev hp hclass hlimit
  | some i => exact callSpec_of_some config dev hp hclass

end OneSlot

structure Call.WellFormed (c : Call) : Prop where
  distinct : (c.bundle.flowAllocs.map fun alloc => noJob alloc.flow).Nodup
  nonneg : ∀ alloc ∈ c.bundle.flowAllocs, ∀ q : Qos, 0 ≤ q.rateLimitBps alloc

/-- How often a class has been added. -/
def timesAdded (tcLog : List TcCommand) (i : ℕ) : ℕ :=
  (commandsFor TcCommand.classId tcLog i).countP fun c => c.op == .classAdd

def lastRate (tcLog : List TcCommand) (i : ℕ) : Option ℚ :=
  (commandsFor TcCommand.classId tcLog i).getLast?.map TcCommand.rateMbit

namespace Enforcer

/-- The state between the calls. -/
structure Steady (e : Enforcer) : Prop where
  iptables : Ready e.iptables
  limited : ∀ q : Qos, q.isLimited e.config = true
  valid : e.ValidSlots
  settled : ∀ key q, (e.sysInfo key q).Settled
  added : ∀ key q i, (e.sysInfo key q).classId = some i → timesAdded e.tcLog i = 1

theorem steady_create (device : String) {config : HostEnforcerConfig}
    (hlimited : ∀ q : Qos, q.isLimited config = true) :
    (create device config).Steady where
  iptables := ready_create device config
  limited := hlimited
  valid := ⟨fun hi => by simp [slots, Work.slots, work, create, Slot.classId] at hi,
    fun hi => by simp [slots, Work.slots, work, create, Slot.classId] at hi,
    fun c hc => by simp [slots, Work.slots, work, create] at hc⟩
  settled := fun _ _ => ⟨rfl, fun _ => rfl, rfl⟩
  added := fun _ _ i hi => by simp [create] at hi

variable {e e' : Enforcer} {c : Call}

structure Called (e e' : Enforcer) (c : Call) (alloc : FlowAlloc) (q : Qos) : Prop where
  settled : (e'.sysInfo (noJob alloc.flow) q).Settled
  matched_eq : (e'.sysInfo (noJob alloc.flow) q).matched = c.matched alloc q
  hasClass : c.matched alloc q ≠ [] → (e'.sysInfo (noJob alloc.flow) q).classId ≠ none
  origin : ∀ i, (e'.sysInfo (noJob alloc.flow) q).classId = some i →
    (e.sysInfo (noJob alloc.flow) q).classId = some i ∨
      (e.sysInfo (noJob alloc.flow) q).classId = none ∧ commandsFor TcCommand.classId e.tcLog i = []
  commands : ∀ i, (e'.sysInfo (noJob alloc.flow) q).classId = some i →
    commandsFor TcCommand.classId e'.tcLog i =
      commandsFor TcCommand.classId e.tcLog i ++
        callCommands e.config e.dev (q.rateLimitBps alloc) (c.matched alloc q)
          (e.sysInfo (noJob alloc.flow) q) i

theorem classChange_early (e : Enforcer) (c : Call) (alloc : FlowAlloc) (q : Qos) :
    ClassChange (e.early c alloc q) :=
  classChange_earlyUpdate _ _ _ _

theorem classChange_late (e : Enforcer) (alloc : FlowAlloc) (q : Qos) :
    ClassChange (e.late alloc q) :=
  classChange_lateUpdate _ _

theorem ValidSlots.committed (h : e.ValidSlots) (c : Call) (iptables : System) :
    (e.committed c iptables).ValidSlots := by
  refine h.of_updateAll (e.classChange_early c) rfl (fun key q => ?_) rfl
  rw [Enforcer.committed, afterStage1_sysInfo]
  split_ifs <;> rfl

theorem Steady.called (h : e.Steady) (hc : c.WellFormed) (hcall : e.call c = some e')
    {alloc : FlowAlloc} (halloc : alloc ∈ c.bundle.flowAllocs) (q : Qos) :
    Called e e' c alloc q := by
  obtain ⟨-, settings, iptables, -, hcommit, rfl⟩ := (call_eq_some_iff h.iptables).mp hcall
  have hdev : (e.committed c iptables).dev = e.dev := (h.iptables.of_commit hcommit).2.1
  obtain ⟨n, hn, hsys, hcreates, hlog⟩ := h.valid.loop (e.classChange_early c) hc.distinct halloc q
  have hmarked : (e.committed c iptables).sysInfo (noJob alloc.flow) q =
      (e.early c alloc q (e.sysInfo (noJob alloc.flow) q) n).marked := by
    rw [Enforcer.committed, afterStage1_sysInfo, hsys, hcreates]
    rfl
  obtain ⟨n', -, hsys', -, hlog'⟩ := (h.valid.committed c iptables).loop
    (classChange_late (e.committed c iptables)) hc.distinct halloc q
  have hspec : CallSpec e.config e.dev (q.rateLimitBps alloc) (c.matched alloc q)
      (e.sysInfo (noJob alloc.flow) q) (e.early c alloc q (e.sysInfo (noJob alloc.flow) q) n)
      (lateUpdate e.config e.dev
        (e.early c alloc q (e.sysInfo (noJob alloc.flow) q) n).marked n') := by
    rw [early, newLimit, if_pos (h.limited q)]
    exact callSpec e.config e.dev (h.settled _ q) (hc.nonneg alloc halloc q)
  rw [late, hdev, hmarked] at hsys' hlog'
  have hfinal : ((e.committed c iptables).stage3 c.bundle {}).sysInfo (noJob alloc.flow) q =
      (lateUpdate e.config e.dev
        (e.early c alloc q (e.sysInfo (noJob alloc.flow) q) n).marked n').sys := hsys'
  refine ⟨?_, ?_, ?_, fun i hi => ?_, fun i hi => ?_⟩ <;> rw [hfinal] at *
  · exact hspec.settled
  · exact hspec.matched_eq
  · exact hspec.hasClass
  · rw [hspec.sameClass] at hi
    rcases (e.classChange_early c alloc q).isLocal.id_cases (r := (_, false)) hi with
      hold | ⟨hnone, rfl, -⟩
    · exact .inl hold
    · have hnew := h.valid.commandsFor_eq_nil hn
      rw [slots_log] at hnew
      exact .inr ⟨hnone, hnew⟩
  · have hlate := hlog' i hi
    rw [← hspec.commands i hi, ← List.append_assoc, ← hlog i (hspec.sameClass ▸ hi)]
    exact hlate

theorem Steady.frame (h : e.Steady) (hcall : e.call c = some e') {key : FlowMarker}
    (hkey : ∀ alloc ∈ c.bundle.flowAllocs, noJob alloc.flow ≠ key) (q : Qos) :
    e'.sysInfo key q = e.sysInfo key q ∧
      ∀ i, (e.sysInfo key q).classId = some i →
        commandsFor TcCommand.classId e'.tcLog i = commandsFor TcCommand.classId e.tcLog i := by
  obtain ⟨-, settings, iptables, -, -, rfl⟩ := (call_eq_some_iff h.iptables).mp hcall
  obtain ⟨hsys, hcreates, hlog⟩ := h.valid.loop_frame (e.classChange_early c) hkey q
  have hcommitted : (e.committed c iptables).sysInfo key q = e.sysInfo key q := by
    rw [Enforcer.committed, afterStage1_sysInfo, hsys, hcreates]
    rfl
  obtain ⟨hsys', -, hlog'⟩ := (h.valid.committed c iptables).loop_frame
    (classChange_late (e.committed c iptables)) hkey q
  rw [hcommitted] at hsys' hlog'
  exact ⟨hsys', fun i hi => (hlog' i hi).trans (hlog i hi)⟩

variable {alloc : FlowAlloc} {q : Qos} {i : ℕ}

theorem Called.timesAdded_eq_one (h : Called e e' c alloc q) (he : e.Steady)
    (hi : (e'.sysInfo (noJob alloc.flow) q).classId = some i) : timesAdded e'.tcLog i = 1 := by
  rw [timesAdded, h.commands i hi, List.countP_append, ← timesAdded]
  rcases h.origin i hi with hold | ⟨hnone, hnew⟩
  · have hchange : (callCommands e.config e.dev (q.rateLimitBps alloc) (c.matched alloc q)
        (e.sysInfo (noJob alloc.flow) q) i).countP (fun c => c.op == .classAdd) = 0 := by
      unfold callCommands
      split_ifs with hnone
      · simp [hold] at hnone
      · rfl
      · rfl
    rw [hchange, he.added _ q i hold]
  · simp [timesAdded, hnew, callCommands, hnone, tcCommand]

theorem rateLimitMbps_eq (config : HostEnforcerConfig) (limit : ℤ) :
    rateLimitMbps config limit = max (limit : ℚ) config.minRateLimitBps / 2 ^ 20 := by
  rw [rateLimitMbps, Int.cast_max]
  norm_num

theorem Called.lastRate_eq_iff (h : Called e e' c alloc q) (hmatched : c.matched alloc q ≠ [])
    (hi : (e'.sysInfo (noJob alloc.flow) q).classId = some i) :
    lastRate e'.tcLog i = some (max (q.rateLimitBps alloc : ℚ) e.config.minRateLimitBps / 2 ^ 20) ↔
      ((e.sysInfo (noJob alloc.flow) q).curRateLimitBps = q.rateLimitBps alloc →
        ∀ j ∈ (e.sysInfo (noJob alloc.flow) q).classId, lastRate e.tcLog j =
          some (max (q.rateLimitBps alloc : ℚ) e.config.minRateLimitBps / 2 ^ 20)) := by
  rw [lastRate, h.commands i hi, ← rateLimitMbps_eq]
  rcases h.origin i hi with hold | ⟨hnone, -⟩
  · by_cases hcur : (e.sysInfo (noJob alloc.flow) q).curRateLimitBps = q.rateLimitBps alloc
    · simp [callCommands, hold, hcur, lastRate]
    · simp [callCommands, hold, hcur, Ne.symm hcur, hmatched, tcCommand]
  · simp [callCommands, hnone, tcCommand]

/-- A call keeps the enforcer steady. -/
theorem Steady.call (h : e.Steady) (hc : c.WellFormed) (hcall : e.call c = some e') :
    e'.Steady := by
  have hslots : ∀ key q, (∃ alloc ∈ c.bundle.flowAllocs, noJob alloc.flow = key ∧
      Called e e' c alloc q) ∨ (∀ alloc ∈ c.bundle.flowAllocs, noJob alloc.flow ≠ key) := by
    intro key q
    by_cases hkey : ∃ alloc ∈ c.bundle.flowAllocs, noJob alloc.flow = key
    · obtain ⟨alloc, halloc, hkey⟩ := hkey
      exact .inl ⟨alloc, halloc, hkey, h.called hc hcall halloc q⟩
    · exact .inr fun alloc halloc heq => hkey ⟨alloc, halloc, heq⟩
  have hsettled : ∀ key q, (e'.sysInfo key q).Settled := by
    intro key q
    rcases hslots key q with ⟨alloc, -, rfl, hcalled⟩ | hkey
    · exact hcalled.settled
    · rw [(h.frame hcall hkey q).1]
      exact h.settled key q
  have hadded : ∀ key q i, (e'.sysInfo key q).classId = some i → timesAdded e'.tcLog i = 1 := by
    intro key q i hi
    rcases hslots key q with ⟨alloc, -, rfl, hcalled⟩ | hkey
    · exact hcalled.timesAdded_eq_one h hi
    · obtain ⟨hsys, hlog⟩ := h.frame hcall hkey q
      rw [hsys] at hi
      rw [timesAdded, hlog i hi]
      exact h.added key q i hi
  obtain ⟨-, settings, iptables, -, hcommit, rfl⟩ := (call_eq_some_iff h.iptables).mp hcall
  refine ⟨(h.iptables.of_commit hcommit).1, h.limited, ?_, hsettled, hadded⟩
  exact (h.valid.committed c iptables).of_updateAll
    (classChange_late (e.committed c iptables)) rfl (fun _ _ => rfl) rfl

/-- The class is added once, and its last rate is the limit, at least the least one, in Mbit/s. -/
def InStep (e : Enforcer) (alloc : FlowAlloc) (q : Qos) : Prop :=
  ∃ i ∈ (e.sysInfo (noJob alloc.flow) q).classId,
    timesAdded e.tcLog i = 1 ∧ lastRate e.tcLog i =
      some (max (q.rateLimitBps alloc : ℚ) e.config.minRateLimitBps / 2 ^ 20)
deriving Decidable

def RatesInStep (e : Enforcer) (c : Call) : Prop :=
  ∀ e' ∈ e.call c, ∀ alloc ∈ c.bundle.flowAllocs, ∀ q,
    (e'.sysInfo (noJob alloc.flow) q).matched ≠ [] → e'.InStep alloc q
deriving Decidable

/--
Where a priority matches flows and its remembered limit is the one in the bundle,
the kernel has this limit already.
-/
def RemembersRates (e : Enforcer) (c : Call) : Prop :=
  ∀ alloc ∈ c.bundle.flowAllocs, ∀ q, c.matched alloc q ≠ [] →
    (e.sysInfo (noJob alloc.flow) q).curRateLimitBps = q.rateLimitBps alloc →
    ∀ i ∈ (e.sysInfo (noJob alloc.flow) q).classId, lastRate e.tcLog i =
      some (max (q.rateLimitBps alloc : ℚ) e.config.minRateLimitBps / 2 ^ 20)
deriving Decidable

theorem Steady.ratesInStep_iff (h : e.Steady) (hc : c.WellFormed) (hcall : e.call c = some e') :
    e.RatesInStep c ↔ e.RemembersRates c := by
  have hconfig : e'.config = e.config := by
    obtain ⟨-, settings, iptables, -, -, rfl⟩ := (call_eq_some_iff h.iptables).mp hcall
    rfl
  simp only [RatesInStep, hcall, Option.mem_some_iff, forall_eq', RemembersRates]
  refine forall₂_congr fun alloc halloc => forall_congr' fun q => ?_
  have hcalled := h.called hc hcall halloc q
  rw [hcalled.matched_eq]
  refine forall_congr' fun hmatched => ?_
  obtain ⟨i, hi⟩ := Option.ne_none_iff_exists'.mp (hcalled.hasClass hmatched)
  rw [← hcalled.lastRate_eq_iff hmatched hi]
  simp [InStep, hi, hconfig, hcalled.timesAdded_eq_one h hi]

end Enforcer

/--
Along a run of calls whose commands succeed, every call leaves the rate limits in step with
its bundle iff no call relies on a remembered limit that the kernel does not have.
-/
theorem run_ratesInStep_iff (device : String) (config : HostEnforcerConfig)
    (hlimited : config.limitHipri = true ∧ config.limitLopri = true)
    (calls : List Call) (hcalls : ∀ c ∈ calls, c.WellFormed) (e : Enforcer)
    (hrun : exec Enforcer.call (.create device config) calls = some e) :
    AllSteps Enforcer.call Enforcer.RatesInStep (.create device config) calls ↔
      AllSteps Enforcer.call Enforcer.RemembersRates (.create device config) calls := by
  have hall : ∀ q : Qos, q.isLimited config = true := by
    intro q
    cases q with
    | hipri => exact hlimited.1
    | lopri => exact hlimited.2
  refine allSteps_iff (Enforcer.steady_create device hall) hrun ?_ ?_
  · intro e c hc e' he hcall
    exact he.ratesInStep_iff (hcalls c hc) hcall
  · intro e c hc e' he _ hcall
    exact he.call (hcalls c hc) hcall

def Call.toEdge (hipriRateLimitBps lopriRateLimitBps : ℤ) : Call where
  matchHostFlows := QosEncoding.expandDestIntoHostsSinglePri
    fun dc => if dc = "edge" then some ["10.0.0.1"] else none
  bundle :=
    { flowAllocs :=
        [{ flow := { srcDc := "core", dstDc := "edge" }
           hipriRateLimitBps := hipriRateLimitBps
           lopriRateLimitBps := lopriRateLimitBps }] }

theorem run_ratesInStep_changed_priority :
    AllSteps Enforcer.call Enforcer.RatesInStep (.create "eth1" {})
      [.toEdge 104857600 0, .toEdge 0 52428800, .toEdge 73400320 0] := by
  have hcalls : ∀ c ∈ [Call.toEdge 104857600 0, .toEdge 0 52428800, .toEdge 73400320 0],
      c.WellFormed := by
    simp only [List.forall_mem_cons, List.not_mem_nil, false_imp_iff, implies_true, and_true]
    exact ⟨⟨by decide, by decide⟩, ⟨by decide, by decide⟩, ⟨by decide, by decide⟩⟩
  obtain ⟨e, hrun⟩ := Option.isSome_iff_exists.mp
    (show (exec Enforcer.call (.create "eth1" {})
      [.toEdge 104857600 0, .toEdge 0 52428800, .toEdge 73400320 0]).isSome from by decide +kernel)
  exact (run_ratesInStep_iff "eth1" {} ⟨rfl, rfl⟩ _ hcalls e hrun).mpr (by decide +kernel)

/--
While the flow is LOPRI the enforcer forgets that the kernel's limit for HIPRI is 100 Mbit/s,
so that it does not lower it to the least one, 5 Mbit/s.
-/
theorem not_ratesInStep_remembered_zero :
    ¬ AllSteps Enforcer.call Enforcer.RatesInStep (.create "eth1" {})
      [.toEdge 104857600 0, .toEdge 0 52428800, .toEdge 0 0] := by
  decide +kernel

end LinuxEnforcer
end HeypAgents
