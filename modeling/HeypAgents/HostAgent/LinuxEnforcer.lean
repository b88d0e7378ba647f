import HeypAgents.ClusterAgent.QosEncoding
import HeypAgents.HostAgent.IptablesController

/-!
# The Linux host enforcer

`LinuxHostEnforcer::EnforceAllocs` with the commands that it gives to `tc` and to
the iptables controller.  Every command may fail: a forced batch of `tc` may have
executed any of its lines when it does.

The two priorities of a flow are treated alike, so a flow's record is a function
of the priority.  An entry of `sys_info_` that does not exist yet is a default
one: `GetOrCreateSysInfo` makes it, and entries are never deleted.
-/

namespace HeypAgents
namespace LinuxEnforcer

open Iptables
open QosEncoding (MatchedHostFlows)

/-- The fields of `HostEnforcerConfig` that `EnforceAllocs` reads, with their proto defaults. -/
structure HostEnforcerConfig where
  limitHipri : Bool := true
  limitLopri : Bool := true
  minRateLimitBps : ℤ := 5242880
  pacingBurstBytes : ℤ := 0
  dscpHipri : String := "AF21"
  dscpLopri : String := "BE"
deriving DecidableEq, Repr

inductive Qos where
  | hipri
  | lopri
deriving DecidableEq, Repr

namespace Qos

def matched : Qos → MatchedHostFlows → List FlowMarker
  | .hipri, m => m.hipri
  | .lopri, m => m.lopri

def rateLimitBps : Qos → FlowAlloc → ℤ
  | .hipri, alloc => alloc.hipriRateLimitBps
  | .lopri, alloc => alloc.lopriRateLimitBps

def isLimited : Qos → HostEnforcerConfig → Bool
  | .hipri, config => config.limitHipri
  | .lopri, config => config.limitLopri

def dscp : Qos → HostEnforcerConfig → String
  | .hipri, config => config.dscpHipri
  | .lopri, config => config.dscpLopri

end Qos

/-- `FlowSys::Priority`; the class `1:n` is given by `n`. -/
structure Priority where
  classId : Option ℕ := none
  curRateLimitBps : ℤ := 0
  didCreateClass : Bool := false
  updateAfterIptChange : Bool := false
  matched : List FlowMarker := []
deriving DecidableEq, Repr

abbrev FlowSys := Qos → Priority

inductive TcOp where
  | classAdd
  | classChange
deriving DecidableEq, Repr

/-- `class add` or `class change dev .. parent 1: classid 1:n htb rate ..mbit burst ..b`. -/
structure TcCommand where
  op : TcOp
  dev : String
  classId : ℕ
  rateMbit : ℚ
  burstBytes : Option ℤ
deriving DecidableEq, Repr

/-- 100 Gbps. -/
def kMaxBandwidthBps : ℤ := 100 * 2 ^ 30

section TrafficControl

variable (config : HostEnforcerConfig) (dev : String)

def rateLimitMbps (rateLimitBps : ℤ) : ℚ :=
  (max rateLimitBps config.minRateLimitBps : ℤ) / (1024 * 1024)

def tcCommand (op : TcOp) (classId : ℕ) (rateLimitBps : ℤ) : TcCommand where
  op := op
  dev := dev
  classId := classId
  rateMbit := rateLimitMbps config rateLimitBps
  burstBytes := if config.pacingBurstBytes > 0 then some config.pacingBurstBytes else none

/-- What a change of one priority does. -/
structure Staged where
  sys : Priority
  nextClassId : ℕ
  commands : List TcCommand := []
  creates : Bool := false

def stageTrafficControlForFlow (rateLimitBps : ℤ) (sys : Priority) (nextClassId : ℕ) : Staged :=
  let classId := sys.classId.getD nextClassId
  let next := if sys.classId.isNone then nextClassId + 1 else nextClassId
  let sys := { sys with classId := some classId }
  if !sys.didCreateClass then
    { sys := sys, nextClassId := next, creates := true
      commands := [tcCommand config dev .classAdd classId rateLimitBps] }
  else if !sys.matched.isEmpty then
    { sys := sys, nextClassId := next
      commands := [tcCommand config dev .classChange classId rateLimitBps] }
  else
    { sys := sys, nextClassId := next }

def earlyUpdate
    (newLimit : ℤ) (matched : List FlowMarker) (sys : Priority) (nextClassId : ℕ) : Staged :=
  let sys := { sys with matched := matched }
  let mustCreate := sys.classId.isNone && !sys.matched.isEmpty
  let staged : Staged :=
    if mustCreate || decide (newLimit > sys.curRateLimitBps) then
      let staged := stageTrafficControlForFlow config dev newLimit sys nextClassId
      { staged with sys := { staged.sys with updateAfterIptChange := false } }
    else if newLimit < sys.curRateLimitBps then
      { sys := { sys with updateAfterIptChange := true }, nextClassId := nextClassId }
    else
      { sys := sys, nextClassId := nextClassId }
  { staged with sys := { staged.sys with curRateLimitBps := newLimit } }

def lateUpdate (sys : Priority) (nextClassId : ℕ) : Staged :=
  if sys.updateAfterIptChange then
    let staged := stageTrafficControlForFlow config dev sys.curRateLimitBps sys nextClassId
    { staged with sys := { staged.sys with updateAfterIptChange := false } }
  else
    { sys := sys, nextClassId := nextClassId }

end TrafficControl

section Work

/-- `sys_info_` is keyed by flows without their job. -/
def noJob (flow : FlowMarker) : FlowMarker := { flow with job := "" }

/-- What the loops of `EnforceAllocs` work on. -/
structure Work where
  nextClassId : ℕ
  sysInfo : FlowMarker → FlowSys
  tcBatchInput : List TcCommand := []
  classesToCreate : List (FlowMarker × Qos) := []

def Work.update (w : Work) (key : FlowMarker) (q : Qos) (change : Priority → ℕ → Staged) : Work :=
  let staged := change (w.sysInfo key q) w.nextClassId
  { nextClassId := staged.nextClassId
    sysInfo := Function.update w.sysInfo key (Function.update (w.sysInfo key) q staged.sys)
    tcBatchInput := w.tcBatchInput ++ staged.commands
    classesToCreate := w.classesToCreate ++ if staged.creates then [(key, q)] else [] }

variable (config : HostEnforcerConfig) (dev : String)

def newLimit (q : Qos) (alloc : FlowAlloc) : ℤ :=
  if q.isLimited config then q.rateLimitBps alloc else kMaxBandwidthBps

def increaseLimits (w : Work) (alloc : FlowAlloc) (matched : MatchedHostFlows) : Work :=
  let change q := earlyUpdate config dev (newLimit config q alloc) (q.matched matched)
  (w.update (noJob alloc.flow) .hipri (change .hipri)).update (noJob alloc.flow) .lopri
    (change .lopri)

/-- One iteration of the last loop. -/
def decreaseLimits (w : Work) (alloc : FlowAlloc) : Work :=
  (w.update (noJob alloc.flow) .hipri (lateUpdate config dev)).update (noJob alloc.flow) .lopri
    (lateUpdate config dev)

end Work

inductive BatchResult where
  | ok
  | failed (executed : ℕ → Bool)

namespace BatchResult

def isOk : BatchResult → Bool
  | .ok => true
  | .failed _ => false

def executed : BatchResult → List TcCommand → List TcCommand
  | .ok, commands => commands
  | .failed executed, commands =>
    (commands.zipIdx.filter fun c => executed c.2).map (·.1)

end BatchResult

/-- How the commands of one call end. -/
structure CommandResults where
  increases : BatchResult := .ok
  classShowOk : Bool := true
  restoreFails : Bool := false
  decreases : BatchResult := .ok

/-- The members of `LinuxHostEnforcer`, with what `tc` has executed. -/
structure Enforcer where
  config : HostEnforcerConfig
  iptables : System
  /-- An `int32_t` in the source, so that fewer than `2 ^ 31` classes may be made. -/
  nextClassId : ℕ := 2
  sysInfo : FlowMarker → FlowSys := fun _ _ => {}
  tcLog : List TcCommand := []
  iptSnapshot : List Setting := []

/-- `none` is a failed check. -/
abbrev MatchHostFlowsFunc := FlowAlloc → Option MatchedHostFlows

/-- The text of the class id. -/
def classIdText (n : ℕ) : String := "1:" ++ toString n

/-- `none` for a port that does not fit in 16 bits. -/
def assertValidPort (port : ℤ) : Option ℕ :=
  if 0 ≤ port ∧ port ≤ 65535 then some port.toNat else none

def settingFor (dscp classId : String) (f : FlowMarker) : Option Setting := do
  let srcPort ← assertValidPort f.srcPort
  let dstPort ← assertValidPort f.dstPort
  return { srcPort := srcPort, dstPort := dstPort, dstAddr := f.dstAddr, classId := classId,
           dscp := dscp }

/-- The settings that are staged; `none` is a failed check. -/
def stageIptablesForFlow
    (matched : List FlowMarker) (dscp : String) (classId : Option ℕ) : Option (List Setting) :=
  if matched.isEmpty then some []
  else classId.bind fun n => matched.mapM (settingFor dscp (classIdText n))

def Priority.lacksClass (sys : Priority) : Bool := !sys.matched.isEmpty && !sys.didCreateClass

def stageFlow (config : HostEnforcerConfig) (sys : FlowSys) : Option (List Setting) :=
  if (sys .hipri).lacksClass then some []
  else do
    let hipri ← stageIptablesForFlow (sys .hipri).matched config.dscpHipri (sys .hipri).classId
    if (sys .lopri).lacksClass then return hipri
    else
      let lopri ← stageIptablesForFlow (sys .lopri).matched config.dscpLopri (sys .lopri).classId
      return hipri ++ lopri

namespace Enforcer

def create (device : String) (config : HostEnforcerConfig) : Enforcer where
  config := config
  iptables := .create device []

def dev (e : Enforcer) : String := e.iptables.controller.dev

variable (e : Enforcer) (matchHostFlows : MatchHostFlowsFunc) (bundle : AllocBundle)
  (results : CommandResults)

/-- The loop of stage 1. -/
def stage1 : Option Work :=
  bundle.flowAllocs.foldlM
    (fun w alloc => (matchHostFlows alloc).map (increaseLimits e.config e.dev w alloc))
    { nextClassId := e.nextClassId, sysInfo := e.sysInfo }

/-- The classes that `tc class show` lists. -/
def foundClasses (tcLog : List TcCommand) : List ℕ :=
  (tcLog.filter fun c => c.op == .classAdd).map TcCommand.classId

def isCreated (w : Work) (tcLog : List TcCommand) (slot : FlowMarker × Qos) : Bool :=
  (w.tcBatchInput.isEmpty || results.increases.isOk) ||
    (results.classShowOk &&
      ((w.sysInfo slot.1 slot.2).classId.any fun n => (foundClasses tcLog).contains n))

/-- The enforcer after stage 1. -/
def afterStage1 (w : Work) : Enforcer :=
  let tcLog := e.tcLog ++ results.increases.executed w.tcBatchInput
  { e with
    nextClassId := w.nextClassId
    tcLog := tcLog
    sysInfo := fun key q =>
      let sys := w.sysInfo key q
      if w.classesToCreate.contains (key, q) && isCreated results w tcLog (key, q) then
        { sys with didCreateClass := true }
      else sys }

/-- The settings of stage 2. -/
def stage2 : Option (List Setting) :=
  (bundle.flowAllocs.mapM fun alloc => stageFlow e.config (e.sysInfo (noJob alloc.flow))).map
    List.flatten

/-- The enforcer after stage 3. -/
def stage3 : Enforcer :=
  let w := bundle.flowAllocs.foldl (decreaseLimits e.config e.dev)
    { nextClassId := e.nextClassId, sysInfo := e.sysInfo }
  { e with
    nextClassId := w.nextClassId
    sysInfo := w.sysInfo
    tcLog := e.tcLog ++ results.decreases.executed w.tcBatchInput }

/-- `none` when a check fails. -/
def enforceAllocs : Option Enforcer := do
  let w ← e.stage1 matchHostFlows bundle
  let e₁ := e.afterStage1 results w
  let settings ← e₁.stage2 bundle
  let committed := (settings.foldl System.stage e₁.iptables).commitChanges results.restoreFails
  let e₂ := { e₁ with iptables := committed.2 }
  if committed.1 = .ok then
    return { e₂ with iptSnapshot := e₂.iptables.controller.applied }.stage3 bundle results
  else return e₂

end Enforcer

end LinuxEnforcer
end HeypAgents
