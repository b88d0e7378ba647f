import Mathlib.Data.Prod.Lex
import Mathlib.Data.String.Basic
import HeypAgents.Lib.EditScript
import HeypAgents.Lib.SortedDiff

/-!
# The iptables controller

`iptables::Controller` and the kernel's mangle table.  A rule carries its chain,
so that the rules of one chain are walked in the order of the table.  `Restore`
applies its lines as a whole, and fails when it is made to fail or when a `-D`
line matches no rule.
-/

namespace HeypAgents
namespace Iptables

open EditScript SortedDiff

/-- `SettingBatch::Setting`; the port 0 stands for every port. -/
structure Setting where
  srcPort : ℕ := 0
  dstPort : ℕ := 0
  dstAddr : String := ""
  classId : String := ""
  dscp : String := ""
deriving Repr

namespace Setting

/-- The fields in the order in which `operator<` compares them. -/
def fields (s : Setting) : ℕ ×ₗ ℕ ×ₗ String ×ₗ String ×ₗ String :=
  toLex (s.srcPort, toLex (s.dstPort, toLex (s.dstAddr, toLex (s.classId, s.dscp))))

theorem fields_injective : Function.Injective fields := by
  rintro ⟨⟩ ⟨⟩ h
  simpa [fields] using h

instance : LinearOrder Setting := LinearOrder.lift' fields fields_injective

/-- A setting for some port only. -/
def fineGrained (s : Setting) : Bool := s.srcPort != 0 || s.dstPort != 0

end Setting

inductive Chain where
  | output
  | forward
deriving DecidableEq, Repr

inductive Target where
  | classify (classId : String)
  | dscp (dscp : String)
  | ret
deriving DecidableEq, Repr

/-- A rule of the mangle table, for TCP packets that leave through `dev`. -/
structure Rule where
  chain : Chain
  dev : String
  dstAddr : String
  srcPort : Option ℕ
  dstPort : Option ℕ
  target : Target
deriving DecidableEq, Repr

abbrev RuleLine := Edit Rule

/-- The match on a port, if the setting has one. -/
def portMatch (port : ℕ) : Option ℕ :=
  if port != 0 then some port else none

def Setting.rule (s : Setting) (dev : String) (target : Target) (chain : Chain) : Rule where
  chain := chain
  dev := dev
  dstAddr := s.dstAddr
  srcPort := portMatch s.srcPort
  dstPort := portMatch s.dstPort
  target := target

def bothChains (rule : Chain → Rule) : List Rule := [rule .output, rule .forward]

/-- The rules of a setting with the target `CLASSIFY`. -/
def Setting.classRules (s : Setting) (dev : String) : List Rule :=
  bothChains (s.rule dev (.classify s.classId))

/-- The rules of a setting with the target `DSCP`. -/
def Setting.dscpRules (s : Setting) (dev : String) : List Rule :=
  bothChains (s.rule dev (.dscp s.dscp))

/-- The rules of a setting with the target `RETURN`. -/
def Setting.returnRules (s : Setting) (dev : String) : List Rule := bothChains (s.rule dev .ret)

def Setting.linesToDelete (s : Setting) (dev : String) : List RuleLine :=
  (s.classRules dev).map .delete ++ (s.dscpRules dev).map .delete ++ (s.returnRules dev).map .delete

def addRuleLinesToDelete (dev : String) (batch : List Setting) : List RuleLine :=
  batch.flatMap fun s => s.linesToDelete dev

def Setting.linesToAdd
    (s : Setting) (dscpsToIgnoreClassId : List String) (dev : String) : List RuleLine :=
  if s.fineGrained then
    (s.returnRules dev).map .insert ++ (s.dscpRules dev).map .insert ++
      if !dscpsToIgnoreClassId.contains s.dscp then (s.classRules dev).map .insert else []
  else
    (if !dscpsToIgnoreClassId.contains s.dscp then (s.classRules dev).map .append else []) ++
      (s.dscpRules dev).map .append ++ (s.returnRules dev).map .append

def addRuleLinesToAdd (dscpsToIgnoreClassId : List String) (dev : String) (batch : List Setting) :
    List RuleLine :=
  batch.flatMap fun s => s.linesToAdd dscpsToIgnoreClassId dev

def Chain.text : Chain → String
  | .output => "OUTPUT"
  | .forward => "FORWARD"

def Target.text : Target → String
  | .classify c => "CLASSIFY --set-class " ++ c
  | .dscp d => "DSCP --set-dscp-class " ++ d
  | .ret => "RETURN"

def portText (flag : String) : Option ℕ → String
  | some port => flag ++ toString port
  | none => ""

def Rule.text (r : Rule) : String :=
  r.chain.text ++ " -o " ++ r.dev ++ " -p tcp -m tcp -d " ++ r.dstAddr ++
    portText " --sport " r.srcPort ++ portText " --dport " r.dstPort ++
    " -j " ++ r.target.text ++ "\n"

def lineText : RuleLine → String
  | .delete r => "-D " ++ r.text
  | .insert r => "-I " ++ r.text
  | .append r => "-A " ++ r.text

/-- The input of `Restore`. -/
def mangleTable (lines : List RuleLine) : String :=
  "*mangle\n" ++ String.join (lines.map lineText) ++ "COMMIT\n"

theorem utf8ByteSize_lineText_pos (line : RuleLine) : 0 < (lineText line).utf8ByteSize := by
  cases line <;> rw [lineText, String.utf8ByteSize_append] <;>
    exact Nat.add_pos_left (by decide) _

theorem utf8ByteSize_mangleTable_eq_iff (lines : List RuleLine) :
    (mangleTable lines).utf8ByteSize = "*mangle\nCOMMIT\n".utf8ByteSize ↔ lines = [] := by
  have hfixed : "*mangle\nCOMMIT\n".utf8ByteSize =
      "*mangle\n".utf8ByteSize + "COMMIT\n".utf8ByteSize := by decide
  rw [mangleTable, String.utf8ByteSize_append, String.utf8ByteSize_append, hfixed]
  cases lines with
  | nil => exact ⟨fun _ => rfl, fun _ => by decide⟩
  | cons line lines =>
    rw [List.map_cons, String.join_cons, String.utf8ByteSize_append]
    have := utf8ByteSize_lineText_pos line
    refine ⟨fun h => ?_, fun h => by cases h⟩
    omega

/-- The members of `Controller`. -/
structure Controller where
  dev : String
  dscpsToIgnoreClassId : List String
  staged : List Setting := []
  applied : List Setting := []
  toAdd : List Setting := []
  toDel : List Setting := []

inductive Status where
  | ok
  | internalError (message : String)
deriving DecidableEq, Repr

/-- The four batches that `ComputeDiff` writes. -/
structure Diff where
  oldBatch : List Setting
  newBatch : List Setting
  toDel : List Setting
  toAdd : List Setting

def sortBatch (batch : List Setting) : List Setting := batch.insertionSort (· ≤ ·)

def computeDiff (oldBatch newBatch toDel toAdd : List Setting) : Diff where
  oldBatch := sortBatch oldBatch
  newBatch := sortBatch newBatch
  toDel := toDel ++ setDifference (sortBatch oldBatch) (sortBatch newBatch)
  toAdd := toAdd ++ setDifference (sortBatch newBatch) (sortBatch oldBatch)

structure System where
  controller : Controller
  table : List Rule := []

/-- `RunnerIface::Restore` for the mangle table. -/
def restore (fails flushTables : Bool) (table : List Rule) (lines : List RuleLine) :
    Option (List Rule) :=
  if fails then none else applyAll (if flushTables then [] else table) lines

namespace Controller

def diff (c : Controller) : Diff := computeDiff c.applied c.staged c.toDel c.toAdd

/-- The lines between `*mangle` and `COMMIT`. -/
def lines (c : Controller) : List RuleLine :=
  addRuleLinesToDelete c.dev c.diff.toDel ++
    addRuleLinesToAdd c.dscpsToIgnoreClassId c.dev c.diff.toAdd

/-- The members when the changes have been made. -/
def committed (c : Controller) : Controller :=
  { c with toDel := [], toAdd := [], applied := c.diff.newBatch, staged := [] }

def failed (c : Controller) : Controller :=
  { c with toDel := c.diff.toDel ++ c.diff.toAdd, toAdd := [], applied := [], staged := [] }

end Controller

namespace System

def create (dev : String) (dscpsToIgnoreClassId : List String) : System where
  controller := { dev := dev, dscpsToIgnoreClassId := dscpsToIgnoreClassId }

def stage (s : System) (setting : Setting) : System :=
  { s with controller :=
      { s.controller with staged := s.controller.staged ++ [setting] } }

def clear (s : System) (fails : Bool) : Status × System :=
  let controller := { s.controller with applied := [] }
  match restore fails true s.table [] with
  | some table => (.ok, { controller := controller, table := table })
  | none =>
    (.internalError "failed to flush iptables 'mangle' table: ",
      { s with controller := controller })

def commitChanges (s : System) (fails : Bool) : Status × System :=
  if (mangleTable s.controller.lines).utf8ByteSize = "*mangle\nCOMMIT\n".utf8ByteSize then
    (.ok, { s with controller := s.controller.committed })
  else
    match restore fails false s.table s.controller.lines with
    | some table => (.ok, { controller := s.controller.committed, table := table })
    | none =>
      (.internalError "failed to update iptables 'mangle' table: ",
        { s with controller := s.controller.failed })

end System

end Iptables
end HeypAgents
