import HeypAgents.Lib.Runs
import HeypAgents.HostAgent.IptablesController

/-!
# The mangle table against the applied settings

A commit deletes the rules of the settings that are no longer staged and adds
those of the new ones.  Whether it succeeds and leaves exactly the rules of the
applied settings is decided by one equation between multisets of rules.

Without failures it fails for settings with an ignored DSCP, whose class is
deleted and was never added.  With failures it needs that what is to be rolled
back was there before.
-/

namespace HeypAgents
namespace Iptables

open EditScript SortedDiff Runs

section RuleBags

variable (dscpsToIgnoreClassId : List String) (dev : String)

/-- The rules that `AddRuleLinesToAdd` emits. -/
def rulesToAdd (batch : List Setting) : List Rule :=
  (addRuleLinesToAdd dscpsToIgnoreClassId dev batch).filterMap Edit.added?

def Setting.rulesToDelete (s : Setting) : List Rule :=
  s.classRules dev ++ s.dscpRules dev ++ s.returnRules dev

def Setting.rulesToAdd (s : Setting) : List Rule :=
  (s.linesToAdd dscpsToIgnoreClassId dev).filterMap Edit.added?

def Setting.ignoredRules (s : Setting) : List Rule :=
  if dscpsToIgnoreClassId.contains s.dscp then s.classRules dev else []

theorem addRuleLinesToDelete_eq (batch : List Setting) :
    addRuleLinesToDelete dev batch = (batch.flatMap fun s => s.rulesToDelete dev).map .delete := by
  simp [addRuleLinesToDelete, Setting.linesToDelete, Setting.rulesToDelete, List.map_flatMap]

theorem Setting.linesToAdd_additions (s : Setting) :
    ∀ line ∈ s.linesToAdd dscpsToIgnoreClassId dev, line.added?.isSome := by
  unfold Setting.linesToAdd
  split_ifs <;> simp [classRules, dscpRules, returnRules, bothChains, Edit.added?]

theorem addRuleLinesToAdd_additions (batch : List Setting) :
    ∀ line ∈ addRuleLinesToAdd dscpsToIgnoreClassId dev batch, line.added?.isSome := by
  intro line hline
  obtain ⟨s, -, hs⟩ := List.mem_flatMap.mp hline
  exact s.linesToAdd_additions dscpsToIgnoreClassId dev line hs

theorem Setting.coe_rulesToDelete (s : Setting) :
    (s.rulesToDelete dev : Multiset Rule) =
      s.rulesToAdd dscpsToIgnoreClassId dev + s.ignoredRules dscpsToIgnoreClassId dev := by
  have hinsert : ∀ rules : List Rule, (rules.map Edit.insert).filterMap Edit.added? = rules :=
    fun rules => by simp [List.filterMap_map, Function.comp_def, Edit.added?]
  have happend : ∀ rules : List Rule, (rules.map Edit.append).filterMap Edit.added? = rules :=
    fun rules => by simp [List.filterMap_map, Function.comp_def, Edit.added?]
  simp only [rulesToDelete, rulesToAdd, ignoredRules, linesToAdd]
  cases s.fineGrained <;> cases dscpsToIgnoreClassId.contains s.dscp <;>
    simp only [Bool.not_true, Bool.not_false, Bool.false_eq_true, if_true, if_false,
      List.filterMap_append, List.filterMap_nil, hinsert, happend, ← Multiset.coe_add,
      Multiset.coe_nil] <;>
    abel

def addedRules (m : Multiset Setting) : Multiset Rule :=
  m.bind fun s => (s.rulesToAdd dscpsToIgnoreClassId dev : Multiset Rule)

def deletedRules (m : Multiset Setting) : Multiset Rule :=
  m.bind fun s => (s.rulesToDelete dev : Multiset Rule)

theorem coe_rulesToAdd (batch : List Setting) :
    (rulesToAdd dscpsToIgnoreClassId dev batch : Multiset Rule) =
      addedRules dscpsToIgnoreClassId dev batch := by
  rw [rulesToAdd, addRuleLinesToAdd, List.filterMap_flatMap, addedRules, Multiset.coe_bind]
  rfl

@[simp] theorem addedRules_zero : addedRules dscpsToIgnoreClassId dev 0 = 0 := Multiset.zero_bind _

@[simp] theorem deletedRules_zero : deletedRules dev 0 = 0 := Multiset.zero_bind _

@[simp] theorem addedRules_add (m m' : Multiset Setting) :
    addedRules dscpsToIgnoreClassId dev (m + m') =
      addedRules dscpsToIgnoreClassId dev m + addedRules dscpsToIgnoreClassId dev m' :=
  Multiset.add_bind _ _ _

@[simp] theorem deletedRules_add (m m' : Multiset Setting) :
    deletedRules dev (m + m') = deletedRules dev m + deletedRules dev m' :=
  Multiset.add_bind _ _ _

theorem deletedRules_eq_addedRules_iff (m : Multiset Setting) :
    deletedRules dev m = addedRules dscpsToIgnoreClassId dev m ↔
      ∀ s ∈ m, s.dscp ∉ dscpsToIgnoreClassId := by
  have hsplit : deletedRules dev m = addedRules dscpsToIgnoreClassId dev m +
      m.bind fun s => (s.ignoredRules dscpsToIgnoreClassId dev : Multiset Rule) := by
    rw [addedRules, ← Multiset.bind_add]
    exact Multiset.bind_congr fun s _ => s.coe_rulesToDelete dscpsToIgnoreClassId dev
  rw [hsplit, add_eq_left, Multiset.eq_zero_iff_forall_notMem]
  simp only [Multiset.mem_bind, Multiset.mem_coe, Setting.ignoredRules, List.contains_iff_mem]
  constructor
  · intro h s hs hignored
    refine h (s.rule dev (.classify s.classId) .output) ⟨s, hs, ?_⟩
    simp [hignored, Setting.classRules, bothChains]
  · rintro h r ⟨s, hs, hr⟩
    simp [h s hs] at hr

end RuleBags

section Commit

def System.InSync (s : System) : Prop :=
  s.table.Perm (rulesToAdd s.controller.dscpsToIgnoreClassId s.controller.dev s.controller.applied)
deriving Decidable

theorem System.inSync_iff (s : System) :
    s.InSync ↔ (s.table : Multiset Rule) =
      addedRules s.controller.dscpsToIgnoreClassId s.controller.dev s.controller.applied := by
  rw [InSync, ← Multiset.coe_eq_coe, coe_rulesToAdd]

@[simp] theorem coe_sortBatch (batch : List Setting) :
    (sortBatch batch : Multiset Setting) = batch :=
  Multiset.coe_eq_coe.mpr (List.perm_insertionSort _ _)

theorem pairwise_sortBatch (batch : List Setting) : (sortBatch batch).Pairwise (· ≤ ·) :=
  List.pairwise_insertionSort _ _

theorem coe_diff_toDel (c : Controller) :
    (c.diff.toDel : Multiset Setting) = c.toDel + (c.applied - c.staged) := by
  rw [Controller.diff, computeDiff, ← Multiset.coe_add,
    coe_setDifference (pairwise_sortBatch _) (pairwise_sortBatch _), coe_sortBatch, coe_sortBatch]

theorem coe_diff_toAdd (c : Controller) :
    (c.diff.toAdd : Multiset Setting) = c.toAdd + (c.staged - c.applied) := by
  rw [Controller.diff, computeDiff, ← Multiset.coe_add,
    coe_setDifference (pairwise_sortBatch _) (pairwise_sortBatch _), coe_sortBatch, coe_sortBatch]

theorem Controller.lines_eq_nil_iff (c : Controller) :
    c.lines = [] ↔ c.diff.toDel = [] ∧ c.diff.toAdd = [] := by
  have hdelete : ∀ s : Setting, s.linesToDelete c.dev ≠ [] := by
    simp [Setting.linesToDelete, Setting.dscpRules, bothChains]
  have hadd : ∀ s : Setting, s.linesToAdd c.dscpsToIgnoreClassId c.dev ≠ [] := by
    intro s
    unfold Setting.linesToAdd
    split_ifs <;> simp [Setting.dscpRules, bothChains]
  rw [lines, addRuleLinesToDelete, addRuleLinesToAdd, List.append_eq_nil_iff,
    List.flatMap_eq_nil_iff, List.flatMap_eq_nil_iff, List.eq_nil_iff_forall_not_mem,
    List.eq_nil_iff_forall_not_mem]
  simp only [hdelete, hadd, imp_false]

variable (s : System) (fails : Bool)

def System.deleted : Multiset Rule := deletedRules s.controller.dev s.controller.diff.toDel

def System.added : Multiset Rule :=
  addedRules s.controller.dscpsToIgnoreClassId s.controller.dev s.controller.diff.toAdd

theorem System.commitChanges_spec :
    if s.controller.lines = [] ∨ (fails = false ∧ s.deleted ≤ s.table) then
      ∃ table, s.commitChanges fails =
          (.ok, { controller := s.controller.committed, table := table }) ∧
        (table : Multiset Rule) = s.table - s.deleted + s.added
    else
      s.commitChanges fails =
        (.internalError "failed to update iptables 'mangle' table: ",
          { s with controller := s.controller.failed }) := by
  simp only [commitChanges, utf8ByteSize_mangleTable_eq_iff]
  by_cases hlines : s.controller.lines = []
  · obtain ⟨hdel, hadd⟩ := s.controller.lines_eq_nil_iff.mp hlines
    rw [if_pos (.inl hlines), if_pos hlines]
    exact ⟨s.table, rfl, by simp [deleted, added, hdel, hadd]⟩
  · have hscript := applyAll_deletes_additions s.table
      (s.controller.diff.toDel.flatMap fun x => x.rulesToDelete s.controller.dev)
      (addRuleLinesToAdd_additions s.controller.dscpsToIgnoreClassId s.controller.dev
        s.controller.diff.toAdd)
    rw [← addRuleLinesToDelete_eq, ← rulesToAdd, coe_rulesToAdd, ← Multiset.coe_bind,
      ← deletedRules, ← deleted, ← added, ← Controller.lines] at hscript
    simp only [hlines, false_or, if_false]
    cases fails with
    | true => rfl
    | false =>
      simp only [true_and, restore, Bool.false_eq_true, if_false]
      split_ifs with hle
      · rw [if_pos hle] at hscript
        obtain ⟨table, happly, htable⟩ := hscript
        exact ⟨table, by rw [happly], htable⟩
      · rw [if_neg hle] at hscript
        rw [hscript]

/--
A commit that is not made to fail returns OK with the table in sync iff the table holds the
rules to be deleted and those of the settings that stay, and nothing else.
-/
theorem System.commitChanges_ok_inSync_iff (htoAdd : s.controller.toAdd = []) :
    (s.commitChanges false).1 = .ok ∧ (s.commitChanges false).2.InSync ↔
      (s.table : Multiset Rule) = s.deleted +
        addedRules s.controller.dscpsToIgnoreClassId s.controller.dev
          (s.controller.applied ∩ s.controller.staged) := by
  have hadded : addedRules s.controller.dscpsToIgnoreClassId s.controller.dev
      s.controller.staged = s.added +
        addedRules s.controller.dscpsToIgnoreClassId s.controller.dev
          (s.controller.applied ∩ s.controller.staged) := by
    rw [added, coe_diff_toAdd, htoAdd, Multiset.coe_nil, zero_add, ← addedRules_add,
      Multiset.inter_comm, Multiset.sub_add_inter]
  have hsync : ∀ table : List Rule,
      System.InSync { controller := s.controller.committed, table := table } ↔
        (table : Multiset Rule) = s.added +
          addedRules s.controller.dscpsToIgnoreClassId s.controller.dev
            (s.controller.applied ∩ s.controller.staged) := by
    intro table
    rw [inSync_iff, ← hadded]
    simp only [Controller.committed, Controller.diff, computeDiff, coe_sortBatch]
  have hspec := s.commitChanges_spec false
  split_ifs at hspec with hok
  · obtain ⟨table, hcommit, htable⟩ := hspec
    have hle : s.deleted ≤ s.table := by
      rcases hok with hlines | ⟨-, hle⟩
      · rw [deleted, (s.controller.lines_eq_nil_iff.mp hlines).1]
        exact Multiset.zero_le _
      · exact hle
    rw [hcommit, hsync, htable, add_comm, add_right_inj, tsub_eq_iff_eq_add_of_le hle, add_comm]
    simp
  · rw [hspec]
    refine ⟨fun h => by simp at h, fun h => absurd ?_ hok⟩
    exact .inr ⟨rfl, h ▸ Multiset.le_add_right _ _⟩

end Commit

inductive Call where
  | stage (setting : Setting)
  | commitChanges (fails : Bool)
  | clear (fails : Bool)
deriving Repr

namespace System

def call (s : System) : Call → Option System
  | .stage setting => some (s.stage setting)
  | .commitChanges fails => some (s.commitChanges fails).2
  | .clear fails => some (s.clear fails).2

theorem exists_call (s : System) (c : Call) : ∃ s', s.call c = some s' := by
  cases c <;> exact ⟨_, rfl⟩

theorem foldl_stage (s : System) (batch : List Setting) :
    batch.foldl stage s =
      { s with controller := { s.controller with staged := s.controller.staged ++ batch } } := by
  induction batch generalizing s with
  | nil => simp
  | cons x batch ih => simp [ih, stage]

variable {s : System} {fails : Bool}

theorem controller_of_ok (hok : (s.commitChanges fails).1 = .ok) :
    (s.commitChanges fails).2.controller = s.controller.committed := by
  have hspec := s.commitChanges_spec fails
  split_ifs at hspec
  · obtain ⟨table, hcommit, -⟩ := hspec
    rw [hcommit]
  · simp [hspec] at hok

theorem commitChanges_keeps (s : System) (fails : Bool) :
    (s.commitChanges fails).2.controller.staged = [] ∧
      ∀ x ∈ (s.commitChanges fails).2.controller.applied, x ∈ s.controller.staged := by
  have hspec := s.commitChanges_spec fails
  split_ifs at hspec
  · obtain ⟨table, hcommit, -⟩ := hspec
    rw [hcommit]
    exact ⟨rfl, fun x hx => List.mem_insertionSort _ |>.mp hx⟩
  · rw [hspec]
    exact ⟨rfl, fun x hx => absurd hx List.not_mem_nil⟩

end System

/-- Only calls of `Stage` and `CommitChanges`, and no failure is injected. -/
def Call.Undisturbed : Call → Prop
  | .stage _ => True
  | .commitChanges fails => fails = false
  | .clear _ => False

instance : DecidablePred Call.Undisturbed
  | .stage _ => inferInstanceAs (Decidable True)
  | .commitChanges fails => inferInstanceAs (Decidable (fails = false))
  | .clear _ => inferInstanceAs (Decidable False)

namespace System

def CommitsInSync (s : System) : Call → Prop
  | .commitChanges fails => (s.commitChanges fails).1 = .ok ∧ (s.commitChanges fails).2.InSync
  | _ => True

instance (s : System) : DecidablePred s.CommitsInSync
  | .stage _ => inferInstanceAs (Decidable True)
  | .commitChanges _ => inferInstanceAs (Decidable (_ ∧ _))
  | .clear _ => inferInstanceAs (Decidable True)

def DropsNoIgnored (s : System) : Call → Prop
  | .commitChanges _ =>
    ∀ x ∈ s.controller.applied.diff s.controller.staged,
      x.dscp ∉ s.controller.dscpsToIgnoreClassId
  | _ => True

instance (s : System) : DecidablePred s.DropsNoIgnored
  | .stage _ => inferInstanceAs (Decidable True)
  | .commitChanges _ => inferInstanceAs (Decidable (∀ x ∈ _, _))
  | .clear _ => inferInstanceAs (Decidable True)

/-- The state between calls while nothing fails. -/
structure Synced (s : System) : Prop where
  toAdd : s.controller.toAdd = []
  toDel : s.controller.toDel = []
  inSync : s.InSync

variable {s s' : System}

theorem synced_create (dev : String) (dscpsToIgnoreClassId : List String) :
    (create dev dscpsToIgnoreClassId).Synced :=
  ⟨rfl, rfl, List.Perm.refl []⟩

theorem Synced.commitsInSync_iff (h : s.Synced) :
    s.CommitsInSync (.commitChanges false) ↔ s.DropsNoIgnored (.commitChanges false) := by
  have happlied := Multiset.sub_add_inter (s.controller.applied : Multiset Setting)
    s.controller.staged
  have htable := s.inSync_iff.mp h.inSync
  rw [← happlied, addedRules_add] at htable
  have hdiff : ∀ x, x ∈ s.controller.applied.diff s.controller.staged ↔
      x ∈ (s.controller.applied : Multiset Setting) - s.controller.staged := by
    intro x
    rw [Multiset.coe_sub, Multiset.mem_coe]
  have hdeleted : s.deleted =
      deletedRules s.controller.dev (s.controller.applied - s.controller.staged) := by
    rw [deleted, coe_diff_toDel, h.toDel, Multiset.coe_nil, zero_add]
  simp only [CommitsInSync, DropsNoIgnored, hdiff]
  rw [s.commitChanges_ok_inSync_iff h.toAdd, htable, hdeleted, add_left_inj, eq_comm,
    deletedRules_eq_addedRules_iff]

theorem Synced.call {c : Call} (h : s.Synced) (hc : c.Undisturbed) (hdrops : s.DropsNoIgnored c)
    (hcall : s.call c = some s') : s'.Synced := by
  cases c with
  | stage setting =>
    cases hcall
    exact ⟨h.toAdd, h.toDel, h.inSync⟩
  | commitChanges fails =>
    obtain rfl : fails = false := hc
    obtain ⟨hok, hsync⟩ := h.commitsInSync_iff.mpr hdrops
    have hcontroller := controller_of_ok hok
    cases hcall
    exact ⟨by rw [hcontroller]; rfl, by rw [hcontroller]; rfl, hsync⟩
  | clear fails => exact hc.elim

end System

/--
Along a run of stagings and commits every commit succeeds and leaves the table in sync iff
no commit drops a setting whose DSCP is ignored.
-/
theorem run_inSync_iff (dev : String) (dscpsToIgnoreClassId : List String) (calls : List Call)
    (hcalls : ∀ c ∈ calls, c.Undisturbed) :
    AllSteps System.call System.CommitsInSync (.create dev dscpsToIgnoreClassId) calls ↔
      AllSteps System.call System.DropsNoIgnored (.create dev dscpsToIgnoreClassId) calls := by
  obtain ⟨t, hrun⟩ := exists_exec System.exists_call (.create dev dscpsToIgnoreClassId) calls
  refine allSteps_iff (I := System.Synced) (System.synced_create _ _) hrun ?_ ?_
  · intro s c hc s' hs _
    cases c with
    | stage setting => exact Iff.rfl
    | commitChanges fails =>
      obtain rfl : fails = false := hcalls _ hc
      exact hs.commitsInSync_iff
    | clear fails => exact Iff.rfl
  · intro s c hc s' hs hdrops hcall
    exact hs.call (hcalls c hc) hdrops hcall

theorem run_inSync_replaced_setting :
    AllSteps System.call System.CommitsInSync (.create "eth1" ["AF21"])
      [.stage { dstPort := 80, dstAddr := "10.0.0.1", classId := "1:2", dscp := "BE" },
        .commitChanges false,
        .stage { dstPort := 80, dstAddr := "10.0.0.1", classId := "1:3", dscp := "AF21" },
        .commitChanges false] :=
  (run_inSync_iff _ _ _ (by decide)).mpr (by decide +kernel)

/-- The setting's class was never added, so its deletion makes the second commit fail. -/
theorem not_inSync_dropped_ignored :
    ¬ AllSteps System.call System.CommitsInSync (.create "eth1" ["AF21"])
      [.stage { dstAddr := "10.0.0.1", classId := "1:3", dscp := "AF21" },
        .commitChanges false, .commitChanges false] := by
  decide +kernel

namespace System

/--
A commit that returns OK leaves the table in sync, and the next commit that is
not made to fail returns OK.
-/
structure Recovers (s : System) : Prop where
  inSync : ∀ fails, (s.commitChanges fails).1 = .ok → (s.commitChanges fails).2.InSync
  ok : (s.commitChanges false).1 = .ok

/--
The state before a call that recovers. A failing commit has nothing to do, or the
rules of the settings that stay are those of the new settings, so that the
deletions to come are what the table holds. Clearing finds nothing to be rolled
back, or it fails and finds nothing applied.
-/
def KeepsRecord (s : System) : Call → Prop
  | .stage _ => True
  | .commitChanges fails =>
    fails = false ∨ (s.controller.toDel = [] ∧ s.controller.applied.Perm s.controller.staged) ∨
      (rulesToAdd s.controller.dscpsToIgnoreClassId s.controller.dev
          (s.controller.applied.bagInter s.controller.staged)).Perm
        (rulesToAdd s.controller.dscpsToIgnoreClassId s.controller.dev
          (s.controller.staged.diff s.controller.applied))
  | .clear fails => if fails then s.controller.applied = [] else s.controller.toDel = []

instance (s : System) : DecidablePred s.KeepsRecord
  | .stage _ => inferInstanceAs (Decidable True)
  | .commitChanges _ => inferInstanceAs (Decidable (_ ∨ _ ∨ _))
  | .clear _ => inferInstanceAs (Decidable (ite _ _ _))

/-- The controllers of the runs below. -/
structure Plain (s : System) : Prop where
  toAdd : s.controller.toAdd = []
  ignoresNothing : s.controller.dscpsToIgnoreClassId = []

def Recorded (s : System) : Prop :=
  (s.table : Multiset Rule) =
    deletedRules s.controller.dev (s.controller.toDel + s.controller.applied)

variable {s s' : System} {fails : Bool}

theorem plain_create (dev : String) : (create dev []).Plain := ⟨rfl, rfl⟩

theorem recorded_create (dev : String) : (create dev []).Recorded := rfl

theorem Plain.addedRules_eq (h : s.Plain) (m : Multiset Setting) :
    addedRules s.controller.dscpsToIgnoreClassId s.controller.dev m =
      deletedRules s.controller.dev m := by
  refine ((deletedRules_eq_addedRules_iff _ _ m).mpr ?_).symm
  simp [h.ignoresNothing]

theorem Plain.call {c : Call} (h : s.Plain) (hcall : s.call c = some s') : s'.Plain := by
  cases c with
  | stage setting =>
    cases hcall
    exact ⟨h.toAdd, h.ignoresNothing⟩
  | commitChanges fails =>
    cases hcall
    have hspec := s.commitChanges_spec fails
    split_ifs at hspec
    · obtain ⟨table, hcommit, -⟩ := hspec
      rw [hcommit]
      exact ⟨rfl, h.ignoresNothing⟩
    · rw [hspec]
      exact ⟨rfl, h.ignoresNothing⟩
  | clear fails =>
    cases hcall
    cases fails <;> exact ⟨h.toAdd, h.ignoresNothing⟩

/-- A controller recovers iff its record is right. -/
theorem Plain.recovers_iff (h : s.Plain) : s.Recovers ↔ s.Recorded := by
  have hrecord : s.Recorded ↔
      (s.commitChanges false).1 = .ok ∧ (s.commitChanges false).2.InSync := by
    rw [s.commitChanges_ok_inSync_iff h.toAdd, h.addedRules_eq, deleted, coe_diff_toDel,
      ← deletedRules_add, add_assoc, Multiset.sub_add_inter, Recorded]
  rw [hrecord]
  refine ⟨fun hr => ⟨hr.ok, hr.inSync false hr.ok⟩, fun ⟨hok, hsync⟩ => ⟨?_, hok⟩⟩
  rintro (_ | _) hok'
  · exact hsync
  · have hlines : s.controller.lines = [] := by
      by_contra hne
      have hspec := s.commitChanges_spec true
      rw [if_neg (by simp [hne])] at hspec
      simp [hspec] at hok'
    have hsame : s.commitChanges true = s.commitChanges false := by
      simp only [commitChanges, utf8ByteSize_mangleTable_eq_iff, hlines, if_true]
    rwa [hsame]

theorem Plain.recorded_of_ok (h : s.Plain) (hok : (s.commitChanges fails).1 = .ok)
    (hsync : (s.commitChanges fails).2.InSync) : (s.commitChanges fails).2.Recorded := by
  have hafter := h.call (c := .commitChanges fails) rfl
  rw [inSync_iff, hafter.addedRules_eq] at hsync
  rw [Recorded, hsync, controller_of_ok hok]
  rfl

theorem Plain.recorded_failed_iff (h : s.Plain) (hr : s.Recorded) :
    Recorded { s with controller := s.controller.failed } ↔
      (rulesToAdd s.controller.dscpsToIgnoreClassId s.controller.dev
          (s.controller.applied.bagInter s.controller.staged)).Perm
        (rulesToAdd s.controller.dscpsToIgnoreClassId s.controller.dev
          (s.controller.staged.diff s.controller.applied)) := by
  have hrules : (s.table : Multiset Rule) =
      deletedRules s.controller.dev (s.controller.toDel + (s.controller.applied - s.controller.staged)) +
        deletedRules s.controller.dev (s.controller.applied ∩ s.controller.staged) := by
    rw [hr, ← deletedRules_add, add_assoc, Multiset.sub_add_inter]
  have htoDel : ((s.controller.failed.toDel : List Setting) : Multiset Setting) =
      s.controller.toDel + (s.controller.applied - s.controller.staged) +
        (s.controller.staged - s.controller.applied) := by
    rw [Controller.failed, ← Multiset.coe_add, coe_diff_toDel, coe_diff_toAdd, h.toAdd,
      Multiset.coe_nil, zero_add]
  rw [← Multiset.coe_eq_coe, coe_rulesToAdd, coe_rulesToAdd, h.addedRules_eq, h.addedRules_eq,
    ← Multiset.coe_inter, ← Multiset.coe_sub, Recorded, hrules, htoDel]
  simp only [Controller.failed, Multiset.coe_nil, add_zero, deletedRules_add, add_right_inj]

theorem deletedRules_eq_zero_iff (dev : String) (batch : List Setting) :
    0 = deletedRules dev batch ↔ batch = [] := by
  constructor
  · intro h
    cases batch with
    | nil => rfl
    | cons x batch =>
      have hmem : x.rule dev .ret .output ∈ deletedRules dev (x :: batch : List Setting) :=
        Multiset.mem_bind.mpr ⟨x, by simp, by
          simp [Setting.rulesToDelete, Setting.returnRules, bothChains]⟩
      rw [← h] at hmem
      exact absurd hmem (Multiset.notMem_zero _)
  · rintro rfl
    rfl

/-- A call keeps the record iff the state before it meets the condition. -/
theorem Plain.recorded_call_iff
    {c : Call} (h : s.Plain) (hr : s.Recorded) (hcall : s.call c = some s') :
    s'.Recorded ↔ s.KeepsRecord c := by
  have hrecovers := h.recovers_iff.mpr hr
  cases c with
  | stage setting =>
    cases hcall
    exact ⟨fun _ => trivial, fun _ => hr⟩
  | commitChanges fails =>
    cases hcall
    have hlines : s.controller.lines = [] ↔
        s.controller.toDel = [] ∧ s.controller.applied.Perm s.controller.staged := by
      rw [Controller.lines_eq_nil_iff, ← Multiset.coe_eq_zero, ← Multiset.coe_eq_zero,
        coe_diff_toDel, coe_diff_toAdd, h.toAdd, Multiset.coe_nil, zero_add,
        add_eq_zero, tsub_eq_zero_iff_le, tsub_eq_zero_iff_le, and_assoc,
        Multiset.coe_eq_zero, ← le_antisymm_iff, Multiset.coe_eq_coe]
    have hspec := s.commitChanges_spec fails
    split_ifs at hspec with hcase
    · obtain ⟨table, hcommit, -⟩ := hspec
      have hok : (s.commitChanges fails).1 = .ok := by rw [hcommit]
      refine iff_of_true (h.recorded_of_ok hok (hrecovers.inSync fails hok)) ?_
      rcases hcase with hnothing | ⟨hfails, -⟩
      · exact .inr (.inl (hlines.mp hnothing))
      · exact .inl hfails
    · have hok := hrecovers.ok
      cases fails with
      | false => simp [hspec] at hok
      | true =>
        rw [hspec, h.recorded_failed_iff hr, KeepsRecord, ← hlines]
        simp [(not_or.mp hcase).1]
  | clear fails =>
    cases hcall
    cases fails with
    | false =>
      simp only [KeepsRecord, Recorded, clear, restore, Bool.false_eq_true, if_false, if_true,
        applyAll_nil, Multiset.coe_nil, add_zero]
      exact deletedRules_eq_zero_iff _ _
    | true =>
      simp only [KeepsRecord, Recorded, clear, restore, if_true, Multiset.coe_nil, add_zero]
      rw [hr, deletedRules_add, add_eq_left, eq_comm, deletedRules_eq_zero_iff]

end System

/--
In every state of a run the controller recovers iff every call keeps the record of what is
in the table.
-/
theorem run_recovers_iff (dev : String) (calls : List Call) :
    (∀ pre s, pre <+: calls → exec System.call (.create dev []) pre = some s → s.Recovers) ↔
      AllSteps System.call System.KeepsRecord (.create dev []) calls := by
  have hplain : ∀ pre s, exec System.call (.create dev []) pre = some s → s.Plain :=
    fun pre s hrun => exec_invariant (fun s c s' h => h.call) (System.plain_create dev) hrun
  have hrecorded : (∀ pre s, pre <+: calls →
      exec System.call (.create dev []) pre = some s → s.Recovers) ↔
        ∀ pre s, pre <+: calls → exec System.call (.create dev []) pre = some s → s.Recorded :=
    forall₄_congr fun pre s _ hrun => (hplain pre s hrun).recovers_iff
  rw [hrecorded, reached_iff_allSteps, and_iff_right (System.recorded_create dev)]
  obtain ⟨t, hrun⟩ := exists_exec System.exists_call (.create dev []) calls
  refine allSteps_iff (I := fun s => s.Plain ∧ s.Recorded)
    ⟨System.plain_create dev, System.recorded_create dev⟩ hrun ?_ ?_
  · rintro s c - s' ⟨hs, hr⟩ hcall
    simpa [hcall] using hs.recorded_call_iff hr hcall
  · rintro s c - s' ⟨hs, hr⟩ hkeeps hcall
    exact ⟨hs.call hcall, (hs.recorded_call_iff hr hcall).mpr hkeeps⟩

/-- A failed commit that only had to delete is made up for by the next one. -/
theorem run_recovers_failed_deletion :
    (∀ pre s, pre <+: ([.stage { dstAddr := "10.0.0.1", classId := "1:3", dscp := "AF21" },
        .commitChanges false, .commitChanges true, .commitChanges false] : List Call) →
      exec System.call (.create "eth1" []) pre = some s → s.Recovers) :=
  (run_recovers_iff _ _).mpr (by decide +kernel)

/-- After a failed addition the next commit tries to delete what was never added. -/
theorem not_recovers_failed_addition :
    ¬ ∀ pre s, pre <+: ([.stage { dstAddr := "10.0.0.1", classId := "1:3", dscp := "AF21" },
        .commitChanges true] : List Call) →
      exec System.call (.create "eth1" []) pre = some s → s.Recovers := by
  intro h
  have hok := (h _ _ (List.prefix_refl _) rfl).ok
  revert hok
  decide +kernel

namespace System

def Stuck (s : System) : Prop :=
  ¬ deletedRules s.controller.dev s.controller.toDel ≤ s.table

variable {s s' t : System}

theorem Stuck.commitChanges_eq (h : s.Stuck) (fails : Bool) :
    s.commitChanges fails =
      (.internalError "failed to update iptables 'mangle' table: ",
        { s with controller := s.controller.failed }) := by
  have hle : deletedRules s.controller.dev s.controller.toDel ≤ s.deleted := by
    rw [deleted, coe_diff_toDel, deletedRules_add]
    exact Multiset.le_add_right _ _
  have hspec := s.commitChanges_spec fails
  rwa [if_neg] at hspec
  rintro (hlines | ⟨-, hdeleted⟩)
  · have hnil := (s.controller.lines_eq_nil_iff.mp hlines).1
    rw [deleted, hnil] at hle
    exact h (hle.trans (Multiset.zero_le _))
  · exact h (hle.trans hdeleted)

theorem Stuck.call {c : Call} (h : s.Stuck) (hcall : s.call c = some s') : s'.Stuck := by
  cases c with
  | stage setting =>
      cases hcall
      exact h
  | commitChanges fails =>
      cases hcall
      rw [h.commitChanges_eq fails]
      refine fun hle => h (le_trans ?_ hle)
      simp only [Controller.failed, ← Multiset.coe_add, coe_diff_toDel, deletedRules_add, add_assoc]
      exact Multiset.le_add_right _ _
  | clear fails =>
      cases hcall
      cases fails with
      | false =>
          refine fun hle => h (le_trans (le_trans hle ?_) (Multiset.zero_le _))
          exact le_rfl
      | true => exact h

/-- A stuck controller never commits again, not even after `Clear`. -/
theorem Stuck.never_ok
    (h : s.Stuck) {calls : List Call} (hrun : exec System.call s calls = some t) (fails : Bool) :
    (t.commitChanges fails).1 ≠ .ok := by
  have ht : t.Stuck := exec_invariant (fun s c s' h => h.call) h hrun
  simp [ht.commitChanges_eq fails]

def retries : List Call :=
  [.stage { dstAddr := "10.0.0.2", classId := "1:4", dscp := "AF31" }, .commitChanges false,
    .clear false, .commitChanges false]

/-- After a failed addition every commit fails, with another setting and after `Clear` too. -/
theorem never_ok_failed_addition :
    ∃ s t, exec System.call (.create "eth1" [])
        [.stage { dstAddr := "10.0.0.1", classId := "1:3", dscp := "AF21" },
          .commitChanges true] = some s ∧
      exec System.call s retries = some t ∧ (t.commitChanges false).1 ≠ .ok := by
  obtain ⟨s, hrun, hstuck⟩ : ∃ s, exec System.call (.create "eth1" [])
      [.stage { dstAddr := "10.0.0.1", classId := "1:3", dscp := "AF21" },
        .commitChanges true] = some s ∧ s.Stuck := ⟨_, rfl, by unfold Stuck; decide +kernel⟩
  obtain ⟨t, hretries⟩ : ∃ t, exec System.call s retries = some t := ⟨_, rfl⟩
  exact ⟨s, t, hrun, hretries, hstuck.never_ok hretries false⟩

end System

end Iptables
end HeypAgents
