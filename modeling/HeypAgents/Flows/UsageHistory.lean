import Mathlib.Data.List.TakeWhile
import HeypAgents.Flows.AggState

/-!
# Collecting the garbage of usage histories

`UpdateUsage` removes old entries from the history of an aggregate, from time to time
and only those before its window.  `BweDemandPredictor` looks at the entries of a window
of its own.  If that one is not longer, then what it predicts is what it would predict
from a history of which nothing was ever removed.
-/

namespace HeypAgents
namespace Flows

structure BweDemandPredictor where
  timeWindow : ℚ
  usageMultiplier : ℚ
  minDemandBps : ℤ

namespace BweDemandPredictor

variable (p : BweDemandPredictor)

def maxUsageBps (now : ℚ) (usageHistory : List UsageHistoryEntry) : ℚ :=
  usageHistory.foldr
    (fun entry acc => if entry.time ≥ now - p.timeWindow then max acc entry.bps else acc) 0

def fromUsage : DemandPredictor := fun now usageHistory =>
  let est := p.maxUsageBps now usageHistory * p.usageMultiplier
  if est > p.minDemandBps then truncInt est else p.minDemandBps

variable {p}

theorem fromUsage_append {now : ℚ} {removed kept : List UsageHistoryEntry}
    (h : ∀ entry ∈ removed, entry.time < now - p.timeWindow) :
    p.fromUsage now (removed ++ kept) = p.fromUsage now kept := by
  have hmax : p.maxUsageBps now (removed ++ kept) = p.maxUsageBps now kept := by
    rw [maxUsageBps, List.foldr_append, ← maxUsageBps]
    induction removed with
    | nil => rfl
    | cons entry removed ih =>
      obtain ⟨hold, hrest⟩ := List.forall_mem_cons.mp h
      rw [List.foldr_cons, ih hrest, if_neg (not_le.mpr hold)]
  rw [fromUsage, hmax, fromUsage]

end BweDemandPredictor

namespace AggState

/-- The entry that is added to the history. -/
def newEntry (s : AggState) (u : Update) : UsageHistoryEntry where
  time := u.time
  bps := s.estimate (s.measuredUsageBps u) s.cur.ewmaUsageBps

def estimated (s : AggState) (u : Update) (demandPredictor : DemandPredictor)
    (usageHistory : List UsageHistoryEntry) : AggState :=
  { s.record u with
    wasUpdated := true
    haveBps := true
    usageHistory := usageHistory
    cur := { (s.record u).cur with
      ewmaUsageBps := (s.newEntry u).bps
      ewmaHipriUsageBps := s.estimate (s.measuredHipriUsageBps u) s.cur.ewmaHipriUsageBps
      ewmaLopriUsageBps := s.estimate (s.measuredLopriUsageBps u) s.cur.ewmaLopriUsageBps
      predictedDemandBps := demandPredictor u.time usageHistory } }

/-- `UpdateUsage`, with any way to collect garbage. -/
def updateUsageWith (collect : ℚ → List UsageHistoryEntry → List UsageHistoryEntry)
    (s : AggState) (u : Update) (demandPredictor : DemandPredictor) : Option AggState :=
  if s.isOlder u then some s
  else if s.countersDecrease u then none
  else if !s.wasUpdated && s.measuredUsageBps u == 0 then
    some { s.record u with wasUpdated := true }
  else some (s.estimated u demandPredictor (collect u.time (s.usageHistory ++ [s.newEntry u])))

theorem updateUsage_eq_updateUsageWith (s : AggState) (u : Update) (usageHistoryWindow : ℚ)
    (demandPredictor : DemandPredictor) :
    s.updateUsage u usageHistoryWindow demandPredictor =
      s.updateUsageWith (fun now => collectGarbage now usageHistoryWindow) u demandPredictor :=
  rfl

/-- `UpdateUsage` if it never removed an entry. -/
def updateUsageKeepingAll (s : AggState) (u : Update) (demandPredictor : DemandPredictor) :
    Option AggState :=
  s.updateUsageWith (fun _ usageHistory => usageHistory) u demandPredictor

section Collected

variable {p : BweDemandPredictor} {s t : AggState} {u : Update} {now usageHistoryWindow : ℚ}

theorem exists_collectGarbage (now usageHistoryWindow : ℚ) (history : List UsageHistoryEntry) :
    ∃ removed, history = removed ++ collectGarbage now usageHistoryWindow history ∧
      ∀ entry ∈ removed, entry.time < now - usageHistoryWindow := by
  rw [collectGarbage]
  split_ifs
  · refine ⟨_, (List.takeWhile_append_dropWhile).symm, fun entry hentry => ?_⟩
    simpa [lt_sub_iff_add_lt] using List.mem_takeWhile_imp hentry
  · exact ⟨[], rfl, fun _ h => absurd h List.not_mem_nil⟩

def Outdated (p : BweDemandPredictor) (updatedTime : Option ℚ) (entry : UsageHistoryEntry) : Prop :=
  ∃ last, updatedTime = some last ∧ entry.time < last - p.timeWindow

structure Collected (p : BweDemandPredictor) (s t : AggState) : Prop where
  same : { s with usageHistory := t.usageHistory } = t
  removed : ∃ removed, t.usageHistory = removed ++ s.usageHistory ∧
    ∀ entry ∈ removed, Outdated p s.updatedTime entry
  sorted : t.usageHistory.Pairwise fun a b => a.time ≤ b.time
  times : ∀ entry ∈ t.usageHistory, ∃ last, s.updatedTime = some last ∧ entry.time ≤ last

theorem collected_create (p : BweDemandPredictor) (flow : FlowMarker) (smoothUsage : Bool) :
    Collected p (create flow smoothUsage) (create flow smoothUsage) where
  same := rfl
  removed := ⟨[], rfl, fun _ h => absurd h List.not_mem_nil⟩
  sorted := List.Pairwise.nil
  times := fun _ h => absurd h List.not_mem_nil

theorem Collected.sorted_left (h : Collected p s t) :
    s.usageHistory.Pairwise fun a b => a.time ≤ b.time := by
  obtain ⟨removed, hsplit, -⟩ := h.removed
  have hsorted := h.sorted
  rw [hsplit] at hsorted
  exact (List.pairwise_append.mp hsorted).2.1

theorem le_of_isOlder {last : ℚ} (holder : ¬ s.isOlder u = true) (hlast : s.updatedTime = some last) :
    last ≤ u.time := by
  simpa [isOlder, hlast] using holder

theorem Outdated.of_not_isOlder {entry : UsageHistoryEntry} (h : Outdated p s.updatedTime entry)
    (holder : ¬ s.isOlder u = true) : Outdated p (some u.time) entry := by
  obtain ⟨last, hlast, hold⟩ := h
  exact ⟨_, rfl, hold.trans_le (sub_le_sub_right (le_of_isOlder holder hlast) _)⟩

theorem Collected.le_time (h : Collected p s t) (holder : ¬ s.isOlder u = true) :
    ∀ entry ∈ t.usageHistory, entry.time ≤ u.time := by
  intro entry hentry
  obtain ⟨last, hlast, hle⟩ := h.times entry hentry
  exact hle.trans (le_of_isOlder holder hlast)

theorem Collected.record (h : Collected p s t) (holder : ¬ s.isOlder u = true) :
    Collected p { s.record u with wasUpdated := true } { t.record u with wasUpdated := true } := by
  have hle := h.le_time holder
  obtain ⟨removed, hsplit, houtdated⟩ := h.removed
  obtain ⟨full, rfl⟩ : ∃ full, t = { s with usageHistory := full } := ⟨_, h.same.symm⟩
  exact ⟨rfl, ⟨removed, hsplit, fun entry hentry => (houtdated entry hentry).of_not_isOlder holder⟩,
    h.sorted, fun entry hentry => ⟨_, rfl, hle entry hentry⟩⟩

/-- An estimate is the same from the entries that are left. -/
theorem Collected.estimated (h : Collected p s t) (holder : ¬ s.isOlder u = true)
    {removed kept : List UsageHistoryEntry}
    (hsplit : t.usageHistory ++ [s.newEntry u] = removed ++ kept)
    (hremoved : ∀ entry ∈ removed, entry.time < u.time - p.timeWindow) :
    Collected p (s.estimated u p.fromUsage kept)
      (t.estimated u p.fromUsage (t.usageHistory ++ [t.newEntry u])) := by
  have hle := h.le_time holder
  have hsorted := h.sorted
  obtain ⟨full, rfl⟩ : ∃ full, t = { s with usageHistory := full } := ⟨_, h.same.symm⟩
  have hentry : newEntry { s with usageHistory := full } u = s.newEntry u := rfl
  have hpredict : p.fromUsage u.time (full ++ [s.newEntry u]) = p.fromUsage u.time kept :=
    (congrArg _ hsplit).trans (BweDemandPredictor.fromUsage_append hremoved)
  refine ⟨?_, ⟨removed, hsplit, fun e he => ⟨_, rfl, hremoved e he⟩⟩, ?_, fun e he => ⟨_, rfl, ?_⟩⟩
  · simp only [AggState.estimated, hentry, hpredict]
    rfl
  · refine List.pairwise_append.mpr ⟨hsorted, List.pairwise_singleton _ _, fun a ha b hb => ?_⟩
    rw [List.mem_singleton.mp hb]
    exact hle a ha
  · rcases List.mem_append.mp he with he | he
    · exact hle e he
    · rw [List.mem_singleton.mp he]
      exact le_refl _

/-- An update keeps the two states in step. -/
theorem Collected.updateUsage (h : Collected p s t) (u : Update)
    (hwindow : p.timeWindow ≤ usageHistoryWindow) :
    Option.Rel (Collected p) (s.updateUsage u usageHistoryWindow p.fromUsage)
      (t.updateUsageKeepingAll u p.fromUsage) := by
  have hsame : t.isOlder u = s.isOlder u ∧ t.countersDecrease u = s.countersDecrease u ∧
      t.wasUpdated = s.wasUpdated ∧ t.measuredUsageBps u = s.measuredUsageBps u := by
    rw [← h.same]
    exact ⟨rfl, rfl, rfl, rfl⟩
  obtain ⟨holder', hdecrease', hupdated', hmeasured'⟩ := hsame
  rw [updateUsage_eq_updateUsageWith, updateUsageKeepingAll, updateUsageWith, updateUsageWith,
    holder', hdecrease', hupdated', hmeasured']
  split_ifs with holder hdecrease hfirst
  · exact .some h
  · exact .none
  · exact .some (h.record holder)
  · obtain ⟨removed, hsplit, houtdated⟩ := h.removed
    obtain ⟨removed', hsplit', hbefore⟩ :=
      exists_collectGarbage u.time usageHistoryWindow (s.usageHistory ++ [s.newEntry u])
    have hsplit'' : t.usageHistory ++ [s.newEntry u] = (removed ++ removed') ++
        collectGarbage u.time usageHistoryWindow (s.usageHistory ++ [s.newEntry u]) := by
      rw [hsplit, List.append_assoc, List.append_assoc, ← hsplit']
    refine .some (h.estimated holder hsplit'' fun entry hentry => ?_)
    · rcases List.mem_append.mp hentry with hentry | hentry
      · obtain ⟨last, hlast, hold⟩ := (houtdated entry hentry).of_not_isOlder holder
        cases hlast
        exact hold
      · exact (hbefore entry hentry).trans_le (sub_le_sub_left hwindow _)

open Runs in
/--
Calls with windows at least as long as the one of the predictor keep the history sorted, and
they leave the aggregate, with the demand that is predicted for it, as it would be if
nothing were ever removed.
-/
theorem updateUsage_rel_keepingAll (flow : FlowMarker) (smoothUsage : Bool)
    (calls : List (Update × ℚ)) (hwindow : ∀ c ∈ calls, p.timeWindow ≤ c.2) :
    Option.Rel (fun s t => (s.usageHistory.Pairwise fun a b => a.time ≤ b.time) ∧ s.cur = t.cur)
      (exec (fun s c => s.updateUsage c.1 c.2 p.fromUsage) (create flow smoothUsage) calls)
      (exec (fun s c => s.updateUsageKeepingAll c.1 p.fromUsage) (create flow smoothUsage)
        calls) := by
  refine exec_rel (fun _ _ c hc h => h.updateUsage c.1 (hwindow c hc)) (fun s t h => ?_)
    (collected_create p flow smoothUsage)
  refine ⟨h.sorted_left, ?_⟩
  rw [← h.same]

def fourUpdates : List (Update × ℚ) :=
  [({ time := 0, sumChildUsageBps := 90 }, 10), ({ time := 15, sumChildUsageBps := 50 }, 10),
    ({ time := 12, sumChildUsageBps := 70 }, 10), ({ time := 21, sumChildUsageBps := 20 }, 10)]

open Runs in
theorem updateUsage_rel_keepingAll_fourUpdates :
    Option.Rel (fun s t => (s.usageHistory.Pairwise fun a b => a.time ≤ b.time) ∧ s.cur = t.cur)
      (exec (fun s c => s.updateUsage c.1 c.2 (BweDemandPredictor.fromUsage ⟨8, 2, 5⟩))
        (create {} false) fourUpdates)
      (exec (fun s c => s.updateUsageKeepingAll c.1 (BweDemandPredictor.fromUsage ⟨8, 2, 5⟩))
        (create {} false) fourUpdates) :=
  updateUsage_rel_keepingAll {} false fourUpdates (by decide +kernel)

end Collected

end AggState

end Flows
end HeypAgents
