import HeypAgents.Flows.AggState

/-!
# The state of a connection

`LeafState` wraps an `AggState` whose counters come from one connection.  New usage is
added to the counter of the class that the connection uses, so that the two classes
always add up to the usage of the connection.  A counter that has decreased is ignored.
-/

namespace HeypAgents
namespace Flows

structure ClassCounters (info : FlowInfo) : Prop where
  sum : info.cumUsageBytes = info.cumHipriUsageBytes + info.cumLopriUsageBytes
  hipri : 0 ≤ info.cumHipriUsageBytes
  lopri : 0 ≤ info.cumLopriUsageBytes

structure LeafState where
  impl : AggState
  counters : ClassCounters impl.cur
deriving DecidableEq

/-- `LeafState::Update`. -/
structure LeafState.Update where
  time : ℚ
  cumUsageBytes : ℤ := 0
  instantaneousUsageBps : ℤ := 0
  isLopri : Bool := false
deriving DecidableEq, Repr

namespace LeafState

def create (flow : FlowMarker) : LeafState where
  impl := .create flow true
  counters := ⟨rfl, le_rfl, le_rfl⟩

variable (s : LeafState) (u : Update)

def flow : FlowMarker := s.impl.cur.flow

def cur : FlowInfo := s.impl.cur

/-- The usage in bytes since the last update. -/
def newUsageBytes : ℤ :=
  (if s.cur.cumUsageBytes > u.cumUsageBytes then s.cur.cumUsageBytes else u.cumUsageBytes) -
    s.cur.cumUsageBytes

def asAggUpdate : AggState.Update where
  time := u.time
  sumChildUsageBps := u.instantaneousUsageBps
  cumHipriUsageBytes :=
    if u.isLopri then s.cur.cumHipriUsageBytes else s.cur.cumHipriUsageBytes + s.newUsageBytes u
  cumLopriUsageBytes :=
    if u.isLopri then s.cur.cumLopriUsageBytes + s.newUsageBytes u else s.cur.cumLopriUsageBytes

section NewUsage

variable {s u}

theorem newUsageBytes_eq :
    s.newUsageBytes u = max s.cur.cumUsageBytes u.cumUsageBytes - s.cur.cumUsageBytes := by
  unfold newUsageBytes
  split_ifs with h
  · rw [max_eq_left h.le]
  · rw [max_eq_right (not_lt.mp h)]

theorem newUsageBytes_nonneg : 0 ≤ s.newUsageBytes u := by
  rw [newUsageBytes_eq, sub_nonneg]
  exact le_max_left _ _

theorem cumUsageBytes_asAggUpdate :
    (s.asAggUpdate u).cumUsageBytes = max s.cur.cumUsageBytes u.cumUsageBytes := by
  have hsum : s.cur.cumUsageBytes = s.cur.cumHipriUsageBytes + s.cur.cumLopriUsageBytes :=
    s.counters.sum
  have hnew := s.newUsageBytes_eq (u := u)
  simp only [AggState.Update.cumUsageBytes, asAggUpdate]
  split_ifs <;> omega

theorem le_asAggUpdate :
    s.cur.cumHipriUsageBytes ≤ (s.asAggUpdate u).cumHipriUsageBytes ∧
      s.cur.cumLopriUsageBytes ≤ (s.asAggUpdate u).cumLopriUsageBytes := by
  have hnew := s.newUsageBytes_nonneg (u := u)
  simp only [asAggUpdate]
  split_ifs
  · exact ⟨le_rfl, by omega⟩
  · exact ⟨by omega, le_rfl⟩

end NewUsage

variable (usageHistoryWindow : ℚ) (demandPredictor : DemandPredictor)

theorem of_updateUsage_impl {impl : AggState}
    (h : s.impl.updateUsage (s.asAggUpdate u) usageHistoryWindow demandPredictor = some impl) :
    impl.cur.flow = s.flow ∧ ClassCounters impl.cur ∧
      s.cur.cumHipriUsageBytes ≤ impl.cur.cumHipriUsageBytes ∧
      s.cur.cumLopriUsageBytes ≤ impl.cur.cumLopriUsageBytes := by
  obtain ⟨hhipri, hlopri⟩ := s.le_asAggUpdate (u := u)
  have hupdate : 0 ≤ (s.asAggUpdate u).cumHipriUsageBytes ∧
      0 ≤ (s.asAggUpdate u).cumLopriUsageBytes :=
    ⟨s.counters.hipri.trans hhipri, s.counters.lopri.trans hlopri⟩
  rcases AggState.updateUsage_cases h with ⟨-, rfl⟩ | ⟨-, -, rfl | rfl⟩
  · exact ⟨rfl, s.counters, le_rfl, le_rfl⟩
  · exact ⟨rfl, ⟨rfl, hupdate.1, hupdate.2⟩, hhipri, hlopri⟩
  · exact ⟨rfl, ⟨rfl, hupdate.1, hupdate.2⟩, hhipri, hlopri⟩

/-- `none` when a check of the wrapped state fails. -/
def updateUsage : Option LeafState :=
  match h : s.impl.updateUsage (s.asAggUpdate u) usageHistoryWindow demandPredictor with
  | none => none
  | some impl => some ⟨impl, (s.of_updateUsage_impl u _ _ h).2.1⟩

variable {s u usageHistoryWindow demandPredictor}

theorem updateUsage_of_impl {impl : AggState}
    (h : s.impl.updateUsage (s.asAggUpdate u) usageHistoryWindow demandPredictor = some impl) :
    s.updateUsage u usageHistoryWindow demandPredictor =
      some ⟨impl, (s.of_updateUsage_impl u _ _ h).2.1⟩ := by
  unfold updateUsage
  split
  · rename_i hnone
    rw [h] at hnone
    cases hnone
  · rename_i impl' himpl
    obtain rfl : impl' = impl := Option.some.inj (himpl.symm.trans h)
    rfl

theorem countersDecrease_asAggUpdate : s.impl.countersDecrease (s.asAggUpdate u) = false := by
  rw [AggState.countersDecrease, Bool.or_eq_false_iff, decide_eq_false_iff_not,
    decide_eq_false_iff_not, not_lt, not_lt]
  exact s.le_asAggUpdate

theorem nonneg (s : LeafState) : 0 ≤ s.cur.cumUsageBytes := by
  have hsum : s.cur.cumUsageBytes = s.cur.cumHipriUsageBytes + s.cur.cumLopriUsageBytes :=
    s.counters.sum
  rw [hsum]
  exact add_nonneg s.counters.hipri s.counters.lopri

theorem of_updateUsage {s' : LeafState}
    (h : s.updateUsage u usageHistoryWindow demandPredictor = some s') :
    s'.flow = s.flow ∧ s.cur.cumHipriUsageBytes ≤ s'.cur.cumHipriUsageBytes ∧
      s.cur.cumLopriUsageBytes ≤ s'.cur.cumLopriUsageBytes := by
  unfold updateUsage at h
  split at h
  · cases h
  · rename_i impl himpl
    cases h
    obtain ⟨hflow, -, hle⟩ := s.of_updateUsage_impl u _ _ himpl
    exact ⟨hflow, hle⟩

/--
An update always succeeds. It is ignored if it is older than the last one, and otherwise the
usage is the larger of the two counters.
-/
theorem exists_updateUsage (s : LeafState) (u : Update) (usageHistoryWindow : ℚ)
    (demandPredictor : DemandPredictor) :
    ∃ s', s.updateUsage u usageHistoryWindow demandPredictor = some s' ∧ s'.flow = s.flow ∧
      if s.impl.isOlder (s.asAggUpdate u) then s' = s
      else s'.impl.updatedTime = some u.time ∧
        s'.cur.cumUsageBytes = max s.cur.cumUsageBytes u.cumUsageBytes := by
  obtain ⟨impl, himpl⟩ : ∃ impl, s.impl.updateUsage (s.asAggUpdate u) usageHistoryWindow
      demandPredictor = some impl := by
    unfold AggState.updateUsage
    simp only [countersDecrease_asAggUpdate, Bool.false_eq_true, if_false]
    split_ifs <;> exact ⟨_, rfl⟩
  refine ⟨_, updateUsage_of_impl himpl, ?_⟩
  have hcum := s.cumUsageBytes_asAggUpdate (u := u)
  rcases AggState.updateUsage_cases himpl with ⟨holder, rfl⟩ | ⟨holder, -, rfl | rfl⟩
  · exact ⟨rfl, by rw [if_pos holder]⟩
  · refine ⟨rfl, ?_⟩
    rw [if_neg (by simpa using holder)]
    exact ⟨rfl, hcum⟩
  · refine ⟨rfl, ?_⟩
    rw [if_neg (by simpa using holder)]
    exact ⟨rfl, hcum⟩

section Runs

open Runs

/-- A call of `UpdateUsage`. -/
structure Call where
  update : Update
  usageHistoryWindow : ℚ
  demandPredictor : DemandPredictor

def call (s : LeafState) (c : Call) : Option LeafState :=
  s.updateUsage c.update c.usageHistoryWindow c.demandPredictor

def accepted (us : List Update) : List Update :=
  us.foldl (fun acc u => if acc.getLast?.any fun last => u.time < last.time then acc else acc ++ [u]) []

theorem accepted_concat (us : List Update) (u : Update) :
    accepted (us ++ [u]) =
      if (accepted us).getLast?.any fun last => u.time < last.time then accepted us
      else accepted us ++ [u] := by
  rw [accepted, List.foldl_append]
  rfl

structure Accounted (us : List Update) (s : LeafState) : Prop where
  updatedTime : s.impl.updatedTime = (accepted us).getLast?.map Update.time
  le : ∀ u ∈ accepted us, u.cumUsageBytes ≤ s.cur.cumUsageBytes
  attained : accepted us = [] ∧ s.cur.cumUsageBytes = 0 ∨
    ∃ u ∈ accepted us, u.cumUsageBytes = s.cur.cumUsageBytes

theorem accounted_create (flow : FlowMarker) : Accounted [] (create flow) where
  updatedTime := rfl
  le := fun _ h => absurd h List.not_mem_nil
  attained := .inl ⟨rfl, rfl⟩

theorem Accounted.isOlder_iff {us : List Update} (h : Accounted us s) :
    s.impl.isOlder (s.asAggUpdate u) = (accepted us).getLast?.any fun last => u.time < last.time := by
  rw [AggState.isOlder, h.updatedTime, Option.any_map]
  rfl

/-- An update is accounted for. -/
theorem Accounted.updateUsage {us : List Update} {s' : LeafState} (h : Accounted us s)
    (hnonneg : 0 ≤ u.cumUsageBytes)
    (hupdate : s.updateUsage u usageHistoryWindow demandPredictor = some s') :
    Accounted (us ++ [u]) s' := by
  obtain ⟨s'', hupdate', -, hcases⟩ := exists_updateUsage s u usageHistoryWindow demandPredictor
  obtain rfl : s' = s'' := Option.some.inj (hupdate.symm.trans hupdate')
  rw [h.isOlder_iff] at hcases
  split_ifs at hcases with holder
  · subst hcases
    have hsame : accepted (us ++ [u]) = accepted us := by rw [accepted_concat, if_pos holder]
    exact ⟨hsame ▸ h.updatedTime, hsame ▸ h.le, hsame ▸ h.attained⟩
  · obtain ⟨htime, hcum⟩ := hcases
    have hmore : accepted (us ++ [u]) = accepted us ++ [u] := by
      rw [accepted_concat, if_neg holder]
    refine ⟨?_, fun u' hu' => ?_, .inr ?_⟩
    · rw [htime, hmore, List.getLast?_concat]
      rfl
    · rw [hcum]
      rw [hmore, List.mem_append, List.mem_singleton] at hu'
      rcases hu' with hu' | rfl
      · exact le_max_of_le_left (h.le u' hu')
      · exact le_max_right _ _
    · rw [hmore, hcum]
      rcases le_total s.cur.cumUsageBytes u.cumUsageBytes with hle | hle
      · exact ⟨u, by simp, (max_eq_right hle).symm⟩
      · rw [max_eq_left hle]
        rcases h.attained with ⟨-, hzero⟩ | ⟨u', hu', heq⟩
        · exact ⟨u, by simp, by omega⟩
        · exact ⟨u', List.mem_append_left _ hu', heq⟩

def Credited (u : Update) (s s' : LeafState) : Prop :=
  if u.isLopri then
    s'.cur.cumHipriUsageBytes = s.cur.cumHipriUsageBytes ∧
      s'.cur.cumLopriUsageBytes =
        s.cur.cumLopriUsageBytes + (s'.cur.cumUsageBytes - s.cur.cumUsageBytes)
  else
    s'.cur.cumLopriUsageBytes = s.cur.cumLopriUsageBytes ∧
      s'.cur.cumHipriUsageBytes =
        s.cur.cumHipriUsageBytes + (s'.cur.cumUsageBytes - s.cur.cumUsageBytes)

theorem counters_updateUsage {s' : LeafState}
    (h : s.updateUsage u usageHistoryWindow demandPredictor = some s') :
    s' = s ∨ s'.cur.cumHipriUsageBytes = (s.asAggUpdate u).cumHipriUsageBytes ∧
      s'.cur.cumLopriUsageBytes = (s.asAggUpdate u).cumLopriUsageBytes := by
  unfold LeafState.updateUsage at h
  split at h
  · cases h
  · rename_i impl himpl
    cases h
    rcases AggState.updateUsage_cases himpl with ⟨-, rfl⟩ | ⟨-, -, rfl | rfl⟩
    · exact .inl rfl
    · exact .inr ⟨rfl, rfl⟩
    · exact .inr ⟨rfl, rfl⟩

theorem credited_updateUsage {s' : LeafState}
    (h : s.updateUsage u usageHistoryWindow demandPredictor = some s') : Credited u s s' := by
  have hsum : s.cur.cumUsageBytes = s.cur.cumHipriUsageBytes + s.cur.cumLopriUsageBytes :=
    s.counters.sum
  have hsum' : s'.cur.cumUsageBytes = s'.cur.cumHipriUsageBytes + s'.cur.cumLopriUsageBytes :=
    s'.counters.sum
  rw [Credited]
  rcases counters_updateUsage h with rfl | ⟨hhipri, hlopri⟩
  · split_ifs <;> exact ⟨rfl, by omega⟩
  · rw [asAggUpdate] at hhipri hlopri
    split_ifs with hclass
    · simp only [hclass, if_true] at hhipri
      exact ⟨hhipri, by omega⟩
    · simp only [hclass, Bool.false_eq_true, if_false] at hlopri
      exact ⟨hlopri, by omega⟩

theorem exists_accounted (flow : FlowMarker) (calls : List Call)
    (hnonneg : ∀ c ∈ calls, 0 ≤ c.update.cumUsageBytes) :
    ∃ s, exec call (create flow) calls = some s ∧ Accounted (calls.map Call.update) s := by
  induction calls using List.reverseRecOn with
  | nil => exact ⟨_, rfl, accounted_create flow⟩
  | append_singleton calls c ih =>
    obtain ⟨s, hrun, h⟩ := ih fun c' hc' => hnonneg c' (List.mem_append_left _ hc')
    obtain ⟨s', hupdate, -⟩ :=
      exists_updateUsage s c.update c.usageHistoryWindow c.demandPredictor
    refine ⟨s', exec_concat_eq_some.mpr ⟨s, hrun, hupdate⟩, ?_⟩
    rw [List.map_append]
    exact h.updateUsage (hnonneg c (by simp)) hupdate

/--
Any calls succeed, whatever the order of their times; the usage is the sum of the two
classes and the largest one of the accepted updates.  The next call succeeds too, credits an
increase to its class, and changes nothing if it is older.
-/
theorem updateUsage_accounting (flow : FlowMarker) (calls : List Call) (c : Call)
    (hnonneg : ∀ c ∈ calls, 0 ≤ c.update.cumUsageBytes) :
    ∃ s s', exec call (create flow) calls = some s ∧ s.call c = some s' ∧
      s.cur.cumUsageBytes = s.cur.cumHipriUsageBytes + s.cur.cumLopriUsageBytes ∧
      Accounted (calls.map Call.update) s ∧ Credited c.update s s' ∧
      ∀ last, (accepted (calls.map Call.update)).getLast? = some last →
        c.update.time < last.time → s' = s := by
  obtain ⟨s, hrun, h⟩ := exists_accounted flow calls hnonneg
  obtain ⟨s', hupdate, -, hcases⟩ :=
    exists_updateUsage s c.update c.usageHistoryWindow c.demandPredictor
  refine ⟨s, s', hrun, hupdate, s.counters.sum, h, credited_updateUsage hupdate,
    fun last hlast holder => ?_⟩
  rwa [h.isOlder_iff, hlast, if_pos (by simpa using holder)] at hcases

def threeCalls : List Call :=
  [⟨{ time := 1, cumUsageBytes := 500 }, 60, fun _ _ => 0⟩,
    ⟨{ time := 3, cumUsageBytes := 200, isLopri := true }, 60, fun _ _ => 0⟩,
    ⟨{ time := 2, cumUsageBytes := 900 }, 60, fun _ _ => 0⟩]

theorem updateUsage_accounting_threeCalls :
    ∃ s s', exec call (create {}) threeCalls = some s ∧
      s.call ⟨{ time := 4, cumUsageBytes := 700, isLopri := true }, 60, fun _ _ => 0⟩ = some s' ∧
      s.cur.cumUsageBytes = s.cur.cumHipriUsageBytes + s.cur.cumLopriUsageBytes ∧
      Accounted (threeCalls.map Call.update) s ∧
      Credited { time := 4, cumUsageBytes := 700, isLopri := true } s s' ∧
      ∀ last, (accepted (threeCalls.map Call.update)).getLast? = some last →
        4 < last.time → s' = s :=
  updateUsage_accounting {} threeCalls _ (by decide)

end Runs

end LeafState

end Flows
end HeypAgents
