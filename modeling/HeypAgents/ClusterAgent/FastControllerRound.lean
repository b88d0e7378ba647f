import HeypAgents.ClusterAgent.FastController

/-!
# The effect of a round

What the accesses of step 2 leave in a host's state, which listeners step 3 calls, and
which hosts a round reaches.
-/

namespace HeypAgents

section Flags

open FastClusterController (setAggIsLopri)

theorem getD_setAggIsLopri (aggId a : ℕ) (isLopri : Bool) (flags : List Bool) :
    (setAggIsLopri aggId isLopri flags).getD a false =
      if a = aggId then isLopri else flags.getD a false := by
  by_cases ha : a = aggId
  · subst ha
    rw [if_pos rfl, setAggIsLopri]
    split_ifs with hlen
    · have hlt : a < (flags ++ List.replicate (a + 1 - flags.length) false).length := by
        rw [List.length_append, List.length_replicate]
        omega
      rw [List.getD_eq_getElem?_getD, List.getElem?_set_self hlt, Option.getD_some]
    · rw [List.getD_eq_getElem?_getD, List.getElem?_set_self (not_le.mp hlen), Option.getD_some]
  · rw [if_neg ha, setAggIsLopri]
    split_ifs with hlen
    · simp only [List.getD_eq_getElem?_getD, List.getElem?_set_ne (Ne.symm ha)]
      rcases lt_or_ge a flags.length with hlt | hge
      · rw [List.getElem?_append_left hlt]
      · rw [List.getElem?_append_right hge, List.getElem?_eq_none hge]
        cases h : (List.replicate (aggId + 1 - flags.length) false)[a - flags.length]? with
        | none => rfl
        | some b =>
          rw [List.getElem?_replicate] at h
          split_ifs at h
          cases h
          rfl
    · simp [List.getD_eq_getElem?_getD, List.getElem?_set_ne (Ne.symm ha)]

theorem length_setAggIsLopri_le {n aggId : ℕ} (ha : aggId < n) (isLopri : Bool) {flags : List Bool}
    (hlen : flags.length ≤ n) : (setAggIsLopri aggId isLopri flags).length ≤ n := by
  rw [setAggIsLopri, List.length_set]
  split_ifs with hle
  · rw [List.length_append, List.length_replicate]
    omega
  · exact hlen

end Flags

namespace FastClusterController

variable {n : ℕ}

section Updates

theorem foldl_applyUpdate (actions : List (UpdateAction n)) (states : ℕ → ChildState) (p : ℕ) :
    actions.foldl applyUpdate states p =
      (actions.filter fun a => a.parId = p).foldl UpdateAction.run (states p) := by
  induction actions generalizing states with
  | nil => rfl
  | cons a actions ih =>
    rw [List.foldl_cons, ih]
    by_cases hp : a.parId = p
    · subst hp
      simp [applyUpdate, onID]
    · simp [applyUpdate, onID, hp, Function.update_of_ne (Ne.symm hp)]

variable (actions : List (UpdateAction n)) (state : ChildState)

theorem foldl_run_listeners :
    (actions.foldl UpdateAction.run state).listeners = state.listeners := by
  induction actions generalizing state with
  | nil => rfl
  | cons a actions ih =>
    rw [List.foldl_cons, ih]
    cases a <;> rfl

theorem foldl_run_flags_le (hlen : state.aggIsLopri.length ≤ n) :
    (actions.foldl UpdateAction.run state).aggIsLopri.length ≤ n := by
  induction actions generalizing state with
  | nil => exact hlen
  | cons a actions ih =>
    refine ih _ ?_
    cases a with
    | sawGen aggId parId gen => exact hlen
    | setLopri aggId parId isLopri => exact length_setAggIsLopri_le aggId.isLt isLopri hlen

theorem foldl_run_isLopri_of_not_mem {a : Fin n} (h : ∀ p b, .setLopri a p b ∉ actions) :
    (actions.foldl UpdateAction.run state).isLopri a = state.isLopri a := by
  induction actions generalizing state with
  | nil => rfl
  | cons x actions ih =>
    rw [List.foldl_cons, ih _ fun p b hmem => h p b (List.mem_cons_of_mem x hmem)]
    cases x with
    | sawGen aggId parId gen => rfl
    | setLopri aggId parId isLopri =>
      have hne : (a : ℕ) ≠ aggId := by
        intro ha
        refine h parId isLopri ?_
        rw [Fin.ext ha]
        exact List.mem_cons_self
      exact (getD_setAggIsLopri aggId a isLopri state.aggIsLopri).trans (if_neg hne)

theorem foldl_run_isLopri_of_mem {a : Fin n} {b : Bool} (hmem : ∃ p, .setLopri a p b ∈ actions)
    (hall : ∀ p b', .setLopri a p b' ∈ actions → b' = b) :
    (actions.foldl UpdateAction.run state).isLopri a = b := by
  induction actions using List.reverseRecOn with
  | nil =>
    obtain ⟨p, hp⟩ := hmem
    cases hp
  | append_singleton actions x ih =>
    rw [List.foldl_append, List.foldl_cons, List.foldl_nil]
    have hrest : (∃ p, .setLopri a p b ∈ actions) →
        (actions.foldl UpdateAction.run state).isLopri a = b :=
      fun hp => ih hp fun p b' h => hall p b' (List.mem_append_left _ h)
    obtain ⟨p, hp⟩ := hmem
    cases x with
    | sawGen aggId parId gen => exact hrest ⟨p, by simpa using hp⟩
    | setLopri aggId parId isLopri =>
      refine (getD_setAggIsLopri aggId a isLopri _).trans ?_
      by_cases ha : (a : ℕ) = aggId
      · rw [if_pos ha]
        refine hall parId isLopri ?_
        rw [Fin.ext ha]
        simp
      · rw [if_neg ha]
        refine hrest ⟨p, ?_⟩
        rcases List.mem_append.mp hp with hp | hp
        · exact hp
        · simp only [List.mem_singleton, UpdateAction.setLopri.injEq] at hp
          exact absurd (congrArg Fin.val hp.1) ha

theorem foldl_run_broadcasted :
    (actions.foldl UpdateAction.run state).broadcastedLatestState = true ↔
      state.broadcastedLatestState = true ∧ ∀ a p b, .setLopri a p b ∉ actions := by
  induction actions generalizing state with
  | nil => simp
  | cons x actions ih =>
    rw [List.foldl_cons, ih]
    cases x with
    | sawGen aggId parId gen => simp [UpdateAction.run]
    | setLopri aggId parId isLopri =>
      simp only [UpdateAction.run, Bool.false_eq_true, false_and, false_iff, not_and]
      intro _ h
      exact h aggId parId isLopri List.mem_cons_self

theorem foldl_run_sawData :
    (actions.foldl UpdateAction.run state).sawDataThisRun = true ↔
      state.sawDataThisRun = true ∨ ∃ a p gen, .sawGen a p gen ∈ actions := by
  induction actions generalizing state with
  | nil => simp
  | cons x actions ih =>
    rw [List.foldl_cons, ih]
    cases x with
    | setLopri aggId parId isLopri => simp [UpdateAction.run]
    | sawGen aggId parId gen =>
      simp only [UpdateAction.run, true_or, true_iff]
      exact .inr ⟨aggId, parId, gen, List.mem_cons_self⟩

theorem le_foldl_run_genSeen {a : Fin n} {p : ℕ} {gen : ℤ} (hmem : .sawGen a p gen ∈ actions) :
    gen ≤ (actions.foldl UpdateAction.run state).genSeen := by
  induction actions using List.reverseRecOn with
  | nil => cases hmem
  | append_singleton actions x ih =>
    rw [List.foldl_append, List.foldl_cons, List.foldl_nil]
    rcases List.mem_append.mp hmem with hmem | hmem
    · have hle := ih hmem
      cases x with
      | sawGen aggId parId gen' => exact hle.trans (le_max_right _ _)
      | setLopri aggId parId isLopri => exact hle
    · rw [← List.mem_singleton.mp hmem]
      exact le_max_left _ _

end Updates

section Broadcast

variable {parIds : List ℕ} {p num : ℕ}

theorem mem_strided (hnum : 0 < num) (bcastShard : ℕ) :
    p ∈ strided parIds bcastShard num ↔ ∃ i, parIds[bcastShard + i * num]? = some p := by
  have hsorted : ((List.range ((parIds.length + num - 1) / num)).map
      fun i => bcastShard + i * num).Pairwise fun a b =>
        decide (b < parIds.length) = true → decide (a < parIds.length) = true := by
    refine List.pairwise_map.mpr (List.pairwise_lt_range.imp fun {a b} hab => ?_)
    have hmul := Nat.mul_le_mul_right num hab.le
    simp only [decide_eq_true_eq]
    omega
  simp only [strided, List.mem_filterMap, mem_takeWhile_iff hsorted, List.mem_map,
    List.mem_range, decide_eq_true_eq]
  constructor
  · rintro ⟨j, ⟨⟨i, -, rfl⟩, -⟩, hj⟩
    exact ⟨i, hj⟩
  · rintro ⟨i, hi⟩
    have hlt := (List.getElem?_eq_some_iff.mp hi).1
    refine ⟨_, ⟨⟨i, ?_, rfl⟩, hlt⟩, hi⟩
    rw [Nat.lt_div_iff_mul_lt hnum]
    have hmul : num * i = i * num := Nat.mul_comm _ _
    omega

theorem exists_mem_strided_iff (hnum : 0 < num) :
    (∃ bcastShard < num, p ∈ strided parIds bcastShard num) ↔ p ∈ parIds := by
  simp only [mem_strided hnum]
  constructor
  · rintro ⟨bcastShard, -, i, hi⟩
    exact List.mem_of_getElem? hi
  · intro hp
    obtain ⟨j, hj⟩ := List.getElem?_of_mem hp
    refine ⟨j % num, Nat.mod_lt j hnum, j / num, ?_⟩
    rwa [Nat.mul_comm, Nat.mod_add_div]

/-- The hosts of the list are marked, and the listeners of those that were not marked are
called. -/
structure Broadcasts (aggId2flow : Fin n → FlowMarker) (parIds : List ℕ) (b b' : Bcast) :
    Prop where
  states : ∀ p, b'.states p =
    if p ∈ parIds then { b.states p with broadcastedLatestState := true } else b.states p
  sent : ∀ p, b'.sent.filter (fun d => d.parId = p) =
    b.sent.filter (fun d => d.parId = p) ++
      if p ∈ parIds ∧ (b.states p).broadcastedLatestState = false then
        (b.states p).listeners.map fun lisId => ⟨p, lisId, bundleFor aggId2flow (b.states p)⟩
      else []

theorem Broadcasts.cons {aggId2flow : Fin n → FlowMarker} {q : ℕ} {b b' b'' : Bcast}
    (hq : Broadcasts aggId2flow [q] b b') (h : Broadcasts aggId2flow parIds b' b'') :
    Broadcasts aggId2flow (q :: parIds) b b'' := by
  constructor <;> intro p
  · rw [h.states p, hq.states p]
    by_cases hp : p = q
    · subst hp
      simp
    · simp [hp]
  · rw [h.sent p, hq.sent p, hq.states p]
    by_cases hp : p = q
    · subst hp
      simp
    · simp [hp]

theorem broadcasts_broadcastStateIfUpdated (aggId2flow : Fin n → FlowMarker) (b : Bcast) {q : ℕ}
    (hlen : (b.states q).aggIsLopri.length ≤ n) :
    ∃ b', broadcastStateIfUpdated aggId2flow b q = some b' ∧ Broadcasts aggId2flow [q] b b' := by
  cases hq : (b.states q).broadcastedLatestState with
  | true =>
    have hmark : { b.states q with broadcastedLatestState := true } = b.states q := by
      rw [← hq]
    refine ⟨b, if_pos hq, fun p => ?_, fun p => ?_⟩
    all_goals
      by_cases hp : p = q
      · subst hp
        simp [hmark, hq]
      · simp [hp]
  | false =>
    refine ⟨{ states := onID b.states q fun state => { state with broadcastedLatestState := true }
              sent := b.sent ++ (b.states q).listeners.map fun lisId =>
                ⟨q, lisId, bundleFor aggId2flow (b.states q)⟩ },
      by simp [broadcastStateIfUpdated, broadcastStateUnconditional, hq, hlen],
      fun p => ?_, fun p => ?_⟩
    all_goals
      by_cases hp : p = q
    · subst hp
      simp [onID]
    · simp [onID, hp]
    · subst hp
      simp [hq, List.filter_eq_self]
    · simp [hp, List.filter_eq_nil_iff, Ne.symm hp]

theorem foldlM_broadcast (aggId2flow : Fin n → FlowMarker) (parIds : List ℕ) (b : Bcast)
    (hlen : ∀ p, (b.states p).aggIsLopri.length ≤ n) :
    ∃ b', parIds.foldlM (broadcastStateIfUpdated aggId2flow) b = some b' ∧
      Broadcasts aggId2flow parIds b b' := by
  induction parIds generalizing b with
  | nil => exact ⟨b, rfl, fun p => by simp, fun p => by simp⟩
  | cons q parIds ih =>
    obtain ⟨b₁, hstep, hq⟩ := broadcasts_broadcastStateIfUpdated aggId2flow b (hlen q)
    have hlen₁ : ∀ p, (b₁.states p).aggIsLopri.length ≤ n := by
      intro p
      rw [hq.states p]
      split_ifs
      · exact hlen p
      · exact hlen p
    obtain ⟨b', hfold, h⟩ := ih b₁ hlen₁
    exact ⟨b', by rw [List.foldlM_cons, hstep]; exact hfold, hq.cons h⟩

end Broadcast

end FastClusterController
end HeypAgents
