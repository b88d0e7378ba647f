import HeypAgents.ClusterAgent.FastControllerRound
import HeypAgents.Lib.Runs

/-!
# Reachable states of the fast controller

The invariant of the controller, and a round as a function of the state before it.
-/

namespace HeypAgents
namespace FastClusterController

variable {n : ℕ}

section Invariant

/--
Every host has one id, and is known to the rounds or waits for the next one.  An id that
waits or is not in use yet is HIPRI for every aggregate.  Between rounds no host is marked
as seen.
-/
structure Inv (c : FastClusterController n) : Prop where
  hosts_nodup : c.hosts.Nodup
  known : ∀ e ∈ c.host2par.entries, c.hosts[e.2]? = some e.1
  waiting : ∀ e ∈ c.newHostIdPairs, c.hosts[e.2]? = some e.1
  covered : ∀ host p, c.hosts[p]? = some host →
    (host, p) ∈ c.host2par.entries ∨ (host, p) ∈ c.newHostIdPairs
  unused_hipri : ∀ p, c.hosts.length ≤ p → ∀ a : Fin n, (c.childStates p).isLopri a = false
  waiting_hipri : ∀ e ∈ c.newHostIdPairs, ∀ a : Fin n, (c.childStates e.2).isLopri a = false
  listeners_nodup : ∀ p, (c.childStates p).listeners.Nodup
  flags_le : ∀ p, (c.childStates p).aggIsLopri.length ≤ n
  unseen : ∀ p, (c.childStates p).sawDataThisRun = false

theorem inv_create (config : FastClusterControllerConfig) (allocs : Fin n → FlowAlloc)
    (distinct : ∀ i j, eqClusterFlow (allocs i).flow (allocs j).flow = true → i = j)
    (hthreads : 0 < config.numThreads) :
    Inv (create config allocs distinct hthreads) where
  hosts_nodup := List.nodup_nil
  known e he := by cases he
  waiting e he := by cases he
  covered host p h := by cases h
  unused_hipri p _ a := rfl
  waiting_hipri e he := by cases he
  listeners_nodup p := List.nodup_nil
  flags_le p := Nat.zero_le n
  unseen p := rfl

variable {c : FastClusterController n}

theorem Inv.setListeners (h : Inv c) (p : ℕ) (f : List ℕ → List ℕ) (hf : ∀ l, l.Nodup → (f l).Nodup)
    (nextLisId : ℕ) :
    Inv { c with
      nextLisId := nextLisId
      childStates := onID c.childStates p fun state =>
        { state with listeners := f state.listeners } } := by
  have hstate : ∀ q, onID c.childStates p (fun state =>
      { state with listeners := f state.listeners }) q =
        { c.childStates q with
          listeners := if q = p then f (c.childStates q).listeners
            else (c.childStates q).listeners } := by
    intro q
    by_cases hq : q = p
    · subst hq
      simp [onID]
    · simp [onID, hq]
  refine ⟨h.hosts_nodup, h.known, h.waiting, h.covered, fun q hq a => ?_, fun e he a => ?_,
    fun q => ?_, fun q => ?_, fun q => ?_⟩
  · simp only [hstate]
    exact h.unused_hipri q hq a
  · simp only [hstate]
    exact h.waiting_hipri e he a
  · simp only [hstate]
    split_ifs
    · exact hf _ (h.listeners_nodup q)
    · exact h.listeners_nodup q
  · simp only [hstate]
    exact h.flags_le q
  · simp only [hstate]
    exact h.unseen q

theorem Inv.dropListener (h : Inv c) (p lisId : ℕ) : Inv (c.dropListener p lisId) :=
  h.setListeners p (fun l => l.erase lisId) (fun _ hl => hl.erase lisId) c.nextLisId

theorem Inv.updateInfo (h : Inv c) (info : InfoBundle) : Inv (c.updateInfo info) :=
  ⟨h.hosts_nodup, h.known, h.waiting, h.covered, h.unused_hipri, h.waiting_hipri,
    h.listeners_nodup, h.flags_le, h.unseen⟩

theorem Inv.addHost (h : Inv c) {hostId : UInt64} (hnew : hostId ∉ c.hosts) :
    Inv { c with
      hosts := c.hosts ++ [hostId]
      newHostIdPairs := c.newHostIdPairs ++ [(hostId, c.hosts.length)] } := by
  have hold : ∀ {p : ℕ} {host : UInt64}, c.hosts[p]? = some host →
      (c.hosts ++ [hostId])[p]? = some host := by
    intro p host hp
    rw [List.getElem?_append_left (List.getElem?_eq_some_iff.mp hp).1, hp]
  refine ⟨?_, fun e he => hold (h.known e he), fun e he => ?_, fun host p hp => ?_,
    fun p hp a => ?_, fun e he a => ?_, h.listeners_nodup, h.flags_le, h.unseen⟩
  · refine List.Nodup.append h.hosts_nodup (List.nodup_singleton _) ?_
    simpa using hnew
  · rcases List.mem_append.mp he with he | he
    · exact hold (h.waiting e he)
    · rw [List.mem_singleton.mp he]
      simp
  · rcases lt_or_ge p c.hosts.length with hlt | hge
    · rw [List.getElem?_append_left hlt] at hp
      exact (h.covered host p hp).imp_right (List.mem_append_left _)
    · have hlast : p = c.hosts.length := by
        have := (List.getElem?_eq_some_iff.mp hp).1
        rw [List.length_append, List.length_singleton] at this
        omega
      subst hlast
      have : hostId = host := by simpa using hp
      exact .inr (by simp [this])
  · rw [List.length_append] at hp
    exact h.unused_hipri p (by omega) a
  · rcases List.mem_append.mp he with he | he
    · exact h.waiting_hipri e he a
    · rw [List.mem_singleton.mp he]
      exact h.unused_hipri _ le_rfl a

theorem Inv.registerListener (h : Inv c) (hostId : UInt64) : Inv (c.registerListener hostId) := by
  cases hfind : c.hosts.findIdx? (· == hostId) with
  | some id =>
    have hset := h.setListeners id (fun l => l.insert c.nextLisId)
      (fun _ hl => hl.insert) (c.nextLisId + 1)
    simpa [FastClusterController.registerListener, getID, hfind] using hset
  | none =>
    have hnew : hostId ∉ c.hosts := by
      intro hmem
      simpa using List.findIdx?_eq_none_iff.mp hfind hostId hmem
    have hset := (h.addHost hnew).setListeners c.hosts.length
      (fun l => l.insert c.nextLisId) (fun _ hl => hl.insert) (c.nextLisId + 1)
    simpa [FastClusterController.registerListener, getID, hfind] using hset

end Invariant

section Reach

variable {c : FastClusterController n} {r : Round n}

theorem mem_forEachSelected
    {id2par : SortedMap UInt64 ℕ UInt64.toNat} {ids : UnorderedIds} {e : UInt64 × ℕ} :
    e ∈ forEachSelected id2par ids ↔ e ∈ id2par.entries ∧ ids.Selects e.1.toNat := by
  simp only [forEachSelected, List.mem_append, List.mem_flatMap, List.mem_filterMap,
    SortedMap.mem_range, SortedMap.find?_entries_eq_some_iff, UnorderedIds.Selects,
    IdRange.contains_iff]
  constructor
  · rintro (⟨range, hrange, he, hlo, hhi⟩ | ⟨p, hp, he, rfl⟩)
    · exact ⟨he, .inl ⟨range, hrange, hlo, hhi⟩⟩
    · exact ⟨he, .inr hp⟩
  · rintro ⟨he, ⟨range, hrange, hlo, hhi⟩ | hp⟩
    · exact .inl ⟨range, hrange, he, hlo, hhi⟩
    · exact .inr ⟨_, hp, he, rfl⟩

theorem Inv.mem_catchUp (h : Inv c) (host : UInt64) (p : ℕ) :
    (host, p) ∈ c.catchUp.host2par.entries ↔ c.hosts[p]? = some host := by
  have hdrain : ∀ (pairs : List (UInt64 × ℕ)) (m : SortedMap UInt64 ℕ UInt64.toNat),
      (∀ e ∈ pairs, c.hosts[e.2]? = some e.1) →
      (∀ e ∈ m.entries, c.hosts[e.2]? = some e.1) →
      ∀ e, e ∈ (pairs.foldl (fun m p => m.insert p.1 p.2) m).entries ↔
        e ∈ pairs ∨ e ∈ m.entries := by
    intro pairs
    induction pairs with
    | nil => simp
    | cons x pairs ih =>
      intro m hpairs hm e
      have hinsert : ∀ e, e ∈ (m.insert x.1 x.2).entries ↔ e = x ∨ e ∈ m.entries := by
        intro e
        rw [SortedMap.mem_insert]
        refine or_congr_right' fun hne => ⟨fun he => he.2, fun he => ⟨fun hrank => ?_, he⟩⟩
        -- A host has one id, so an entry with its rank is the same pair.
        have hkey : e.1 = x.1 := UInt64.toNat_inj.mp hrank
        have hx := hpairs x List.mem_cons_self
        rw [← hkey, ← hm e he] at hx
        have hlt := (List.getElem?_eq_some_iff.mp (hm e he)).1
        have hid : e.2 = x.2 := (List.getElem?_inj hlt h.hosts_nodup).mp hx.symm
        exact hne (Prod.ext hkey hid)
      have hm' : ∀ e ∈ (m.insert x.1 x.2).entries, c.hosts[e.2]? = some e.1 := by
        intro e he
        rcases (hinsert e).mp he with rfl | he
        · exact hpairs e List.mem_cons_self
        · exact hm e he
      rw [List.foldl_cons, ih _ (fun e he => hpairs e (List.mem_cons_of_mem x he)) hm' e,
        hinsert e, List.mem_cons]
      tauto
  rw [catchUp, hdrain c.newHostIdPairs c.host2par h.waiting h.known]
  constructor
  · rintro (he | he)
    · exact h.waiting _ he
    · exact h.known _ he
  · intro hp
    exact (h.covered host p hp).symm

theorem beginRound_eq_some (hr : c.beginRound = some r) :
    r.controller = c.catchUp ∧
      r.snapInfos = (c.aggregator.collectSnapshot c.aggSelectors).1 ∧
      ∀ a, c.planAgg a (r.snapInfos a) = some (r.plan a) := by
  simp only [beginRound] at hr
  split_ifs at hr with hplan
  cases hr
  exact ⟨rfl, rfl, fun a => (Option.some_get (hplan a)).symm⟩

def wantFracLopri (c : FastClusterController n) (a : Fin n) : ℚ :=
  ((c.fracLopri a ((c.aggregator.collectSnapshot c.aggSelectors).1 a)).map (·.2)).getD 0

theorem plan_eq (hr : c.beginRound = some r) (a : Fin n) :
    (r.plan a).selector = ((c.aggSelectors a).pickChildren (c.wantFracLopri a)).1 ∧
      (r.plan a).downgradeDiff = ((c.aggSelectors a).pickChildren (c.wantFracLopri a)).2 := by
  obtain ⟨-, hsnap, hplan⟩ := beginRound_eq_some hr
  obtain ⟨x, hx, hplan⟩ := Option.map_eq_some_iff.mp (hplan a)
  rw [hsnap] at hx
  rw [wantFracLopri, hx, ← hplan]
  exact ⟨rfl, rfl⟩

def Round.Selects (r : Round n) (host : UInt64) : Prop :=
  ∃ a, (r.plan a).downgradeDiff.toDowngrade.Selects host.toNat ∨
    (r.plan a).downgradeDiff.toUpgrade.Selects host.toNat

variable {updates : List (ℕ × UpdateAction n)} {bcasts : List (ℕ × ℕ)} {p : ℕ}

theorem Round.mem_updates_setLopri
    (hu : IsInterleaving r.updateTasks updates) {a : Fin n} {b : Bool} :
    .setLopri a p b ∈ updates.map (·.2) ↔
      ∃ host, (host, p) ∈ r.controller.host2par.entries ∧
        if b then (r.plan a).downgradeDiff.toDowngrade.Selects host.toNat
        else (r.plan a).downgradeDiff.toUpgrade.Selects host.toNat := by
  rw [hu.mem_iff]
  simp only [Round.updateTasks, List.mem_map, List.mem_finRange, true_and,
    exists_exists_eq_and, Round.updateTask, List.mem_append, List.mem_filterMap,
    Option.map_eq_some_iff, reduceCtorEq, and_false, exists_false, false_or,
    UpdateAction.setLopri.injEq, mem_forEachSelected, Prod.exists]
  constructor
  · rintro ⟨a', ⟨host, q, hmem, rfl, rfl, rfl⟩ | ⟨host, q, hmem, rfl, rfl, rfl⟩⟩
    · exact ⟨host, hmem.1, hmem.2⟩
    · exact ⟨host, hmem.1, by simpa using hmem.2⟩
  · rintro ⟨host, hmem, hsel⟩
    cases b with
    | true => exact ⟨a, .inl ⟨host, p, ⟨hmem, hsel⟩, rfl, rfl, rfl⟩⟩
    | false => exact ⟨a, .inr ⟨host, p, ⟨hmem, by simpa using hsel⟩, rfl, rfl, rfl⟩⟩

theorem Round.mem_updates_sawGen (hu : IsInterleaving r.updateTasks updates) {a : Fin n} {gen : ℤ} :
    .sawGen a p gen ∈ updates.map (·.2) ↔
      ∃ hg ∈ (r.snapInfos a).infoGen, hg.gen = gen ∧
        (hg.hostId, p) ∈ r.controller.host2par.entries := by
  rw [hu.mem_iff]
  simp only [Round.updateTasks, List.mem_map, List.mem_finRange, true_and,
    exists_exists_eq_and, Round.updateTask, List.mem_append, List.mem_filterMap,
    Option.map_eq_some_iff, reduceCtorEq, and_false, exists_false, or_false,
    UpdateAction.sawGen.injEq,
    SortedMap.find_eq_some_iff (fun _ _ h => UInt64.toNat_inj.mp h)]
  constructor
  · rintro ⟨a', hg, hmem, q, hq, rfl, rfl, rfl⟩
    exact ⟨hg, hmem, rfl, hq⟩
  · rintro ⟨hg, hmem, rfl, hq⟩
    exact ⟨a, hg, hmem, p, hq, rfl, rfl, rfl⟩

theorem Round.mem_bcasts (hb : IsInterleaving r.bcastTasks bcasts) :
    p ∈ bcasts.map (·.2) ↔ ∃ host, (host, p) ∈ r.controller.host2par.entries ∧ r.Selects host := by
  rw [hb.mem_iff]
  have hshards : (∃ task ∈ r.bcastTasks, p ∈ task) ↔ ∃ a, p ∈ r.parIdsToBcast a := by
    simp only [Round.bcastTasks, List.mem_map, List.mem_range, exists_exists_and_eq_and,
      Round.bcastTask, List.mem_flatMap, List.mem_finRange, true_and]
    constructor
    · rintro ⟨bcastShard, hlt, a, hp⟩
      exact ⟨a, (exists_mem_strided_iff r.controller.numWorkers_pos).mp ⟨bcastShard, hlt, hp⟩⟩
    · rintro ⟨a, hp⟩
      obtain ⟨bcastShard, hlt, hp⟩ := (exists_mem_strided_iff r.controller.numWorkers_pos).mpr hp
      exact ⟨bcastShard, hlt, a, hp⟩
  rw [hshards]
  simp only [Round.parIdsToBcast, List.mem_map, List.mem_append, mem_forEachSelected, Round.Selects]
  constructor
  · rintro ⟨a, ⟨host, q⟩, hmem | hmem, rfl⟩
    · exact ⟨host, hmem.1, a, .inl hmem.2⟩
    · exact ⟨host, hmem.1, a, .inr hmem.2⟩
  · rintro ⟨host, hmem, a, hsel | hsel⟩
    · exact ⟨a, (host, p), .inl ⟨hmem, hsel⟩, rfl⟩
    · exact ⟨a, (host, p), .inr ⟨hmem, hsel⟩, rfl⟩

def Round.Reaches (r : Round n) (p : ℕ) : Prop :=
  ∃ host, (host, p) ∈ r.controller.host2par.entries ∧ r.Selects host

theorem Round.resetSawData_apply (states : ℕ → ChildState) (p : ℕ) :
    r.resetSawData states p =
      if p ∈ r.sawData then { states p with sawDataThisRun := false } else states p := by
  unfold Round.resetSawData
  induction r.sawData generalizing states with
  | nil => simp
  | cons q ps ih =>
    rw [List.foldl_cons, ih]
    by_cases hp : p = q
    · subst hp
      simp [onID]
    · simp [onID, hp]

structure Round.Completes (r : Round n) (states : ℕ → ChildState)
    (c' : FastClusterController n) (sent : List Delivery) : Prop where
  controller : c' = { r.controller with
    childStates := c'.childStates
    aggStates := fun a => (r.plan a).aggState
    aggSelectors := fun a => (r.plan a).selector }
  unchanged : ∀ p, c'.childStates p =
    { states p with
      broadcastedLatestState := (c'.childStates p).broadcastedLatestState
      sawDataThisRun := (c'.childStates p).sawDataThisRun }
  saw : ∀ p, (c'.childStates p).sawDataThisRun = true →
    (states p).sawDataThisRun = true ∧ p ∉ r.sawData
  sent_of_reaches : ∀ p, r.Reaches p → sent.filter (fun d => d.parId = p) =
    (states p).listeners.map fun lisId =>
      ⟨p, lisId, bundleFor r.controller.aggId2flow (states p)⟩
  sent_of_not_reaches : ∀ p, ¬ r.Reaches p → sent.filter (fun d => d.parId = p) = []

theorem Round.updated_apply (p : ℕ) :
    r.updated updates p = ((updates.map (·.2)).filter fun a => a.parId = p).foldl
      UpdateAction.run (r.controller.childStates p) :=
  foldl_applyUpdate _ _ _

theorem Round.updated_broadcasted (hu : IsInterleaving r.updateTasks updates) (hp : r.Reaches p) :
    (r.updated updates p).broadcastedLatestState = false := by
  rw [Round.updated_apply, ← Bool.not_eq_true, foldl_run_broadcasted]
  rintro ⟨-, hnone⟩
  obtain ⟨host, hmem, a, hsel⟩ := hp
  have hset : ∃ b, (.setLopri a p b : UpdateAction n) ∈ updates.map (·.2) := by
    rcases hsel with hsel | hsel
    · exact ⟨true, (r.mem_updates_setLopri hu).mpr ⟨host, hmem, hsel⟩⟩
    · exact ⟨false, (r.mem_updates_setLopri hu).mpr ⟨host, hmem, by simpa using hsel⟩⟩
  obtain ⟨b, hset⟩ := hset
  exact hnone a p b (List.mem_filter.mpr ⟨hset, by simp [UpdateAction.parId]⟩)

theorem Round.finish_completes (hlen : ∀ p, (r.controller.childStates p).aggIsLopri.length ≤ n)
    (hu : IsInterleaving r.updateTasks updates) (hb : IsInterleaving r.bcastTasks bcasts) :
    ∃ c' sent, r.finish updates bcasts = some (c', sent) ∧
      r.Completes (r.updated updates) c' sent := by
  have hlen' : ∀ p, (r.updated updates p).aggIsLopri.length ≤ n := by
    intro p
    rw [Round.updated_apply]
    exact foldl_run_flags_le _ _ (hlen p)
  obtain ⟨b, hfold, hstates, hsent⟩ := foldlM_broadcast r.controller.aggId2flow
    (bcasts.map (·.2)) { states := r.updated updates } hlen'
  have hreach : ∀ p, p ∈ bcasts.map (·.2) ↔ r.Reaches p := fun p => r.mem_bcasts hb
  have hfinish : r.finish updates bcasts = some
      ({ r.controller with
          childStates := r.resetSawData b.states
          aggStates := fun a => (r.plan a).aggState
          aggSelectors := fun a => (r.plan a).selector }, b.sent) := by
    rw [Round.finish, if_pos ⟨hu, hb⟩, Round.broadcast, hfold]
    rfl
  refine ⟨_, _, hfinish, rfl, fun p => ?_, fun p hp => ?_, fun p hp => ?_, fun p hp => ?_⟩
  · simp only [Round.resetSawData_apply, hstates p]
    split_ifs <;> rfl
  · simp only [Round.resetSawData_apply, hstates p] at hp
    split_ifs at hp with hsaw hmem
    · exact ⟨hp, hsaw⟩
    · exact ⟨hp, hsaw⟩
  · rw [hsent p, if_pos ⟨(hreach p).mpr hp, r.updated_broadcasted hu hp⟩]
    simp
  · rw [hsent p, if_neg fun h => hp ((hreach p).mp h.1)]
    simp

theorem Round.completes_of_finish {c' : FastClusterController n} {sent : List Delivery}
    (hlen : ∀ p, (r.controller.childStates p).aggIsLopri.length ≤ n)
    (hfinish : r.finish updates bcasts = some (c', sent)) :
    IsInterleaving r.updateTasks updates ∧ r.Completes (r.updated updates) c' sent := by
  by_cases hsched : IsInterleaving r.updateTasks updates ∧ IsInterleaving r.bcastTasks bcasts
  · obtain ⟨c'', sent', hsome, hcompletes⟩ := r.finish_completes hlen hsched.1 hsched.2
    rw [hsome] at hfinish
    cases hfinish
    exact ⟨hsched.1, hcompletes⟩
  · rw [Round.finish, if_neg hsched] at hfinish
    cases hfinish

theorem Round.mem_sawData_of_sawGen
    (hu : IsInterleaving r.updateTasks updates) {a : Fin n} {gen : ℤ}
    (hmem : .sawGen a p gen ∈ updates.map (·.2)) : p ∈ r.sawData := by
  obtain ⟨hg, hinfo, -, hq⟩ := (r.mem_updates_sawGen hu).mp hmem
  refine List.mem_flatMap.mpr ⟨a, List.mem_finRange a, List.mem_filterMap.mpr ⟨hg, hinfo, ?_⟩⟩
  exact (SortedMap.find_eq_some_iff (fun _ _ h => UInt64.toNat_inj.mp h) _).mpr hq

end Reach

section Runs

variable {c c' : FastClusterController n} {r : Round n}
  {updates : List (ℕ × UpdateAction n)} {bcasts : List (ℕ × ℕ)} {sent : List Delivery}

theorem computeAndBroadcast_eq_some
    (h : Inv c) (hround : c.computeAndBroadcast updates bcasts = some (c', sent)) :
    ∃ r, c.beginRound = some r ∧ IsInterleaving r.updateTasks updates ∧
      r.Completes (r.updated updates) c' sent := by
  obtain ⟨r, hr, hfinish⟩ := Option.bind_eq_some_iff.mp hround
  refine ⟨r, hr, r.completes_of_finish (fun p => ?_) hfinish⟩
  rw [(beginRound_eq_some hr).1]
  exact h.flags_le p

theorem Inv.mem_round_entries (h : Inv c) (hr : c.beginRound = some r) {host : UInt64} {p : ℕ}
    (hp : c.hosts[p]? = some host) (host' : UInt64) :
    (host', p) ∈ r.controller.host2par.entries ↔ host' = host := by
  rw [(beginRound_eq_some hr).1, h.mem_catchUp, hp, Option.some_inj, eq_comm]

theorem Inv.setLopri_not_mem
    (h : Inv c) (hr : c.beginRound = some r) (hu : IsInterleaving r.updateTasks updates)
    {p : ℕ} (hp : c.hosts.length ≤ p) (a : Fin n) (b : Bool) :
    .setLopri a p b ∉ updates.map (·.2) := by
  intro hmem
  obtain ⟨host, hentry, -⟩ := (r.mem_updates_setLopri hu).mp hmem
  rw [(beginRound_eq_some hr).1, h.mem_catchUp] at hentry
  exact absurd (List.getElem?_eq_some_iff.mp hentry).1 (not_lt.mpr hp)

theorem Round.updated_isLopri_of_not_mem
    {p : ℕ} {a : Fin n} (h : ∀ b, .setLopri a p b ∉ updates.map (·.2)) :
    (r.updated updates p).isLopri a = (r.controller.childStates p).isLopri a := by
  rw [Round.updated_apply]
  refine foldl_run_isLopri_of_not_mem _ _ fun q b hmem => ?_
  obtain ⟨hin, hq⟩ := List.mem_filter.mp hmem
  obtain rfl : q = p := of_decide_eq_true hq
  exact h b hin

theorem Round.updated_isLopri_of_mem
    {p : ℕ} {a : Fin n} {b : Bool} (hmem : .setLopri a p b ∈ updates.map (·.2))
    (hall : ∀ b', .setLopri a p b' ∈ updates.map (·.2) → b' = b) :
    (r.updated updates p).isLopri a = b := by
  rw [Round.updated_apply]
  refine foldl_run_isLopri_of_mem _ _ ⟨p, List.mem_filter.mpr ⟨hmem, by simp [UpdateAction.parId]⟩⟩
    fun q b' hmem' => ?_
  obtain ⟨hin, hq⟩ := List.mem_filter.mp hmem'
  obtain rfl : q = p := of_decide_eq_true hq
  exact hall b' hin

theorem Round.Completes.aggSelectors (hcompletes : r.Completes (r.updated updates) c' sent) :
    c'.aggSelectors = fun a => (r.plan a).selector := by
  rw [hcompletes.controller]

theorem Round.Completes.isLopri (hcompletes : r.Completes (r.updated updates) c' sent) (p a : ℕ) :
    (c'.childStates p).isLopri a = (r.updated updates p).isLopri a := by
  rw [hcompletes.unchanged p]
  rfl

theorem Inv.round
    (h : Inv c) (hr : c.beginRound = some r) (hu : IsInterleaving r.updateTasks updates)
    (hcompletes : r.Completes (r.updated updates) c' sent) : Inv c' := by
  have hcontroller := (beginRound_eq_some hr).1
  have hfields := hcompletes.controller
  rw [hcontroller] at hfields
  have hhosts : c'.hosts = c.hosts := by rw [hfields]; rfl
  have hmap : c'.host2par = c.catchUp.host2par := by rw [hfields]
  have hnew : c'.newHostIdPairs = [] := by rw [hfields]; rfl
  have hstart : r.controller.childStates = c.childStates := by rw [hcontroller]; rfl
  refine ⟨hhosts ▸ h.hosts_nodup, fun e he => ?_, fun e he => ?_, fun host p hp => ?_,
    fun p hp a => ?_, fun e he => ?_, fun p => ?_, fun p => ?_, fun p => ?_⟩
  · rw [hmap] at he
    rw [hhosts]
    exact (h.mem_catchUp e.1 e.2).mp he
  · rw [hnew] at he
    cases he
  · rw [hhosts] at hp
    rw [hmap]
    exact .inl ((h.mem_catchUp host p).mpr hp)
  · rw [hhosts] at hp
    rw [hcompletes.isLopri, Round.updated_isLopri_of_not_mem (h.setLopri_not_mem hr hu hp a),
      hstart]
    exact h.unused_hipri p hp a
  · rw [hnew] at he
    cases he
  · rw [hcompletes.unchanged p]
    simp only [Round.updated_apply, foldl_run_listeners, hstart]
    exact h.listeners_nodup p
  · rw [hcompletes.unchanged p]
    simp only [Round.updated_apply]
    exact foldl_run_flags_le _ _ (hstart ▸ h.flags_le p)
  · by_contra hsaw
    obtain ⟨hsaw, hnot⟩ := hcompletes.saw p (by simpa using hsaw)
    rw [Round.updated_apply, foldl_run_sawData, hstart, h.unseen p] at hsaw
    rcases hsaw with hsaw | ⟨a, q, gen, hmem⟩
    · cases hsaw
    · obtain ⟨hin, hq⟩ := List.mem_filter.mp hmem
      obtain rfl : q = p := of_decide_eq_true hq
      exact hnot (r.mem_sawData_of_sawGen hu hin)

theorem Inv.step (h : Inv c) {e : Call n} (hstep : c.step e = some c') : Inv c' := by
  cases e with
  | registerListener hostId =>
    cases hstep
    exact h.registerListener hostId
  | dropListener hostParId lisId =>
    cases hstep
    exact h.dropListener hostParId lisId
  | updateInfo info =>
    cases hstep
    exact h.updateInfo info
  | computeAndBroadcast updates bcasts =>
    obtain ⟨⟨c'', sent⟩, hround, rfl⟩ := Option.map_eq_some_iff.mp hstep
    obtain ⟨r, hr, hu, hcompletes⟩ := computeAndBroadcast_eq_some h hround
    exact h.round hr hu hcompletes

/-- Every state that a run reaches is well formed. -/
theorem inv_exec {config : FastClusterControllerConfig} {allocs : Fin n → FlowAlloc}
    {distinct : ∀ i j, eqClusterFlow (allocs i).flow (allocs j).flow = true → i = j}
    {hthreads : 0 < config.numThreads} {es : List (Call n)}
    (hrun : Runs.exec step (create config allocs distinct hthreads) es = some c) : Inv c :=
  Runs.exec_invariant (fun _ _ _ h hstep => h.step hstep)
    (inv_create config allocs distinct hthreads) hrun

end Runs

end FastClusterController
end HeypAgents
