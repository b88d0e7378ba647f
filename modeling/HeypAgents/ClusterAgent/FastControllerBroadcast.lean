import HeypAgents.ClusterAgent.FastControllerInvariant
import HeypAgents.ClusterAgent.FastAggregatorSnapshot

/-!
# The broadcast of a round

Whatever the order of the tasks of a round, it calls every listener of the hosts whose
ids are in some aggregate's diff once, with the classes after step 2, and no others.
-/

namespace HeypAgents

instance (ids : UnorderedIds) (id : ℕ) : Decidable (ids.Selects id) :=
  inferInstanceAs (Decidable (_ ∨ _))

namespace FastClusterController

open Runs

variable {n : ℕ}

instance (r : Round n) (host : UInt64) : Decidable (r.Selects host) :=
  inferInstanceAs (Decidable (∃ _, _ ∨ _))

def received (sent : List Delivery) (parId lisId : ℕ) : List AllocBundle :=
  (sent.filter fun d => d.parId = parId ∧ d.lisId = lisId).map (·.bundle)

section Bundle

variable (aggId2flow : Fin n → FlowMarker) (state : ChildState)

theorem getElem?_bundleFor (i : Fin n) :
    (bundleFor aggId2flow state).flowAllocs[(i : ℕ)]? = some
      { flow := aggId2flow i
        hipriRateLimitBps := if state.isLopri i then 0 else kMaxChildBandwidthBps
        lopriRateLimitBps := if state.isLopri i then kMaxChildBandwidthBps else 0 } := by
  rw [bundleFor, List.getElem?_map, List.getElem?_eq_getElem (by simp), List.getElem_finRange]
  cases h : state.isLopri i with
  | true => simp [h]
  | false => simp [h]

theorem length_bundleFor : (bundleFor aggId2flow state).flowAllocs.length = n := by
  simp [bundleFor]

end Bundle

variable {c c' : FastClusterController n} {r : Round n}
  {updates : List (ℕ × UpdateAction n)} {bcasts : List (ℕ × ℕ)} {sent : List Delivery}
  {host : UInt64} {p : ℕ}

theorem Inv.reaches_iff (h : Inv c) (hr : c.beginRound = some r) (hp : c.hosts[p]? = some host) :
    r.Reaches p ↔ r.Selects host := by
  simp only [Round.Reaches, h.mem_round_entries hr hp, exists_eq_left]

theorem received_eq_of_filter
    (lisId : ℕ) {listeners : List ℕ} {bundle : AllocBundle} (hnodup : listeners.Nodup)
    (hmem : lisId ∈ listeners)
    (hsent : sent.filter (fun d => d.parId = p) = listeners.map fun l => ⟨p, l, bundle⟩) :
    received sent p lisId = [bundle] := by
  have hfilter : sent.filter (fun d => d.parId = p ∧ d.lisId = lisId) =
      (sent.filter fun d => d.parId = p).filter fun d => d.lisId = lisId := by
    rw [List.filter_filter]
    refine List.filter_congr fun d _ => ?_
    simp [Bool.and_comm]
  have hone : listeners.filter (fun l => l = lisId) = [lisId] := by
    rw [List.filter_eq, List.count_eq_one_of_mem hnodup hmem]
    rfl
  rw [received, hfilter, hsent, List.filter_map]
  have hcomp : ((fun d : Delivery => decide (d.lisId = lisId)) ∘
      fun l => (⟨p, l, bundle⟩ : Delivery)) = fun l => decide (l = lisId) := rfl
  rw [hcomp, hone]
  rfl

theorem received_eq_nil (lisId : ℕ) (hsent : sent.filter (fun d => d.parId = p) = []) :
    received sent p lisId = [] := by
  rw [received, List.map_eq_nil_iff, List.filter_eq_nil_iff]
  rw [List.filter_eq_nil_iff] at hsent
  intro d hd hmatch
  exact hsent d hd (by simpa using (of_decide_eq_true hmatch).1)

theorem Inv.computeAndBroadcast_completes (h : Inv c) (hr : c.beginRound = some r)
    (hu : IsInterleaving r.updateTasks updates) (hb : IsInterleaving r.bcastTasks bcasts) :
    ∃ c' sent, c.computeAndBroadcast updates bcasts = some (c', sent) ∧
      r.Completes (r.updated updates) c' sent := by
  have hlen : ∀ p, (r.controller.childStates p).aggIsLopri.length ≤ n := by
    rw [(beginRound_eq_some hr).1]
    exact h.flags_le
  obtain ⟨c', sent, hfinish, hcompletes⟩ := r.finish_completes hlen hu hb
  refine ⟨c', sent, ?_, hcompletes⟩
  rw [computeAndBroadcast, hr, Option.bind_some, hfinish]

theorem listeners_updated (hr : c.beginRound = some r) (p : ℕ) :
    (r.updated updates p).listeners = (c.childStates p).listeners := by
  rw [Round.updated_apply, foldl_run_listeners, (beginRound_eq_some hr).1]
  rfl

theorem Inv.received_eq (h : Inv c) (hr : c.beginRound = some r)
    (hcompletes : r.Completes (r.updated updates) c' sent)
    (hp : c.hosts[p]? = some host) {lisId : ℕ} (hlis : lisId ∈ (c.childStates p).listeners)
    (hsel : r.Selects host) :
    received sent p lisId = [bundleFor r.controller.aggId2flow (r.updated updates p)] := by
  have hsent := hcompletes.sent_of_reaches p ((h.reaches_iff hr hp).mpr hsel)
  rw [listeners_updated hr] at hsent
  exact received_eq_of_filter lisId (h.listeners_nodup p) hlis hsent

section FromCreate

variable {config : FastClusterControllerConfig} {allocs : Fin n → FlowAlloc}
  {distinct : ∀ i j, eqClusterFlow (allocs i).flow (allocs j).flow = true → i = j}
  {hthreads : 0 < config.numThreads} {es : List (Call n)}

/--
In every reachable state and for every schedule of the tasks, a round completes.  A listener
of a host whose id is in some aggregate's diff receives one bundle, whose allocs are LOPRI
for the aggregates for which the host is LOPRI after step 2; the listeners of the other
hosts receive none.
-/
theorem broadcast_exactlyOnce
    (hrun : exec step (create config allocs distinct hthreads) es = some c)
    (hr : c.beginRound = some r)
    (hu : IsInterleaving r.updateTasks updates) (hb : IsInterleaving r.bcastTasks bcasts) :
    ∃ c' sent, c.computeAndBroadcast updates bcasts = some (c', sent) ∧
      ∀ host p lisId, c.hosts[p]? = some host → lisId ∈ (c.childStates p).listeners →
        (r.Selects host → ∃ bundle, received sent p lisId = [bundle] ∧
          bundle.flowAllocs.length = n ∧
          ∀ i : Fin n, ∃ alloc, bundle.flowAllocs[(i : ℕ)]? = some alloc ∧
            (alloc.hipriRateLimitBps = 0 ↔ (r.updated updates p).isLopri i = true)) ∧
        (¬ r.Selects host → received sent p lisId = []) := by
  have hinv : Inv c := inv_exec hrun
  obtain ⟨c', sent, hround, hcompletes⟩ := hinv.computeAndBroadcast_completes hr hu hb
  refine ⟨c', sent, hround, fun host p lisId hp hlis => ⟨fun hsel => ?_, fun hsel => ?_⟩⟩
  · refine ⟨_, hinv.received_eq hr hcompletes hp hlis hsel, length_bundleFor _ _,
      fun i => ⟨_, getElem?_bundleFor _ _ i, ?_⟩⟩
    cases (r.updated updates p).isLopri i with
    | true => simp
    | false => simp [kMaxChildBandwidthBps]
  · exact received_eq_nil lisId
      (hcompletes.sent_of_not_reaches p (mt (hinv.reaches_iff hr hp).mp hsel))

end FromCreate

section Instances

open FastAggregator (report)

def twoHosts : List (Call 1) :=
  [.registerListener 3, .registerListener 5, .registerListener 3, .updateInfo (report 3 200 1)]

/-- The second listener of host 3 receives one bundle. -/
theorem broadcast_exactlyOnce_two_hosts :
    ∃ c ∈ exec step oneAgg twoHosts, ∃ c' sent, ∃ bundle,
      c.computeAndBroadcast [(0, .setLopri 0 0 true), (0, .setLopri 0 1 true)]
          [(1, 1), (0, 0)] = some (c', sent) ∧
        received sent 0 3 = [bundle] := by
  have hround : ∃ c ∈ exec step oneAgg twoHosts, ∃ r ∈ c.beginRound,
      IsInterleaving r.updateTasks [(0, .setLopri 0 0 true), (0, .setLopri 0 1 true)] ∧
        IsInterleaving r.bcastTasks [(1, 1), (0, 0)] ∧
        c.hosts[0]? = some 3 ∧ 3 ∈ (c.childStates 0).listeners ∧ r.Selects 3 := by
    decide +kernel
  obtain ⟨c, hrun, r, hr, hu, hb, hhost, hlis, hsel⟩ := hround
  obtain ⟨c', sent, hsome, hall⟩ := broadcast_exactlyOnce hrun hr hu hb
  obtain ⟨bundle, hreceived, -⟩ := (hall 3 0 3 hhost hlis).1 hsel
  exact ⟨c, hrun, c', sent, bundle, hsome, hreceived⟩

end Instances

end FastClusterController
end HeypAgents
