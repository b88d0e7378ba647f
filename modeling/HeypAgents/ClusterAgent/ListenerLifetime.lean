import HeypAgents.ClusterAgent.FastControllerBroadcast
import HeypAgents.ClusterAgent.FullController
import HeypAgents.Lib.Listeners

/-!
# Callbacks after the destruction of a listener

A callback captures a pointer to the reactor that owns the listener, so a controller
must not call it once the listener is destroyed.  `FastClusterController` always
removes the callback.  The destructor of `FullClusterController` removes it only if the
host id is not 0; what is left behind is called when a flow of host 0 gets an
allocation, which needs an aggregator that accepts such flows.
-/

namespace HeypAgents

open Runs Listeners Flows GroupFold

def PerAggAllocator.AllocatesAll {σ : Type} (allocator : PerAggAllocator σ) : Prop :=
  ∀ {state time info state' allocs},
    allocator.allocAgg state time info = some (state', allocs) →
    ∀ child ∈ info.children, ∃ alloc ∈ allocs, alloc.flow = child.flow

namespace FullClusterController

variable {σ : Type}

inductive Call where
  | getBundlerID (bundler : FlowMarker)
  | updateInfo (bundlerId : ℕ) (info : InfoBundle)
  | computeAndBroadcast (order : List (ℚ × AggInfo))

def publisher : Publisher (FullClusterController σ) UInt64 Listener Call where
  register := registerListener
  destroy := destroyListener
  call c
    | .getBundlerID bundler => some ((c.getBundlerID bundler).2, [])
    | .updateInfo bundlerId info => (c.updateInfo bundlerId info).map fun c' => (c', [])
    | .computeAndBroadcast order =>
      (c.computeAndBroadcast order).map fun r => (r.1, r.2.map (·.1))

/-- The callback of the listener is in `new_bundle_funcs_`. -/
def Registered (c : FullClusterController σ) (lis : Listener) : Prop :=
  lis.lisId ∈ c.newBundleFuncs lis.hostId

def ReportsHostZero (c : FullClusterController σ) : Prop :=
  ∃ e ∈ c.aggregator.entries, e.1 = true ∧ e.info.flow.hostId = 0

section Rounds

variable {c c' : FullClusterController σ} {order : List (ℚ × AggInfo)}
  {sent : List (Listener × AllocBundle)} {bundles : AList fun _ : UInt64 => AllocBundle}

theorem mem_broadcast {lis : Listener} :
    lis ∈ (c.broadcast bundles).map (·.1) ↔ c.Registered lis ∧ lis.hostId ∈ bundles := by
  simp only [broadcast, List.mem_map, List.mem_flatMap, Prod.exists, Registered]
  constructor
  · rintro ⟨_, bundle, ⟨e, he, lisId, hlis, heq⟩, rfl⟩
    obtain ⟨rfl, rfl⟩ := Prod.mk.inj heq
    exact ⟨hlis, AList.mem_keys.mpr (List.mem_map_of_mem he)⟩
  · rintro ⟨hlis, hmem⟩
    obtain ⟨e, he, heq⟩ := List.mem_map.mp (AList.mem_keys.mp hmem)
    exact ⟨lis, e.2, ⟨e, he, lis.lisId, heq ▸ hlis, by rw [heq]⟩, rfl⟩

theorem computeAndBroadcast_eq_some (h : c.computeAndBroadcast order = some (c', sent)) :
    ∃ aggregator infos state partialSets, c.aggregator.forEachAgg = some (aggregator, infos) ∧
      order.Perm infos ∧
      ClusterAllocator.getAllocs c.allocator c.allocatorState order = some (state, partialSets) ∧
      c' = { c with
        aggregator := aggregator
        allocatorState := state
        lastAllocBundle := bundleByHost partialSets } ∧
      sent = c.broadcast (bundleByHost partialSets) := by
  simp only [computeAndBroadcast, Option.bind_eq_bind] at h
  obtain ⟨⟨aggregator, infos⟩, hinfos, h⟩ := Option.bind_eq_some_iff.mp h
  dsimp only at h
  split_ifs at h with horder
  obtain ⟨⟨state, partialSets⟩, hallocs, h⟩ := Option.bind_eq_some_iff.mp h
  obtain ⟨rfl, rfl⟩ := Prod.mk.inj (Option.some.inj h)
  exact ⟨aggregator, infos, state, partialSets, hinfos, horder, hallocs, rfl, rfl⟩

theorem flow_of_getAllocs {allocator : PerAggAllocator σ} {state state' : σ}
    {infos : List (ℚ × AggInfo)} {partialSets : List (List FlowAlloc)}
    (h : ClusterAllocator.getAllocs allocator state infos = some (state', partialSets)) :
    (∀ alloc ∈ partialSets.flatten, ∃ info ∈ infos, ∃ child ∈ info.2.children,
      alloc.flow = child.flow) ∧
    (allocator.AllocatesAll → ∀ info ∈ infos, ∀ child ∈ info.2.children,
      ∃ alloc ∈ partialSets.flatten, alloc.flow = child.flow) := by
  unfold ClusterAllocator.getAllocs at h
  induction infos using List.reverseRecOn generalizing state' partialSets with
  | nil =>
    obtain ⟨rfl, rfl⟩ := Prod.mk.inj (Option.some.inj h)
    simp
  | append_singleton infos info ih =>
    rw [List.foldlM_append] at h
    obtain ⟨⟨state₁, sets₁⟩, hinit, hlast⟩ := Option.bind_eq_some_iff.mp h
    simp only [List.foldlM_cons, List.foldlM_nil, Option.bind_eq_bind] at hlast
    obtain ⟨_, hmap, hlast⟩ := Option.bind_eq_some_iff.mp hlast
    obtain ⟨⟨state₂, allocs⟩, hallocs, rfl⟩ := Option.map_eq_some_iff.mp hmap
    obtain ⟨rfl, rfl⟩ := Prod.mk.inj (Option.some.inj hlast)
    obtain ⟨hflows, hall⟩ := ih hinit
    simp only [List.flatten_append, List.flatten_singleton, List.mem_append, List.mem_singleton]
    constructor
    · rintro alloc (hold | hnew)
      · obtain ⟨info', hinfo', hchild⟩ := hflows alloc hold
        exact ⟨info', .inl hinfo', hchild⟩
      · exact ⟨info, .inr rfl, allocator.flow_of_child hallocs alloc hnew⟩
    · rintro hcomplete info' (hold | rfl) child hchild
      · obtain ⟨alloc, halloc, hflow⟩ := hall hcomplete info' hold child hchild
        exact ⟨alloc, .inl halloc, hflow⟩
      · obtain ⟨alloc, halloc, hflow⟩ := hcomplete hallocs child hchild
        exact ⟨alloc, .inr halloc, hflow⟩

theorem hostZero_of_round {lis : Listener}
    (h : c.computeAndBroadcast order = some (c', sent)) (hzero : lis.hostId = 0) :
    (lis ∈ sent.map (·.1) → c.Registered lis ∧ c.ReportsHostZero) ∧
      (c.allocator.AllocatesAll → c.Registered lis → c.ReportsHostZero → lis ∈ sent.map (·.1)) := by
  obtain ⟨aggregator, infos, state, partialSets, hinfos, horder, hallocs, -, rfl⟩ :=
    computeAndBroadcast_eq_some h
  obtain ⟨hflows, hall⟩ := flow_of_getAllocs hallocs
  have hchildren : ∀ child, (∃ info ∈ order, child ∈ info.2.children) ↔
      ∃ e ∈ c.aggregator.entries, e.1 = true ∧ e.info = child := by
    intro child
    rw [← c.aggregator.mem_children_aggWips]
    have hmap := (FlowAggregator.children_forEachAgg hinfos).1
    have hmem : ∀ l, l ∈ infos.map (·.2.children) ↔
        l ∈ c.aggregator.aggWips.entries.map (·.2.children) := fun l => by rw [hmap]
    simp only [List.mem_map] at hmem
    constructor
    · rintro ⟨info, hinfo, hchild⟩
      obtain ⟨entry, hentry, heq⟩ := (hmem _).mp ⟨info, horder.mem_iff.mp hinfo, rfl⟩
      exact ⟨entry, hentry, heq ▸ hchild⟩
    · rintro ⟨entry, hentry, hchild⟩
      obtain ⟨info, hinfo, heq⟩ := (hmem _).mpr ⟨entry, hentry, rfl⟩
      exact ⟨info, horder.mem_iff.mpr hinfo, heq ▸ hchild⟩
  have hbundle : (0 : UInt64) ∈ bundleByHost partialSets ↔
      ∃ alloc ∈ partialSets.flatten, alloc.flow.hostId = 0 := by
    rw [bundleByHost, mem_groupFold]
    simp
  rw [mem_broadcast, hzero, hbundle]
  constructor
  · rintro ⟨hlis, alloc, halloc, hhost⟩
    obtain ⟨info, hinfo, child, hchild, hflow⟩ := hflows alloc halloc
    obtain ⟨e, he, hactive, rfl⟩ := (hchildren child).mp ⟨info, hinfo, hchild⟩
    exact ⟨hlis, e, he, hactive, hflow ▸ hhost⟩
  · rintro hcomplete hlis ⟨e, he, hactive, hhost⟩
    obtain ⟨info, hinfo, hchild⟩ := (hchildren e.info).mpr ⟨e, he, hactive, rfl⟩
    obtain ⟨alloc, halloc, hflow⟩ := hall hcomplete info hinfo e.info hchild
    exact ⟨hlis, alloc, halloc, hflow ▸ hhost⟩

end Rounds

section Runs

/--
No callback is registered twice, the members that do not change are as at the start,
and the aggregator has accepted its active flows.
-/
structure Good (c₀ c : FullClusterController σ) : Prop where
  nodup : ∀ hostId, (c.newBundleFuncs hostId).Nodup
  allocator : c.allocator = c₀.allocator
  config : c.aggregator.config = c₀.aggregator.config
  valid : ∀ id flow, ∀ v ∈ (c.aggregator.bundleStates id).active.lookup flow,
    c₀.aggregator.config.isValidChild v.2.flow = true

variable {c₀ c : FullClusterController σ}

theorem Good.setListeners (h : Good c₀ c) (hostId : UInt64) {lisIds : List ℕ}
    (hlisIds : lisIds.Nodup) (nextLisId : ℕ) :
    Good c₀ { c with
      newBundleFuncs := Function.update c.newBundleFuncs hostId lisIds
      nextLisId := nextLisId } where
  nodup hostId' := by
    by_cases heq : hostId' = hostId
    · subst heq
      simpa using hlisIds
    · simpa [heq] using h.nodup hostId'
  allocator := h.allocator
  config := h.config
  valid := h.valid

theorem Good.updateInfo (h : Good c₀ c) {bundlerId : ℕ} {info : InfoBundle}
    {c' : FullClusterController σ} (hupdate : c.updateInfo bundlerId info = some c') :
    Good c₀ c' := by
  obtain ⟨aggregator, haggregator, rfl⟩ := Option.map_eq_some_iff.mp hupdate
  unfold FlowAggregator.update at haggregator
  split_ifs at haggregator with hcheck
  obtain rfl := Option.some.inj haggregator
  refine ⟨h.nodup, h.allocator, h.config, fun id => ?_⟩
  by_cases heq : id = bundlerId
  · subst heq
    simp only [Function.update_self]
    refine BundleState.forall_active_update (P := fun i =>
      c₀.aggregator.config.isValidChild i.flow = true) _ _ (h.valid id) fun i hi => ?_
    rw [← h.config]
    exact List.all_eq_true.mp hcheck.2 i hi
  · simp only [Function.update_of_ne heq]
    exact h.valid id

theorem Good.getBundlerID (h : Good c₀ c) (bundler : FlowMarker) :
    Good c₀ (c.getBundlerID bundler).2 := by
  have haggregator : (c.aggregator.getBundlerID bundler).2.config = c.aggregator.config ∧
      (c.aggregator.getBundlerID bundler).2.bundleStates = c.aggregator.bundleStates := by
    unfold FlowAggregator.getBundlerID
    split <;> exact ⟨rfl, rfl⟩
  refine ⟨h.nodup, h.allocator, haggregator.1.trans h.config, ?_⟩
  simp only [FullClusterController.getBundlerID, haggregator.2]
  exact h.valid

theorem tracks (c₀ : FullClusterController σ) :
    Tracks publisher (Good c₀) Registered fun lis => lis.hostId = 0 where
  register c hostId hgood := by
    refine ⟨hgood.setListeners hostId (hgood.nodup hostId).insert _, fun lis hlis => ?_⟩
    by_cases heq : lis.hostId = hostId
    · subst heq
      have hmem : lis.lisId = c.nextLisId ∨ lis.lisId ∈ c.newBundleFuncs lis.hostId := by
        simpa [publisher, registerListener, Registered] using hlis
      refine hmem.symm.imp_right fun hid => ?_
      change lis = { hostId := lis.hostId, lisId := c.nextLisId }
      rw [← hid]
    · left
      simpa [publisher, registerListener, Registered, heq] using hlis
  destroy c lis hgood := by
    by_cases hzero : lis.hostId = 0
    · have hsame : (publisher.destroy c lis) = c := if_neg (not_not_intro hzero)
      rw [hsame]
      exact ⟨hgood, fun lis' hlis' => ⟨hlis', fun heq => heq ▸ hzero⟩⟩
    · have herase : publisher.destroy c lis = { c with
          newBundleFuncs := Function.update c.newBundleFuncs lis.hostId
            ((c.newBundleFuncs lis.hostId).erase lis.lisId) } := if_pos hzero
      rw [herase]
      refine ⟨hgood.setListeners lis.hostId ((hgood.nodup lis.hostId).erase _) _,
        fun lis' hlis' => ?_⟩
      by_cases heq : lis'.hostId = lis.hostId
      · have hmem : lis'.lisId ≠ lis.lisId ∧ lis'.lisId ∈ c.newBundleFuncs lis'.hostId := by
          simpa [Registered, heq, (hgood.nodup lis.hostId).mem_erase_iff] using hlis'
        exact ⟨hmem.2, fun h => absurd (congrArg Listener.lisId h) hmem.1⟩
      · refine ⟨?_, fun h => absurd (congrArg Listener.hostId h) heq⟩
        simpa [Registered, heq] using hlis'
  call c e r hgood hcall := by
    cases e with
    | getBundlerID bundler =>
      obtain rfl := Option.some.inj hcall
      exact ⟨hgood.getBundlerID bundler, fun _ h => h, by simp⟩
    | updateInfo bundlerId info =>
      obtain ⟨c', hc', rfl⟩ := Option.map_eq_some_iff.mp hcall
      refine ⟨hgood.updateInfo hc', fun lis hlis => ?_, by simp⟩
      obtain ⟨aggregator, -, rfl⟩ := Option.map_eq_some_iff.mp hc'
      exact hlis
    | computeAndBroadcast order =>
      obtain ⟨⟨c', sent⟩, hround, rfl⟩ := Option.map_eq_some_iff.mp hcall
      obtain ⟨_, _, _, _, hinfos, -, -, rfl, rfl⟩ := computeAndBroadcast_eq_some hround
      obtain ⟨-, -, hstates, hconfig⟩ := FlowAggregator.children_forEachAgg hinfos
      refine ⟨⟨hgood.nodup, hgood.allocator, hconfig.trans hgood.config, ?_⟩, fun _ h => h,
        fun lis hlis => (mem_broadcast.mp hlis).1⟩
      simp only [hstates]
      exact hgood.valid

/--
Before a round the listeners of host 0 that are registered exist, or no flow of host 0
is active.
-/
def CleanRound (s : System (FullClusterController σ) Listener) : Event UInt64 Listener Call → Prop
  | .call (.computeAndBroadcast _) =>
    (∀ lis, s.publisher.Registered lis → lis.hostId = 0 → lis ∈ s.live) ∨
      ¬ s.publisher.ReportsHostZero
  | _ => True

variable {s s' : System (FullClusterController σ) Listener} {e : Event UInt64 Listener Call}

abbrev SystemInv (c₀ : FullClusterController σ)
    (s : System (FullClusterController σ) Listener) : Prop :=
  Listeners.Inv (Good c₀) Registered (fun lis => lis.hostId = 0) s

theorem callsLive_of_cleanRound (h : SystemInv c₀ s) (hclean : CleanRound s e) :
    CallsLive publisher s e := by
  cases e with
  | register | destroy => trivial
  | call e =>
    intro r hr lis hlis
    have hregistered := ((tracks c₀).call s.publisher e r h.good hr).2.2 lis hlis
    rcases h.live lis hregistered with hlive | hzero
    · exact hlive
    cases e with
    | getBundlerID bundler =>
      obtain rfl := Option.some.inj hr
      simp at hlis
    | updateInfo bundlerId info =>
      obtain ⟨c', -, rfl⟩ := Option.map_eq_some_iff.mp hr
      simp at hlis
    | computeAndBroadcast order =>
      obtain ⟨⟨c', sent⟩, hround, rfl⟩ := Option.map_eq_some_iff.mp hr
      have hreports := ((hostZero_of_round hround hzero).1 hlis).2
      exact hclean.resolve_right (not_not_intro hreports) lis hregistered hzero

theorem cleanRound_of_callsLive (hall : s.publisher.allocator.AllocatesAll)
    (hstep : step publisher s e = some s') (hlive : CallsLive publisher s e) : CleanRound s e := by
  cases e with
  | register | destroy => trivial
  | call e =>
    cases e with
    | getBundlerID | updateInfo => trivial
    | computeAndBroadcast order =>
      obtain ⟨r, hr, -⟩ := Option.map_eq_some_iff.mp hstep
      have hcalls := hlive r hr
      obtain ⟨⟨c', sent⟩, hround, rfl⟩ := Option.map_eq_some_iff.mp hr
      by_cases hreports : s.publisher.ReportsHostZero
      · refine .inl fun lis hregistered hzero => hcalls lis ?_
        exact (hostZero_of_round hround hzero).2 hall hregistered hreports
      · exact .inr hreports

section FromCreate

variable (aggDemandPredictor : DemandPredictor) (config : FlowAggregatorConfig)
  (allocator : PerAggAllocator σ) (state : σ)

/-- A new controller, without listeners. -/
def newSystem (aggregator : FlowAggregator) (allocator : PerAggAllocator σ) (state : σ) :
    System (FullClusterController σ) Listener where
  publisher := create aggregator allocator state

theorem systemInv_newSystem :
    SystemInv (create (.create aggDemandPredictor config) allocator state)
      (newSystem (.create aggDemandPredictor config) allocator state) where
  good := ⟨fun _ => List.nodup_nil, rfl, rfl, fun _ _ v hv => by
    simp [newSystem, create, FlowAggregator.create] at hv⟩
  live lis hlis := by simp [newSystem, create, Registered] at hlis

variable {aggDemandPredictor config allocator state} {events : List (Event UInt64 Listener Call)}

theorem callsLive_of_cleanRounds
    (hclean : AllSteps (step publisher) CleanRound
      (newSystem (.create aggDemandPredictor config) allocator state) events) :
    AllSteps (step publisher) (CallsLive publisher)
      (newSystem (.create aggDemandPredictor config) allocator state) events := by
  intro pre e s hpre hrun
  have hinv := (tracks _).inv_exec
    (systemInv_newSystem aggDemandPredictor config allocator state) hrun
  exact callsLive_of_cleanRound hinv (hclean pre e s hpre hrun)

theorem cleanRounds_of_callsLive (hall : allocator.AllocatesAll)
    (hrun : exec (step publisher)
      (newSystem (.create aggDemandPredictor config) allocator state) events = some s)
    (hlive : AllSteps (step publisher) (CallsLive publisher)
      (newSystem (.create aggDemandPredictor config) allocator state) events) :
    AllSteps (step publisher) CleanRound
      (newSystem (.create aggDemandPredictor config) allocator state) events := by
  intro pre e t hpre ht
  have hinv := (tracks _).inv_exec
    (systemInv_newSystem aggDemandPredictor config allocator state) ht
  obtain ⟨t', ht'⟩ := exec_mono hrun hpre
  obtain ⟨_, ht₀, hstep⟩ := exec_concat_eq_some.mp ht'
  obtain rfl := Option.some.inj (ht.symm.trans ht₀)
  refine cleanRound_of_callsLive ?_ hstep (hlive pre e t hpre ht)
  rw [hinv.good.allocator]
  exact hall

theorem cleanRounds_of_rejects
    (hrejects : ∀ flow, config.isValidChild flow = true → flow.hostId ≠ 0) :
    AllSteps (step publisher) CleanRound
      (newSystem (.create aggDemandPredictor config) allocator state) events := by
  intro pre e s _ hrun
  have hinv := (tracks _).inv_exec
    (systemInv_newSystem aggDemandPredictor config allocator state) hrun
  have hnone : ¬ s.publisher.ReportsHostZero := by
    rintro ⟨entry, hentry, hactive, hhost⟩
    obtain ⟨id, hlookup⟩ := FlowAggregator.lookup_of_active hentry hactive
    exact hrejects _ (hinv.good.valid id _ _ hlookup) hhost
  cases e with
  | register | destroy => trivial
  | call e =>
    cases e with
    | getBundlerID | updateInfo => trivial
    | computeAndBroadcast order => exact .inr hnone

end FromCreate

end Runs

end FullClusterController

namespace FastClusterController

variable {n : ℕ}

/-- The handle that a registration returns. -/
structure Listener where
  hostParId : ℕ
  lisId : ℕ
deriving DecidableEq, Repr

inductive RoundCall (n : ℕ) where
  | updateInfo (info : InfoBundle)
  | computeAndBroadcast (updates : List (ℕ × UpdateAction n)) (bcasts : List (ℕ × ℕ))

def publisher : Publisher (FastClusterController n) UInt64 Listener (RoundCall n) where
  register c hostId :=
    (c.registerListener hostId, { hostParId := (c.getID hostId).id, lisId := c.nextLisId })
  destroy c lis := c.dropListener lis.hostParId lis.lisId
  call c
    | .updateInfo info => some (c.updateInfo info, [])
    | .computeAndBroadcast updates bcasts =>
      (c.computeAndBroadcast updates bcasts).map fun r =>
        (r.1, r.2.map fun d => { hostParId := d.parId, lisId := d.lisId })

def Registered (c : FastClusterController n) (lis : Listener) : Prop :=
  lis.lisId ∈ (c.childStates lis.hostParId).listeners

theorem listeners_round {c c' : FastClusterController n}
    {updates : List (ℕ × UpdateAction n)} {bcasts : List (ℕ × ℕ)} {sent : List Delivery}
    (h : Inv c) (hround : c.computeAndBroadcast updates bcasts = some (c', sent)) :
    (∀ p, (c'.childStates p).listeners = (c.childStates p).listeners) ∧
      ∀ d ∈ sent, d.lisId ∈ (c.childStates d.parId).listeners := by
  obtain ⟨r, hr, -, hcompletes⟩ := computeAndBroadcast_eq_some h hround
  constructor
  · intro p
    rw [hcompletes.unchanged p]
    exact listeners_updated hr p
  · intro d hd
    have hmem : d ∈ sent.filter fun d' => d'.parId = d.parId :=
      List.mem_filter.mpr ⟨hd, decide_eq_true rfl⟩
    by_cases hreaches : r.Reaches d.parId
    · rw [hcompletes.sent_of_reaches d.parId hreaches, listeners_updated hr] at hmem
      obtain ⟨lisId, hlis, heq⟩ := List.mem_map.mp hmem
      rw [← heq]
      exact hlis
    · rw [hcompletes.sent_of_not_reaches d.parId hreaches] at hmem
      cases hmem

theorem tracks : Tracks (publisher (n := n)) Inv Registered fun _ => False where
  register c hostId h := by
    refine ⟨h.registerListener hostId, fun lis hlis => ?_⟩
    by_cases heq : lis.hostParId = (c.getID hostId).id
    · have hmem : lis.lisId = c.nextLisId ∨
          lis.lisId ∈ (c.childStates lis.hostParId).listeners := by
        simpa [publisher, registerListener, Registered, onID, heq] using hlis
      refine hmem.symm.imp_right fun hid => ?_
      change lis = { hostParId := (c.getID hostId).id, lisId := c.nextLisId }
      rw [← hid, ← heq]
    · left
      simpa [publisher, registerListener, Registered, onID, heq] using hlis
  destroy c lis h := by
    refine ⟨h.dropListener lis.hostParId lis.lisId, fun lis' hlis' => ?_⟩
    by_cases heq : lis'.hostParId = lis.hostParId
    · have hmem : lis'.lisId ≠ lis.lisId ∧
          lis'.lisId ∈ (c.childStates lis'.hostParId).listeners := by
        simpa [publisher, dropListener, Registered, onID, heq,
          (h.listeners_nodup lis.hostParId).mem_erase_iff] using hlis'
      exact ⟨hmem.2, fun hsame => hmem.1 (congrArg Listener.lisId hsame)⟩
    · refine ⟨?_, fun hsame => heq (congrArg Listener.hostParId hsame)⟩
      simpa [publisher, dropListener, Registered, onID, heq] using hlis'
  call c e r h hcall := by
    cases e with
    | updateInfo info =>
      obtain rfl := Option.some.inj hcall
      exact ⟨h.updateInfo info, fun _ hlis => hlis, by simp⟩
    | computeAndBroadcast updates bcasts =>
      obtain ⟨⟨c', sent⟩, hround, rfl⟩ := Option.map_eq_some_iff.mp hcall
      obtain ⟨hlisteners, hsent⟩ := listeners_round h hround
      have hstep : c.step (.computeAndBroadcast updates bcasts) = some c' := by
        rw [FastClusterController.step, hround]
        rfl
      refine ⟨h.step hstep, fun lis hlis => ?_, fun lis hlis => ?_⟩
      · rw [Registered, ← hlisteners lis.hostParId]
        exact hlis
      · obtain ⟨d, hd, rfl⟩ := List.mem_map.mp hlis
        exact hsent d hd

/-- A new controller, without listeners. -/
def newSystem (config : FastClusterControllerConfig) (allocs : Fin n → FlowAlloc)
    (distinct : ∀ i j, eqClusterFlow (allocs i).flow (allocs j).flow = true → i = j)
    (numThreads_pos : 0 < config.numThreads) : System (FastClusterController n) Listener where
  publisher := create config allocs distinct numThreads_pos

theorem callsLive_newSystem (config : FastClusterControllerConfig) (allocs : Fin n → FlowAlloc)
    (distinct : ∀ i j, eqClusterFlow (allocs i).flow (allocs j).flow = true → i = j)
    (numThreads_pos : 0 < config.numThreads) (events : List (Event UInt64 Listener (RoundCall n))) :
    AllSteps (Listeners.step publisher) (CallsLive publisher)
      (newSystem config allocs distinct numThreads_pos) events := by
  refine tracks.callsLive (fun _ h => h) events ⟨inv_create _ _ _ _, fun lis hlis => ?_⟩
  simp [newSystem, create, Registered] at hlis

end FastClusterController

/--
Every callback of a round is to a listener that exists, in every run of the fast
controller and in every run of the full controller with the aggregator of the cluster
agent, whatever the allocator.
-/
theorem callbacks_live
    {σ : Type} (aggDemandPredictor : DemandPredictor) (usageHistoryWindow : ℚ)
    (allocator : PerAggAllocator σ) (state : σ)
    (events : List (Event UInt64 FullClusterController.Listener FullClusterController.Call))
    {n : ℕ} (fastConfig : FastClusterControllerConfig) (allocs : Fin n → FlowAlloc)
    (distinct : ∀ i j, eqClusterFlow (allocs i).flow (allocs j).flow = true → i = j)
    (numThreads_pos : 0 < fastConfig.numThreads)
    (fastEvents : List (Event UInt64 FastClusterController.Listener
      (FastClusterController.RoundCall n))) :
    AllSteps (step FullClusterController.publisher) (CallsLive FullClusterController.publisher)
      (FullClusterController.newSystem
        (.newHostToCluster aggDemandPredictor usageHistoryWindow) allocator state) events ∧
    AllSteps (step FastClusterController.publisher) (CallsLive FastClusterController.publisher)
      (FastClusterController.newSystem fastConfig allocs distinct numThreads_pos) fastEvents := by
  constructor
  · refine FullClusterController.callsLive_of_cleanRounds
      (FullClusterController.cleanRounds_of_rejects fun flow hflow => ?_)
    simp only [expectedFieldsAreSet, FlowAggregator.hostFlowOptions, Bool.and_eq_true] at hflow
    simpa using hflow.1.1.2
  · exact FastClusterController.callsLive_newSystem fastConfig allocs distinct numThreads_pos
      fastEvents

namespace FullClusterController

def someFlow : FlowMarker := { srcDc := "a", dstDc := "b", job := "j" }

/-- A system with a `BweAggAllocator` that admits the flow. -/
def bweSystem (aggregator : FlowAggregator) :
    System (FullClusterController BweAggAllocator) Listener :=
  newSystem aggregator (BweAggAllocator.perAgg .binary64 .stable)
    { config := {}, aggAdmissions := [(someFlow, { hipriRateLimitBps := 10 })] }

/-- A host registers and reports a flow. -/
def reports (hostId : UInt64) : List (Event UInt64 Listener Call) :=
  [.register hostId, .call (.getBundlerID {}),
    .call (.updateInfo 0 { flowInfos := [{ flow := { someFlow with hostId := hostId } }] })]

/-- The aggregates of the next round. -/
def reportedAggs (hostId : UInt64) : List (ℚ × AggInfo) :=
  [(0, { parent := { flow := toClusterFlow someFlow }
         children := [{ flow := { someFlow with hostId := hostId } }] })]

def hostSeven : List (Event UInt64 Listener Call) :=
  reports 7 ++ [.call (.computeAndBroadcast (reportedAggs 7)), .destroy ⟨7, 1⟩,
    .call (.computeAndBroadcast (reportedAggs 7))]

end FullClusterController

namespace FastClusterController

/-- A listener of host 3 is destroyed between two rounds. -/
def hostThree : List (Event UInt64 Listener (RoundCall 1)) :=
  [.register 3, .register 5, .register 3, .call (.updateInfo (FastAggregator.report 3 200 1)),
    .call (.computeAndBroadcast
      [(0, .setLopri (Fin.last 0) 0 true), (0, .setLopri (Fin.last 0) 1 true)] [(1, 1), (0, 0)]),
    .destroy ⟨0, 1⟩, .call (.updateInfo (FastAggregator.report 3 50 2)),
    .call (.computeAndBroadcast
      [(0, .setLopri (Fin.last 0) 0 false), (0, .setLopri (Fin.last 0) 1 false)]
      [(0, 0), (1, 1)])]

end FastClusterController

open FullClusterController (bweSystem someFlow hostSeven) in
open FastClusterController (oneAgg hostThree) in
theorem callbacks_live_host_seven :
    ((exec (step FullClusterController.publisher)
        (bweSystem (.newHostToCluster (fun _ _ => 0) 120)) hostSeven).isSome = true ∧
      AllSteps (step FullClusterController.publisher) (CallsLive FullClusterController.publisher)
        (bweSystem (.newHostToCluster (fun _ _ => 0) 120)) hostSeven) ∧
      (exec (step FastClusterController.publisher) { publisher := oneAgg } hostThree).isSome =
        true ∧
      AllSteps (step FastClusterController.publisher) (CallsLive FastClusterController.publisher)
        { publisher := oneAgg } hostThree := by
  obtain ⟨hfull, hfast⟩ := callbacks_live (fun _ _ => 0) 120
    (BweAggAllocator.perAgg .binary64 .stable)
    { config := {}, aggAdmissions := [(someFlow, { hipriRateLimitBps := 10 })] }
    hostSeven { targetNumSamples := 100, numThreads := 2 }
    (fun _ : Fin 1 => { flow := { srcDc := "a", dstDc := "b" }, hipriRateLimitBps := 100 })
    (by decide) (by decide) hostThree
  exact ⟨⟨by decide +kernel, hfull⟩, by decide +kernel, hfast⟩

open FullClusterController (bweSystem reports reportedAggs) in
/--
Only the aggregator keeps the full controller from calling what it has left behind: with
one that accepts flows of host 0, the destroyed listener of host 0 is called.
-/
theorem destroyed_listener_called :
    ∃ s, exec (step FullClusterController.publisher)
        (bweSystem (.create (fun _ _ => 0) { getAggFlowFn := toClusterFlow }))
        (reports 0 ++ [.destroy ⟨0, 1⟩]) = some s ∧
      ¬ CallsLive FullClusterController.publisher s
        (.call (.computeAndBroadcast (reportedAggs 0))) := by
  have hcalled : (exec (step FullClusterController.publisher)
      (bweSystem (.create (fun _ _ => 0) { getAggFlowFn := toClusterFlow }))
      (reports 0 ++ [.destroy ⟨0, 1⟩])).bind (fun s =>
        (FullClusterController.publisher.call s.publisher
          (.computeAndBroadcast (reportedAggs 0))).map fun r => (s.live, r.2)) =
      some ([], [⟨0, 1⟩]) := by
    decide +kernel
  obtain ⟨s, hs, hround⟩ := Option.bind_eq_some_iff.mp hcalled
  obtain ⟨r, hr, heq⟩ := Option.map_eq_some_iff.mp hround
  obtain ⟨hlive, hsent⟩ := Prod.mk.inj heq
  refine ⟨s, hs, fun h => ?_⟩
  have hmem := h r hr ⟨0, 1⟩ (hsent ▸ List.mem_singleton_self _)
  rw [hlive] at hmem
  cases hmem

end HeypAgents
