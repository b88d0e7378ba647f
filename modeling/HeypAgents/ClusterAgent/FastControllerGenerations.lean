import HeypAgents.ClusterAgent.FastControllerBroadcast

/-!
# Generation records

A snapshot has the generation records of the first shard only.  So the records are
complete exactly when every report is from a host of that shard, and of the hosts that
have reported since the last round, only those are told a generation.
-/

namespace HeypAgents

namespace FastAggregator

variable {n : ℕ}

theorem shardOf_eq_zero_iff (u : InfoBundle) : shardOf u = 0 ↔ u.bundler.hostId.toNat % 8 = 0 := by
  rw [Fin.ext_iff]
  show u.bundler.hostId.toNat % 2 ^ 32 % 8 = 0 ↔ _
  omega

def GensComplete (snapInfos : Fin n → FastAggInfo) (updates : List InfoBundle) : Prop :=
  ∀ i, ((snapInfos i).infoGen).Perm (updates.map hostInfoGen)
deriving Decidable

theorem perm_inShard_iff (updates : List InfoBundle) (s : Fin kNumInfoShards) :
    ((inShard updates s).map hostInfoGen).Perm (updates.map hostInfoGen) ↔
      ∀ u ∈ updates, shardOf u = s := by
  constructor
  · intro hperm
    have hlen := hperm.length_eq
    rw [List.length_map, List.length_map, inShard, List.length_filter_eq_length_iff] at hlen
    exact fun u hu => of_decide_eq_true (hlen u hu)
  · intro hall
    rw [inShard, List.filter_eq_self.mpr fun u hu => decide_eq_true (hall u hu)]

theorem gensComplete_iff {snapInfos : Fin n → FastAggInfo} {updates : List InfoBundle}
    (hgens : ∀ i, (snapInfos i).infoGen = (inShard updates 0).map hostInfoGen) :
    GensComplete snapInfos updates ↔ n = 0 ∨ ∀ u ∈ updates, u.bundler.hostId.toNat % 8 = 0 := by
  simp only [GensComplete, hgens, perm_inShard_iff, shardOf_eq_zero_iff]
  constructor
  · intro h
    rcases Nat.eq_zero_or_pos n with hn | hn
    · exact .inl hn
    · exact .inr (h ⟨0, hn⟩)
  · rintro (rfl | h) i
    · exact i.elim0
    · exact h

end FastAggregator

namespace FastClusterController

open Runs FastAggregator

variable {n : ℕ}

/-- The reports since the last round. -/
def reportsSince (es : List (Call n)) : List InfoBundle :=
  es.foldl
    (fun reports e =>
      match e with
      | .updateInfo info => reports ++ [info]
      | .computeAndBroadcast _ _ => []
      | _ => reports)
    []

theorem reportsSince_concat (es : List (Call n)) (e : Call n) :
    reportsSince (es ++ [e]) =
      match e with
      | .updateInfo info => reportsSince es ++ [info]
      | .computeAndBroadcast _ _ => []
      | _ => reportsSince es := by
  rw [reportsSince, List.foldl_append]
  rfl

section Runs

variable {config : FastClusterControllerConfig} {allocs : Fin n → FlowAlloc}
  {distinct : ∀ i j, eqClusterFlow (allocs i).flow (allocs j).flow = true → i = j}
  {hthreads : 0 < config.numThreads} {es : List (Call n)} {c : FastClusterController n}

theorem pending_gens_exec (hrun : exec step (create config allocs distinct hthreads) es = some c)
    (s : Fin kNumInfoShards) :
    (c.aggregator.pending s).gens = (inShard (reportsSince es) s).map hostInfoGen := by
  induction es using List.reverseRecOn generalizing c with
  | nil =>
    cases hrun
    rfl
  | append_singleton es e ih =>
    obtain ⟨c', hpre, hstep⟩ := exec_concat_eq_some.mp hrun
    have hbefore := ih hpre
    rw [reportsSince_concat]
    cases e with
    | registerListener hostId =>
      cases hstep
      exact hbefore
    | dropListener hostParId lisId =>
      cases hstep
      exact hbefore
    | updateInfo info =>
      cases hstep
      have hupdate := pending_updateInfo c'.aggregator info s
      by_cases hs : shardOf info = s
      · rw [if_pos hs] at hupdate
        simp [FastClusterController.updateInfo, hupdate, hbefore, inShard, hs]
      · rw [if_neg hs] at hupdate
        simp [FastClusterController.updateInfo, hupdate, hbefore, inShard, hs]
    | computeAndBroadcast updates bcasts =>
      obtain ⟨⟨c'', sent⟩, hsome, rfl⟩ := Option.map_eq_some_iff.mp hstep
      obtain ⟨r, hr, -, hcompletes⟩ := computeAndBroadcast_eq_some (inv_exec hpre) hsome
      have haggregator : c''.aggregator =
          (c'.aggregator.collectSnapshot c'.aggSelectors).2 := by
        rw [hcompletes.controller, (beginRound_eq_some hr).1]
        rfl
      simp [haggregator, pending_collectSnapshot, inShard]

theorem infoGen_snapInfos
    {r : Round n} (hrun : exec step (create config allocs distinct hthreads) es = some c)
    (hr : c.beginRound = some r) (i : Fin n) :
    (r.snapInfos i).infoGen = (inShard (reportsSince es) 0).map hostInfoGen := by
  rw [(beginRound_eq_some hr).2.1, collectSnapshot_infoGen, pending_gens_exec hrun]

end Runs

section Told

variable {c c' : FastClusterController n} {r : Round n}
  {updates : List (ℕ × UpdateAction n)} {host : UInt64} {p : ℕ}

theorem Inv.sawData_updated_iff
    (h : Inv c) (hr : c.beginRound = some r) (hu : IsInterleaving r.updateTasks updates)
    (hp : c.hosts[p]? = some host) :
    (r.updated updates p).sawDataThisRun = true ↔
      ∃ a, ∃ hg ∈ (r.snapInfos a).infoGen, hg.hostId = host := by
  have hstart : (r.controller.childStates p).sawDataThisRun = false := by
    rw [(beginRound_eq_some hr).1]
    exact h.unseen p
  rw [Round.updated_apply, foldl_run_sawData, hstart]
  simp only [Bool.false_eq_true, false_or]
  constructor
  · rintro ⟨a, q, gen, hmem⟩
    obtain ⟨hin, hq⟩ := List.mem_filter.mp hmem
    obtain rfl : q = p := of_decide_eq_true hq
    obtain ⟨hg, hinfo, -, hentry⟩ := (r.mem_updates_sawGen hu).mp hin
    exact ⟨a, hg, hinfo, (h.mem_round_entries hr hp _).mp hentry⟩
  · rintro ⟨a, hg, hinfo, hhost⟩
    have hin := (r.mem_updates_sawGen hu).mpr
      ⟨hg, hinfo, rfl, (h.mem_round_entries hr hp _).mpr hhost⟩
    exact ⟨a, p, hg.gen, List.mem_filter.mpr ⟨hin, by simp [UpdateAction.parId]⟩⟩

theorem Inv.le_genSeen_updated
    (h : Inv c) (hr : c.beginRound = some r) (hu : IsInterleaving r.updateTasks updates)
    (hp : c.hosts[p]? = some host) {a : Fin n} {hg : HostInfoGen}
    (hinfo : hg ∈ (r.snapInfos a).infoGen) (hhost : hg.hostId = host) :
    hg.gen ≤ (r.updated updates p).genSeen := by
  have hin := (r.mem_updates_sawGen hu).mpr
    ⟨hg, hinfo, rfl, (h.mem_round_entries hr hp _).mpr hhost⟩
  rw [Round.updated_apply]
  exact le_foldl_run_genSeen _ _ (List.mem_filter.mpr ⟨hin, by simp [UpdateAction.parId]⟩)

end Told

section Main

structure IsTold (es : List (Call n)) (c : FastClusterController n) (r : Round n)
    (host : UInt64) (p lisId : ℕ) : Prop where
  registered : c.hosts[p]? = some host
  listens : lisId ∈ (c.childStates p).listeners
  selected : r.Selects host
  reported : ∃ u ∈ reportsSince es, u.bundler.hostId = host
  positive : ∀ u ∈ reportsSince es, u.bundler.hostId = host → 0 < u.gen

def AnswersReports (es : List (Call n)) (sent : List Delivery) (host : UInt64)
    (p lisId : ℕ) : Prop :=
  ∀ bundle ∈ received sent p lisId, ∀ u ∈ reportsSince es,
    u.bundler.hostId = host → u.gen ≤ bundle.gen
deriving Decidable

variable {config : FastClusterControllerConfig} {allocs : Fin n → FlowAlloc}
  {distinct : ∀ i j, eqClusterFlow (allocs i).flow (allocs j).flow = true → i = j}
  {hthreads : 0 < config.numThreads} {es : List (Call n)} {c c' : FastClusterController n}
  {r : Round n} {actions : List (ℕ × UpdateAction n)} {bcasts : List (ℕ × ℕ)}
  {sent : List Delivery} {host : UInt64} {p lisId : ℕ}

theorem mem_infoGen_iff (hrun : exec step (create config allocs distinct hthreads) es = some c)
    (hr : c.beginRound = some r) (a : Fin n) {u : InfoBundle} (hu : u ∈ reportsSince es)
    (hhost : u.bundler.hostId = host) :
    (∃ hg ∈ (r.snapInfos a).infoGen, hg.hostId = host) ↔ host.toNat % 8 = 0 := by
  simp only [infoGen_snapInfos hrun hr, inShard, List.mem_map, List.mem_filter,
    decide_eq_true_eq, shardOf_eq_zero_iff]
  constructor
  · rintro ⟨_, ⟨v, ⟨-, hshard⟩, rfl⟩, rfl⟩
    exact hshard
  · intro hshard
    exact ⟨hostInfoGen u, ⟨u, ⟨hu, by rw [hhost, hshard]⟩, rfl⟩, hhost⟩

theorem IsTold.answersReports_iff
    (hrun : exec step (create config allocs distinct hthreads) es = some c)
    (hr : c.beginRound = some r) (hround : c.computeAndBroadcast actions bcasts = some (c', sent))
    (h : IsTold es c r host p lisId) :
    AnswersReports es sent host p lisId ↔ host.toNat % 8 = 0 := by
  have hinv : Inv c := inv_exec hrun
  obtain ⟨r', hr', hu, hcompletes⟩ := computeAndBroadcast_eq_some hinv hround
  obtain rfl : r = r' := Option.some_inj.mp (hr.symm.trans hr')
  have hreceived := hinv.received_eq hr hcompletes h.registered h.listens h.selected
  have hsaw := hinv.sawData_updated_iff hr hu h.registered
  obtain ⟨a, -⟩ := h.selected
  obtain ⟨u, hmem, hhost⟩ := h.reported
  simp only [mem_infoGen_iff hrun hr _ hmem hhost] at hsaw
  simp only [AnswersReports, hreceived, List.mem_singleton, forall_eq, bundleFor]
  constructor
  · intro hall
    by_contra hshard
    have hgen := hall u hmem hhost
    rw [if_neg (by rw [hsaw]; simp [hshard])] at hgen
    exact absurd (h.positive u hmem hhost) (not_lt.mpr hgen)
  · intro hshard v hv hvhost
    have hinfo : hostInfoGen v ∈ (r.snapInfos a).infoGen := by
      rw [infoGen_snapInfos hrun hr, inShard]
      refine List.mem_map.mpr ⟨v, List.mem_filter.mpr ⟨hv, decide_eq_true ?_⟩, rfl⟩
      rw [shardOf_eq_zero_iff, hvhost, hshard]
    rw [if_pos (hsaw.mpr ⟨a, hshard⟩)]
    exact hinv.le_genSeen_updated hr hu h.registered hinfo hvhost

/--
A snapshot has the records of all reports since the one before exactly when all are from
hosts whose ids are multiples of 8 (or there is no aggregate). In a round of the controller,
a listener of a host that has reported positive generations is told at least the largest
exactly when the id of the host is a multiple of 8.
-/
theorem generations_complete_iff
    (cfg : Config n) (epochs : List (Epoch n)) (updates : List InfoBundle)
    (sel : Fin n → HashingDowngradeSelector) :
    (GensComplete (((afterEpochs cfg epochs).afterUpdates updates).collectSnapshot sel).1 updates ↔
      n = 0 ∨ ∀ u ∈ updates, u.bundler.hostId.toNat % 8 = 0) ∧
    ∀ (config : FastClusterControllerConfig) (allocs : Fin n → FlowAlloc)
      (distinct : ∀ i j, eqClusterFlow (allocs i).flow (allocs j).flow = true → i = j)
      (hthreads : 0 < config.numThreads) (es : List (Call n)) (c c' : FastClusterController n)
      (r : Round n) (actions : List (ℕ × UpdateAction n)) (bcasts : List (ℕ × ℕ))
      (sent : List Delivery) (host : UInt64) (p lisId : ℕ),
      exec step (create config allocs distinct hthreads) es = some c →
      c.beginRound = some r →
      c.computeAndBroadcast actions bcasts = some (c', sent) →
      IsTold es c r host p lisId →
      (AnswersReports es sent host p lisId ↔ host.toNat % 8 = 0) := by
  refine ⟨gensComplete_iff fun i => ?_, ?_⟩
  · rw [collectSnapshot_infoGen, pending_afterEpochs]
  · intro config allocs distinct hthreads es c c' r actions bcasts sent host p lisId
      hrun hr hround htold
    exact htold.answersReports_iff hrun hr hround

def oneReport (hostId : UInt64) (usage gen : ℤ) : List (Call 1) :=
  [.registerListener hostId, .updateInfo (report hostId usage gen)]

/-- Two hosts of the first shard report; one of them registers and is told its generation. -/
theorem generations_complete_first_shard :
    GensComplete (((afterEpochs oneFlow []).afterUpdates
        [report 8 200 7, report 16 50 2]).collectSnapshot fun _ => {}).1
        [report 8 200 7, report 16 50 2] ∧
      ∃ c ∈ exec step oneAgg (oneReport 8 200 7), ∃ x ∈ c.computeAndBroadcast
          [(0, .sawGen 0 0 7), (0, .setLopri 0 0 true)] [(0, 0)],
        AnswersReports (oneReport 8 200 7) x.2 8 0 1 := by
  have hmain := generations_complete_iff oneFlow [] [report 8 200 7, report 16 50 2] fun _ => {}
  refine ⟨hmain.1.mpr (.inr (by decide)), ?_⟩
  have hround : ∃ c ∈ exec step oneAgg (oneReport 8 200 7),
      ∃ r ∈ c.beginRound, ∃ x ∈ c.computeAndBroadcast
          [(0, .sawGen 0 0 7), (0, .setLopri 0 0 true)] [(0, 0)],
        c.hosts[0]? = some 8 ∧ 1 ∈ (c.childStates 0).listeners ∧ r.Selects 8 := by
    decide +kernel
  obtain ⟨c, hrun, r, hr, x, hx, hhost, hlis, hsel⟩ := hround
  have htold : IsTold (oneReport 8 200 7) c r 8 0 1 := ⟨hhost, hlis, hsel, by decide, by decide⟩
  exact ⟨c, hrun, x, hx, (hmain.2 _ _ _ _ _ c x.1 r _ _ x.2 8 0 1 hrun hr hx htold).mpr (by decide)⟩

/--
Host 1 reports generation 7.  The snapshot has no record of it, and in a round the
listener of the host is told generation 0.
-/
theorem not_generations_complete_host_one :
    ¬ GensComplete (((afterEpochs oneFlow []).afterUpdates [report 1 200 7]).collectSnapshot
        fun _ => {}).1 [report 1 200 7] ∧
      ∃ c ∈ exec step oneAgg (oneReport 1 200 7), ∃ x ∈ c.computeAndBroadcast
          [(0, .setLopri 0 0 true)] [(0, 0)],
        ¬ AnswersReports (oneReport 1 200 7) x.2 1 0 1 := by
  decide +kernel

end Main

end FastClusterController
end HeypAgents
