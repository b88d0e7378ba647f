import HeypAgents.ClusterAgent.FastAggregatorSnapshot
import HeypAgents.Lib.DoubleBuffer

/-!
# The fast aggregator under concurrent calls

`UpdateInfo` and `CollectSnapshot` at the granularity of single accesses to the ids of
the active buffers and to the buffers.  Each shard is a double buffer; a snapshot runs
one collecting task per shard and combines their parts when all have returned.
`UpdateInfo` may be called by any number of threads at any time, `CollectSnapshot` by
one thread at a time.
-/

namespace HeypAgents
namespace FastAggregator

section ShardOps

variable {n : ℕ}

def InfoShard.pushInfo (info : Info n) (shard : InfoShard n) : InfoShard n :=
  { shard with infos := shard.infos ++ [info] }

def InfoShard.pushGen (gen : HostInfoGen) (shard : InfoShard n) : InfoShard n :=
  { shard with gens := shard.gens ++ [gen] }

def InfoShard.clearGens (shard : InfoShard n) : InfoShard n := { shard with gens := [] }

def InfoShard.clearInfos (shard : InfoShard n) : InfoShard n := { shard with infos := [] }

/-- The accesses to a shard's buffer: `Aggregate` reads the infos and then the gens. -/
def shardOps (c : Config n) : DoubleBuffer.Ops (InfoShard n) InfoBundle (Info n ⊕ HostInfoGen) where
  empty := {}
  pushes info := (c.got info).map InfoShard.pushInfo ++ [InfoShard.pushGen (hostInfoGen info)]
  clears := [InfoShard.clearGens, InfoShard.clearInfos]
  contents shard := shard.infos.map .inl ++ shard.gens.map .inr
  clears_eq _ := rfl

/-- `Aggregate`, one element at a time. -/
def partOf (c : Config n) (sel : Fin n → HashingDowngradeSelector)
    (got : List (Info n ⊕ HostInfoGen)) : Part n :=
  got.foldl
    (fun part x =>
      match x with
      | .inl info => part.addInfo c sel info
      | .inr gen => part.addGen gen)
    (emptyPart c)

theorem partOf_contents
    (c : Config n) (sel : Fin n → HashingDowngradeSelector) (shard : InfoShard n) :
    partOf c sel ((shardOps c).contents shard) = aggregate c sel shard := by
  simp [partOf, shardOps, aggregate, List.foldl_append, List.foldl_map]

theorem applyAll_pushInfo (infos : List (Info n)) (shard : InfoShard n) :
    DoubleBuffer.applyAll (infos.map InfoShard.pushInfo) shard =
      { shard with infos := shard.infos ++ infos } := by
  induction infos generalizing shard with
  | nil => simp [DoubleBuffer.applyAll]
  | cons info infos ih =>
    have htail := ih (shard.pushInfo info)
    simp only [DoubleBuffer.applyAll, List.map_cons, List.foldl_cons] at htail ⊢
    rw [htail]
    simp [InfoShard.pushInfo]

theorem applyAll_pushes (c : Config n) (info : InfoBundle) (shard : InfoShard n) :
    DoubleBuffer.applyAll ((shardOps c).pushes info) shard =
      { infos := shard.infos ++ c.got info, gens := shard.gens ++ [hostInfoGen info] } := by
  have hinfos := applyAll_pushInfo (c.got info) shard
  simp only [DoubleBuffer.applyAll, shardOps, List.foldl_append] at hinfos ⊢
  rw [hinfos]
  rfl

theorem fill_shardOps (c : Config n) (updates : List InfoBundle) :
    DoubleBuffer.fill (shardOps c) updates =
      { infos := updates.flatMap c.got, gens := updates.map hostInfoGen } := by
  induction updates using List.reverseRecOn with
  | nil => rfl
  | append_singleton updates info ih =>
    rw [DoubleBuffer.fill_concat, ih, applyAll_pushes]
    simp

theorem infos_applyAll_take (c : Config n) (info : InfoBundle) (k : ℕ) (shard : InfoShard n) :
    (DoubleBuffer.applyAll (((shardOps c).pushes info).take k) shard).infos =
      shard.infos ++ (c.got info).take k := by
  have hpushes : ((shardOps c).pushes info).take k =
      ((c.got info).take k).map InfoShard.pushInfo ++
        [InfoShard.pushGen (hostInfoGen info)].take (k - (c.got info).length) := by
    simp [shardOps, List.take_append, List.map_take]
  rw [hpushes, DoubleBuffer.applyAll, List.foldl_append]
  have hinfos := applyAll_pushInfo ((c.got info).take k) shard
  rw [DoubleBuffer.applyAll] at hinfos
  rw [hinfos]
  cases k - (c.got info).length with
  | zero => rfl
  | succ m => simp [InfoShard.pushGen]

end ShardOps

section Steps

structure Protocol (n : ℕ) (ι : Type) where
  shards : Fin kNumInfoShards → DoubleBuffer.State (InfoShard n) InfoBundle (Info n ⊕ HostInfoGen) ι
  snapshot : Option (Fin n → HashingDowngradeSelector) := none
  results : List (Fin n → FastAggInfo) := []

inductive Event (n : ℕ) (ι : Type) where
  | updateBegin (thread : ι) (info : InfoBundle)
  | update (shard : Fin kNumInfoShards) (thread : ι)
  | collectBegin (downgradeSelectors : Fin n → HashingDowngradeSelector)
  | collect (shard : Fin kNumInfoShards)
  | collectEnd

variable {n : ℕ} {ι : Type} [DecidableEq ι] (c : Config n)

def initialProtocol : Protocol n ι where
  shards _ := DoubleBuffer.initial (shardOps c)

def Protocol.setShard (p : Protocol n ι) (s : Fin kNumInfoShards)
    (shard : DoubleBuffer.State (InfoShard n) InfoBundle (Info n ⊕ HostInfoGen) ι) : Protocol n ι :=
  { p with shards := Function.update p.shards s shard }

def protocolStep (p : Protocol n ι) : Event n ι → Option (Protocol n ι)
  | .updateBegin thread info =>
    (DoubleBuffer.step (shardOps c) (p.shards (shardOf info))
      (.writerBegin thread info)).map (p.setShard (shardOf info))
  | .update shard thread =>
    (DoubleBuffer.step (shardOps c) (p.shards shard) (.writer thread)).map (p.setShard shard)
  | .collectBegin downgradeSelectors =>
    match p.snapshot with
    | none => some { p with
        shards := fun s =>
          (DoubleBuffer.step (shardOps c) (p.shards s) .collectorBegin).getD (p.shards s)
        snapshot := some downgradeSelectors }
    | some _ => none
  | .collect shard =>
    match p.snapshot with
    | none => none
    | some _ =>
      (DoubleBuffer.step (shardOps c) (p.shards shard) .collector).map (p.setShard shard)
  | .collectEnd =>
    match p.snapshot with
    | none => none
    | some downgradeSelectors =>
      if ∀ s, (p.shards s).collector.isIdle = true then
        some { p with
          snapshot := none
          results := p.results ++ [combine c fun s =>
            partOf c downgradeSelectors ((p.shards s).collected.getLast?.getD [])] }
      else none

end Steps

section Invariant

variable {n : ℕ} {ι : Type} {c : Config n} {p p' : Protocol n ι}

def ahead (p : Protocol n ι) (s : Fin kNumInfoShards) : ℕ :=
  if p.snapshot.isSome ∧ (p.shards s).collector.isIdle = true then 1 else 0

structure ProtocolInv (c : Config n) (p : Protocol n ι) : Prop where
  shard : ∀ s, ∃ g, DoubleBuffer.Inv (shardOps c) (p.shards s) g
  count : ∀ s, (p.shards s).collected.length = p.results.length + ahead p s
  idle : p.snapshot = none → ∀ s, (p.shards s).collector.isIdle = true
  result : ∀ (k : ℕ) r, p.results[k]? = some r → ∃ sel, r = combine c fun s =>
    partOf c sel ((p.shards s).collected[k]?.getD [])

theorem protocolInv_initial [DecidableEq ι] : ProtocolInv c (initialProtocol c : Protocol n ι) where
  shard s := ⟨_, DoubleBuffer.inv_initial⟩
  count s := rfl
  idle _ _ := rfl
  result k r h := by simp [initialProtocol] at h

theorem ProtocolInv.result_of_grows (h : ProtocolInv c p)
    {shards : Fin kNumInfoShards →
      DoubleBuffer.State (InfoShard n) InfoBundle (Info n ⊕ HostInfoGen) ι}
    (hgrows : ∀ s, (p.shards s).collected <+: (shards s).collected) :
    ∀ (k : ℕ) r, p.results[k]? = some r → ∃ sel, r = combine c fun s =>
      partOf c sel ((shards s).collected[k]?.getD []) := by
  intro k r hr
  obtain ⟨sel, rfl⟩ := h.result k r hr
  refine ⟨sel, congrArg (combine c) (funext fun s => ?_)⟩
  obtain ⟨more, hmore⟩ := hgrows s
  have hk := (List.getElem?_eq_some_iff.mp hr).1
  have hlen := h.count s
  rw [← hmore, List.getElem?_append_left (by omega)]

theorem ProtocolInv.collectEnd (h : ProtocolInv c p) {sel : Fin n → HashingDowngradeSelector}
    (hsnapshot : p.snapshot = some sel) (hidle : ∀ s, (p.shards s).collector.isIdle = true) :
    ProtocolInv c { p with
      snapshot := none
      results := p.results ++ [combine c fun s =>
        partOf c sel ((p.shards s).collected.getLast?.getD [])] } := by
  have hcount : ∀ s, (p.shards s).collected.length = p.results.length + 1 := by
    intro s
    have hs := h.count s
    rwa [ahead, hsnapshot, hidle s, if_pos ⟨rfl, rfl⟩] at hs
  refine ⟨h.shard, fun s => ?_, fun _ => hidle, fun k r hr => ?_⟩
  · simpa [ahead] using hcount s
  · rcases lt_or_ge k p.results.length with hk | hk
    · rw [List.getElem?_append_left hk] at hr
      exact h.result k r hr
    · have hlast : k = p.results.length := by
        have := (List.getElem?_eq_some_iff.mp hr).1
        rw [List.length_append, List.length_singleton] at this
        omega
      subst hlast
      rw [List.getElem?_append_right le_rfl, Nat.sub_self, List.getElem?_cons_zero,
        Option.some.injEq] at hr
      refine ⟨sel, hr ▸ congrArg (combine c) (funext fun s => ?_)⟩
      rw [List.getLast?_eq_getElem?, hcount s, Nat.add_sub_cancel]

variable [DecidableEq ι]

theorem ProtocolInv.setShard
    (h : ProtocolInv c p) {s : Fin kNumInfoShards} {e : DoubleBuffer.Event InfoBundle ι}
    {shard : DoubleBuffer.State (InfoShard n) InfoBundle (Info n ⊕ HostInfoGen) ι}
    (hs : DoubleBuffer.step (shardOps c) (p.shards s) e = some shard)
    (hcount : shard.collected.length = p.results.length + ahead (p.setShard s shard) s)
    (hidle : p.snapshot = none → shard.collector.isIdle = true)
    (hgrows : (p.shards s).collected <+: shard.collected) : ProtocolInv c (p.setShard s shard) := by
  have hother : ∀ t, t ≠ s → (p.setShard s shard).shards t = p.shards t :=
    fun t ht => Function.update_of_ne ht _ _
  have hself : (p.setShard s shard).shards s = shard := Function.update_self _ _ _
  refine ⟨fun t => ?_, fun t => ?_, fun hnone t => ?_, h.result_of_grows fun t => ?_⟩
  · by_cases ht : t = s
    · subst ht
      obtain ⟨g, hg⟩ := h.shard t
      rw [hself]
      exact DoubleBuffer.inv_step hg hs
    · rw [hother t ht]
      exact h.shard t
  · by_cases ht : t = s
    · subst ht
      rw [hself]
      exact hcount
    · simp only [ahead, hother t ht]
      exact h.count t
  · by_cases ht : t = s
    · subst ht
      rw [hself]
      exact hidle hnone
    · rw [hother t ht]
      exact h.idle hnone t
  · by_cases ht : t = s
    · subst ht
      rwa [hself]
    · rw [hother t ht]

theorem ProtocolInv.writer
    (h : ProtocolInv c p) {s : Fin kNumInfoShards} {e : DoubleBuffer.Event InfoBundle ι}
    (he : (∃ thread info, e = .writerBegin thread info) ∨ ∃ thread, e = .writer thread)
    {shard : DoubleBuffer.State (InfoShard n) InfoBundle (Info n ⊕ HostInfoGen) ι}
    (hs : DoubleBuffer.step (shardOps c) (p.shards s) e = some shard) :
    ProtocolInv c (p.setShard s shard) := by
  obtain ⟨hcollector, hcollected⟩ := DoubleBuffer.writer_frame he hs
  refine h.setShard hs ?_ (fun hnone => ?_) (by rw [hcollected])
  · have hself : (p.setShard s shard).shards s = shard := Function.update_self _ _ _
    rw [hcollected, ahead, hself, hcollector]
    exact h.count s
  · rw [hcollector]
    exact h.idle hnone s

theorem ProtocolInv.collect
    (h : ProtocolInv c p) {s : Fin kNumInfoShards} (hsnapshot : p.snapshot ≠ none)
    {shard : DoubleBuffer.State (InfoShard n) InfoBundle (Info n ⊕ HostInfoGen) ι}
    (hs : DoubleBuffer.step (shardOps c) (p.shards s) .collector = some shard) :
    ProtocolInv c (p.setShard s shard) := by
  have hself : (p.setShard s shard).shards s = shard := Function.update_self _ _ _
  have hsome : p.snapshot.isSome = true := Option.isSome_iff_ne_none.mpr hsnapshot
  obtain ⟨hbusy, hcases⟩ := DoubleBuffer.collector_cases hs
  have hcount := h.count s
  rw [ahead, hbusy] at hcount
  refine h.setShard hs ?_ (fun hnone => absurd hnone hsnapshot) ?_
  · rw [ahead, hself]
    rcases hcases with ⟨hidle, hcollected⟩ | ⟨hidle, got, hcollected⟩
    · rw [hidle, hcollected]
      simpa using hcount
    · rw [hidle, hcollected, List.length_append]
      have hsome' : (p.setShard s shard).snapshot.isSome = true := hsome
      simpa [hsome'] using hcount
  · rcases hcases with ⟨-, hcollected⟩ | ⟨-, got, hcollected⟩
    · rw [hcollected]
    · rw [hcollected]
      exact List.prefix_append _ _

theorem ProtocolInv.collectBegin (h : ProtocolInv c p) (hnone : p.snapshot = none)
    (sel : Fin n → HashingDowngradeSelector) :
    ProtocolInv c { p with
      shards := fun s =>
        (DoubleBuffer.step (shardOps c) (p.shards s) .collectorBegin).getD (p.shards s)
      snapshot := some sel } := by
  have hbegin : ∀ s, DoubleBuffer.step (shardOps c) (p.shards s) .collectorBegin =
      some { p.shards s with collector := .load } :=
    fun s => DoubleBuffer.collectorBegin_of_isIdle (h.idle hnone s)
  refine ⟨fun s => ?_, fun s => ?_, fun hsome => absurd hsome (by simp),
    h.result_of_grows fun s => ?_⟩
  · obtain ⟨g, hg⟩ := h.shard s
    simp only [hbegin s, Option.getD_some]
    exact DoubleBuffer.inv_step hg (hbegin s)
  · have hcount := h.count s
    rw [ahead, hnone] at hcount
    simpa [ahead, hbegin s, DoubleBuffer.CollectorPc.isIdle] using hcount
  · simp only [hbegin s, Option.getD_some]
    exact List.prefix_rfl

theorem protocolInv_step (h : ProtocolInv c p) {e : Event n ι} (hs : protocolStep c p e = some p') :
    ProtocolInv c p' := by
  cases e with
  | updateBegin thread info =>
    obtain ⟨shard, hshard, rfl⟩ := Option.map_eq_some_iff.mp hs
    exact h.writer (.inl ⟨thread, info, rfl⟩) hshard
  | update s thread =>
    obtain ⟨shard, hshard, rfl⟩ := Option.map_eq_some_iff.mp hs
    exact h.writer (.inr ⟨thread, rfl⟩) hshard
  | collectBegin sel =>
    cases hsnapshot : p.snapshot with
    | none =>
      simp only [protocolStep, hsnapshot, Option.some.injEq] at hs
      exact hs ▸ h.collectBegin hsnapshot sel
    | some sel' => simp [protocolStep, hsnapshot] at hs
  | collect s =>
    cases hsnapshot : p.snapshot with
    | none => simp [protocolStep, hsnapshot] at hs
    | some sel =>
      simp only [protocolStep, hsnapshot] at hs
      obtain ⟨shard, hshard, rfl⟩ := Option.map_eq_some_iff.mp hs
      exact h.collect (by simp [hsnapshot]) hshard
  | collectEnd =>
    cases hsnapshot : p.snapshot with
    | none => simp [protocolStep, hsnapshot] at hs
    | some sel =>
      simp only [protocolStep, hsnapshot] at hs
      split_ifs at hs with hidle
      exact Option.some.inj hs ▸ h.collectEnd hsnapshot hidle

end Invariant

section Account

variable {n : ℕ} {ι : Type} {c : Config n} {p : Protocol n ι}

structure Account where
  /-- Those that each snapshot has returned. -/
  taken : Fin kNumInfoShards → List (List InfoBundle)
  /-- Those that the snapshot in progress has taken out of the active buffer. -/
  inFlight : Fin kNumInfoShards → List InfoBundle
  /-- Those in the active buffer. -/
  current : Fin kNumInfoShards → List InfoBundle

/--
The finished updates of a shard are, in the order in which they were finished, those of
the snapshots so far, those of the snapshot in progress and those in the active buffer.
The children in a snapshot's result are exactly the infos of its updates.  The active
buffer holds the infos of its updates, and what an update in progress has pushed.
-/
structure IsAccount (c : Config n) (p : Protocol n ι) (acc : Account) : Prop where
  finished : ∀ s, (p.shards s).finished = (acc.taken s).flatten ++ acc.inFlight s ++ acc.current s
  taken : ∀ s, (acc.taken s).length = p.results.length
  children : ∀ (k : ℕ) r, p.results[k]? = some r → ∀ i, (r i).children =
    (List.finRange kNumInfoShards).flatMap fun s =>
      ((((acc.taken s)[k]?.getD []).flatMap c.got).filter fun x => x.aggId = i).map Info.toChild
  inFlight : p.snapshot = none → ∀ s, acc.inFlight s = []
  current : ∀ s b, ((p.shards s).active = some b ∨ DoubleBuffer.Writing (p.shards s) b) →
    ∃ pushed, ((p.shards s).bufs b).infos = (acc.current s).flatMap c.got ++ pushed ∧
      ((p.shards s).active = some b → pushed = [])

theorem infos_of_active
    {shard : DoubleBuffer.State (InfoShard n) InfoBundle (Info n ⊕ HostInfoGen) ι}
    {g : DoubleBuffer.Ghost InfoBundle} (h : DoubleBuffer.Inv (shardOps c) shard g)
    {b : Fin 2} (hb : shard.active = some b ∨ DoubleBuffer.Writing shard b) :
    ∃ pushed, (shard.bufs b).infos = g.current.flatMap c.got ++ pushed ∧
      (shard.active = some b → pushed = []) := by
  rcases hb with hactive | ⟨thread, info, k, hpush⟩
  · refine ⟨[], ?_, fun _ => rfl⟩
    rw [(h.active b hactive).2, fill_shardOps, List.append_nil]
  · obtain ⟨hnone, -, hbuf⟩ := h.push thread info b k hpush
    refine ⟨(c.got info).take k, ?_, fun hactive => ?_⟩
    · rw [hbuf, infos_applyAll_take, fill_shardOps]
    · rw [hnone] at hactive
      cases hactive

theorem ProtocolInv.exists_account (h : ProtocolInv c p) : ∃ acc, IsAccount c p acc := by
  choose g hg using h.shard
  have hlen : ∀ s, (g s).taken.length = p.results.length + ahead p s := by
    intro s
    rw [← h.count s, (hg s).collected, List.length_map]
  refine ⟨⟨fun s => (g s).taken.take p.results.length,
    fun s => ((g s).taken.drop p.results.length).flatten ++ (g s).inFlight,
    fun s => (g s).current⟩, fun s => ?_, fun s => ?_, fun k r hr i => ?_, fun hnone s => ?_,
    fun s b hb => infos_of_active (hg s) hb⟩
  · have hsplit := congrArg List.flatten (List.take_append_drop p.results.length (g s).taken)
    rw [List.flatten_append] at hsplit
    rw [(hg s).finished, ← hsplit]
    simp [List.append_assoc]
  · rw [List.length_take, hlen s]
    omega
  · obtain ⟨sel, rfl⟩ := h.result k r hr
    have hk := (List.getElem?_eq_some_iff.mp hr).1
    rw [combine_children]
    refine congrArg (List.flatMap · _) (funext fun s => ?_)
    have hks : k < (g s).taken.length := by
      have := hlen s
      omega
    rw [(hg s).collected, List.getElem?_map, List.getElem?_take_of_lt hk,
      List.getElem?_eq_getElem hks, Option.map_some, Option.getD_some, Option.getD_some,
      partOf_contents, aggregate_children, fill_shardOps]
  · have hidle := h.idle hnone s
    have hcollector := (hg s).collector
    have htaken : (g s).taken.length = p.results.length := by
      rw [hlen s, ahead, hnone]
      simp
    have hdrop : (g s).taken.drop p.results.length = [] := by rw [← htaken, List.drop_length]
    unfold DoubleBuffer.CollectorInv at hcollector
    cases hc : (p.shards s).collector with
    | idle =>
      rw [hc] at hcollector
      simpa [hdrop] using hcollector
    | load | clear | read => simp [hc, DoubleBuffer.CollectorPc.isIdle] at hidle

/--
In every interleaving of the accesses of any number of `UpdateInfo` calls and of repeated
`CollectSnapshot` calls, no buffer is appended to while it is read or cleared, and no
finished update is lost or duplicated.
-/
theorem run_isAccount [DecidableEq ι] (c : Config n) (es : List (Event n ι))
    (hrun : Runs.exec (protocolStep c) (initialProtocol c) es = some p) :
    (∀ s b, DoubleBuffer.Writing (p.shards s) b →
      ¬ DoubleBuffer.Clearing (p.shards s) b ∧ ¬ DoubleBuffer.Reading (p.shards s) b) ∧
      ∃ acc, IsAccount c p acc := by
  have hinv : ProtocolInv c p :=
    Runs.exec_invariant (fun _ _ _ h hs => protocolInv_step h hs) protocolInv_initial hrun
  refine ⟨fun s b hw => ?_, hinv.exists_account⟩
  obtain ⟨g, hg⟩ := hinv.shard s
  exact hg.exclusive hw

def overlap (shard : Fin kNumInfoShards) : List (Event 1 Unit) :=
  [.updateBegin () (report 1 200 1), .update shard (), .update shard (),
    .collectBegin fun _ => {}, .collect shard, .update shard (), .update shard (),
    .update shard ()] ++
  ((List.finRange kNumInfoShards).flatMap fun s =>
    List.replicate (if s = shard then 7 else 5) (.collect s)) ++
  [.collectEnd]

theorem run_isAccount_overlap :
    ∃ p, Runs.exec (protocolStep oneFlow) (initialProtocol oneFlow) (overlap 1) = some p ∧
      p.results.map (fun r => (r 0).children) = [[⟨1, 200, false⟩]] ∧
      ∃ acc, IsAccount oneFlow p acc := by
  have hchildren : (Runs.exec (protocolStep oneFlow) (initialProtocol oneFlow) (overlap 1)).map
      (fun p => p.results.map fun r => (r 0).children) = some [[⟨1, 200, false⟩]] := by
    decide +kernel
  obtain ⟨p, hrun, hp⟩ := Option.map_eq_some_iff.mp hchildren
  exact ⟨p, hrun, hp, (run_isAccount oneFlow (overlap 1) hrun).2⟩

end Account

end FastAggregator
end HeypAgents
