import HeypAgents.ClusterAgent.FastAggregator

/-!
# What a snapshot contains

The snapshot of a fast aggregator as a function of the reports since the snapshot
before it: its children and its generation records.
-/

namespace HeypAgents
namespace FastAggregator

variable {n : ℕ}

section Parts

variable (c : Config n) (sel : Fin n → HashingDowngradeSelector) (i : Fin n)

theorem foldl_addGen (gens : List HostInfoGen) (part : Part n) :
    gens.foldl Part.addGen part =
      { part with
        agg := fun i => { part.agg i with infoGen := (part.agg i).infoGen ++ gens } } := by
  induction gens generalizing part with
  | nil => simp
  | cons gen gens ih => simp [ih, Part.addGen]

theorem foldl_addInfo (infos : List (Info n)) (part : Part n) :
    (infos.foldl (Part.addInfo c sel) part).agg i =
        { part.agg i with
          children := (part.agg i).children ++
            (infos.filter fun x => x.aggId = i).map Info.toChild } ∧
      (infos.foldl (Part.addInfo c sel) part).volumeBps i =
        (infos.filter fun x => x.aggId = i).foldl
          (fun e x => e.record c.fp ((sel i).isLopri x.childId) x.volumeBps) (part.volumeBps i) := by
  induction infos generalizing part with
  | nil => simp
  | cons x infos ih =>
    obtain ⟨hagg, hvolume⟩ := ih (part.addInfo c sel x)
    rw [List.foldl_cons, hagg, hvolume]
    by_cases hx : x.aggId = i
    · subst hx
      simp [Part.addInfo]
    · simp [Part.addInfo, hx, Function.update_of_ne (Ne.symm hx)]

theorem aggregate_children (shard : InfoShard n) :
    ((aggregate c sel shard).agg i).children =
      (shard.infos.filter fun x => x.aggId = i).map Info.toChild := by
  rw [aggregate, foldl_addGen]
  simp [foldl_addInfo, emptyPart]

theorem aggregate_infoGen (shard : InfoShard n) :
    ((aggregate c sel shard).agg i).infoGen = shard.gens := by
  rw [aggregate, foldl_addGen]
  simp [foldl_addInfo, emptyPart]

theorem combine_children (parts : Fin kNumInfoShards → Part n) :
    (combine c parts i).children =
      (List.finRange kNumInfoShards).flatMap fun p => ((parts p).agg i).children := by
  have hfold : ∀ (shards : List (Fin kNumInfoShards)) (children : List ChildFlowInfo),
      shards.foldl (fun children p => children ++ ((parts p).agg i).children) children =
        children ++ shards.flatMap fun p => ((parts p).agg i).children := by
    intro shards
    induction shards with
    | nil => simp
    | cons p shards ih => simp [ih]
  have hshards : List.finRange kNumInfoShards =
      0 :: (List.finRange kNumInfoShards).drop 1 := by decide
  calc (combine c parts i).children
      = ((parts 0).agg i).children ++ ((List.finRange kNumInfoShards).drop 1).flatMap
          fun p => ((parts p).agg i).children := hfold _ _
    _ = (0 :: (List.finRange kNumInfoShards).drop 1).flatMap
          fun p => ((parts p).agg i).children := by rw [List.flatMap_cons]
    _ = (List.finRange kNumInfoShards).flatMap
          fun p => ((parts p).agg i).children := by rw [← hshards]

theorem combine_infoGen (parts : Fin kNumInfoShards → Part n) :
    (combine c parts i).infoGen = ((parts 0).agg i).infoGen :=
  rfl

end Parts

def pending (a : FastAggregator n) (s : Fin kNumInfoShards) : InfoShard n :=
  a.infoShards s (a.activeInfoShardIds s)

/-- The reports that go to a shard. -/
def inShard (updates : List InfoBundle) (s : Fin kNumInfoShards) : List InfoBundle :=
  updates.filter fun u => shardOf u = s

def afterUpdates (a : FastAggregator n) (updates : List InfoBundle) : FastAggregator n :=
  updates.foldl updateInfo a

@[simp] theorem config_afterUpdates (a : FastAggregator n) (updates : List InfoBundle) :
    (a.afterUpdates updates).config = a.config := by
  induction updates generalizing a with
  | nil => rfl
  | cons u updates ih => exact (ih (a.updateInfo u)).trans rfl

theorem pending_updateInfo (a : FastAggregator n) (u : InfoBundle) (s : Fin kNumInfoShards) :
    (a.updateInfo u).pending s =
      if shardOf u = s then
        { infos := (a.pending s).infos ++ a.config.got u
          gens := (a.pending s).gens ++ [hostInfoGen u] }
      else a.pending s := by
  by_cases hs : shardOf u = s
  · subst hs
    simp [pending, updateInfo]
  · simp [pending, updateInfo, hs, Function.update_of_ne (Ne.symm hs)]

theorem pending_afterUpdates
    (a : FastAggregator n) (updates : List InfoBundle) (s : Fin kNumInfoShards) :
    (a.afterUpdates updates).pending s =
      { infos := (a.pending s).infos ++ (inShard updates s).flatMap a.config.got
        gens := (a.pending s).gens ++ (inShard updates s).map hostInfoGen } := by
  induction updates generalizing a with
  | nil => simp [afterUpdates, inShard]
  | cons u updates ih =>
    have htail : (a.afterUpdates (u :: updates)).pending s =
        ((a.updateInfo u).afterUpdates updates).pending s := rfl
    rw [htail, ih, pending_updateInfo]
    have hconfig : (a.updateInfo u).config = a.config := rfl
    by_cases hs : shardOf u = s
    · simp [hs, hconfig, inShard]
    · simp [hs, hconfig, inShard]

theorem pending_collectSnapshot
    (a : FastAggregator n) (sel : Fin n → HashingDowngradeSelector) (s : Fin kNumInfoShards) :
    (a.collectSnapshot sel).2.pending s = {} := by
  simp [pending, collectSnapshot]

theorem collectSnapshot_infoGen
    (a : FastAggregator n) (sel : Fin n → HashingDowngradeSelector) (i : Fin n) :
    ((a.collectSnapshot sel).1 i).infoGen = (a.pending 0).gens :=
  (combine_infoGen a.config i (a.snapshotParts sel)).trans
    (aggregate_infoGen a.config sel i (a.pending 0))

structure Epoch (n : ℕ) where
  updates : List InfoBundle
  selectors : Fin n → HashingDowngradeSelector

def afterEpochs (c : Config n) (epochs : List (Epoch n)) : FastAggregator n :=
  epochs.foldl (fun a e => ((a.afterUpdates e.updates).collectSnapshot e.selectors).2)
    { config := c }

theorem afterEpochs_quiet (c : Config n) (epochs : List (Epoch n)) :
    (afterEpochs c epochs).config = c ∧ ∀ s, (afterEpochs c epochs).pending s = {} := by
  induction epochs using List.reverseRecOn with
  | nil => exact ⟨rfl, fun _ => rfl⟩
  | append_singleton epochs e ih =>
    rw [afterEpochs, List.foldl_append]
    exact ⟨(config_afterUpdates _ _).trans ih.1, pending_collectSnapshot _ _⟩

theorem pending_afterEpochs (c : Config n) (epochs : List (Epoch n)) (updates : List InfoBundle)
    (s : Fin kNumInfoShards) :
    ((afterEpochs c epochs).afterUpdates updates).pending s =
      { infos := (inShard updates s).flatMap c.got
        gens := (inShard updates s).map hostInfoGen } := by
  obtain ⟨hconfig, hempty⟩ := afterEpochs_quiet c epochs
  rw [pending_afterUpdates, hempty, hconfig]
  simp

def oneFlow : Config 1 where
  flows _ := { srcDc := "a", dstDc := "b" }
  samplers _ := .create 100 100 .binary64
  distinct := by decide

/-- A host's report about the flow. -/
def report (hostId : UInt64) (usage gen : ℤ) : InfoBundle where
  bundler := { hostId := hostId }
  gen := gen
  flowInfos := [{ flow := { srcDc := "a", dstDc := "b" }, ewmaUsageBps := usage }]

end FastAggregator
end HeypAgents
