import HeypAgents.HostAgent.IptablesSync

/-!
# The DSCP of a flow

`SettingsFindDscp` looks a flow up in the applied settings, the more specific
settings first.  The kernel walks the OUTPUT chain, in which the settings for
ports stand in the order in which they were added, the last one first, and those
for addresses only come after them.
-/

namespace HeypAgents
namespace Iptables

open EditScript SortedDiff Runs

section Lookup

/-- `std::lower_bound` in a sorted batch: the first entry that is not less. -/
def lowerBound (batch : List Setting) (toFind : Setting) : Option Setting :=
  batch.find? fun s => !decide (s < toFind)

def findEntry (batch : List Setting) (srcPort dstPort : ℕ) (dstAddr : String) : Option Setting :=
  (lowerBound batch { srcPort := srcPort, dstPort := dstPort, dstAddr := dstAddr }).filter
    fun s => s.srcPort == srcPort && s.dstPort == dstPort && s.dstAddr == dstAddr

def settingsFindDscp
    (batch : List Setting) (srcPort dstPort : ℕ) (dstAddr defaultDscp : String) : String :=
  match findEntry batch srcPort dstPort dstAddr with
  | some s => s.dscp
  | none =>
    match findEntry batch 0 dstPort dstAddr with
    | some s => s.dscp
    | none =>
      match findEntry batch srcPort 0 dstAddr with
      | some s => s.dscp
      | none =>
        match findEntry batch 0 0 dstAddr with
        | some s => s.dscp
        | none => defaultDscp

def Setting.key (s : Setting) : ℕ × ℕ × String := (s.srcPort, s.dstPort, s.dstAddr)

def DistinctKeys (batch : List Setting) : Prop := (batch.map Setting.key).Nodup
deriving Decidable

variable {batch : List Setting} {s t x : Setting}

theorem Setting.le_iff :
    s ≤ t ↔ s.srcPort < t.srcPort ∨ s.srcPort = t.srcPort ∧
      (s.dstPort < t.dstPort ∨ s.dstPort = t.dstPort ∧
        (s.dstAddr < t.dstAddr ∨ s.dstAddr = t.dstAddr ∧
          (s.classId < t.classId ∨ s.classId = t.classId ∧ s.dscp ≤ t.dscp))) := by
  have hle : s ≤ t ↔ s.fields ≤ t.fields := Iff.rfl
  simp only [hle, Setting.fields, Prod.Lex.toLex_le_toLex]

theorem empty_le (text : String) : "" ≤ text := by
  rw [← not_lt, String.lt_iff_toList_lt]
  simp

theorem Setting.key_eq_of_between
    (hle : { srcPort := s.srcPort, dstPort := s.dstPort, dstAddr := s.dstAddr } ≤ x)
    (hx : x ≤ s) : x.key = s.key := by
  rw [Setting.le_iff] at hle hx
  dsimp only at hle
  have hsrc : x.srcPort = s.srcPort := by omega
  have hdst : x.dstPort = s.dstPort := by omega
  have haddr : x.dstAddr = s.dstAddr := by
    simp only [hsrc, hdst, lt_irrefl, false_or, true_and] at hle hx
    rcases hle with h | ⟨h, -⟩
    · rcases hx with h' | ⟨h', -⟩
      · exact absurd h' h.asymm
      · exact h'
    · exact h.symm
  rw [key, key, hsrc, hdst, haddr]

theorem DistinctKeys.eq_of_key_eq
    (h : DistinctKeys batch) (hs : s ∈ batch) (ht : t ∈ batch) (hkey : s.key = t.key) : s = t :=
  List.inj_on_of_nodup_map h hs ht hkey

theorem of_findEntry_eq_some
    {srcPort dstPort : ℕ} {dstAddr : String} (h : findEntry batch srcPort dstPort dstAddr = some s) :
    s ∈ batch ∧ s.key = (srcPort, dstPort, dstAddr) := by
  rw [findEntry, Option.filter_eq_some_iff] at h
  obtain ⟨hfind, hkey⟩ := h
  refine ⟨List.mem_of_find?_eq_some hfind, ?_⟩
  simpa [Setting.key, and_assoc] using hkey

theorem exists_findEntry (hsorted : batch.Pairwise (· ≤ ·)) (hmem : s ∈ batch) :
    ∃ x, findEntry batch s.srcPort s.dstPort s.dstAddr = some x := by
  have hs : { srcPort := s.srcPort, dstPort := s.dstPort, dstAddr := s.dstAddr } ≤ s := by
    rw [Setting.le_iff]
    rcases (empty_le s.classId).lt_or_eq with h | h
    · simp [h]
    · simp [← h, empty_le]
  have hsome : (lowerBound batch
      { srcPort := s.srcPort, dstPort := s.dstPort, dstAddr := s.dstAddr }).isSome :=
    List.find?_isSome.mpr ⟨s, hmem, by simpa using hs⟩
  obtain ⟨x, hx⟩ := Option.isSome_iff_exists.mp hsome
  obtain ⟨hnot, as, bs, hbatch, hbefore⟩ := List.find?_eq_some_iff_append.mp hx
  have hxs : x ≤ s := by
    rw [hbatch] at hmem hsorted
    rcases List.mem_append.mp hmem with h | h
    · exact absurd hs (by simpa using hbefore s h)
    · rcases List.mem_cons.mp h with rfl | h
      · exact le_rfl
      · exact (List.pairwise_cons.mp (List.pairwise_append.mp hsorted).2.1).1 s h
  have hkey : x.key = s.key := Setting.key_eq_of_between (by simpa using hnot) hxs
  refine ⟨x, Option.filter_eq_some_iff.mpr ⟨hx, ?_⟩⟩
  simpa [Setting.key, and_assoc] using hkey

/-- The search finds the entry for the key. -/
theorem findEntry_eq_some_iff (hsorted : batch.Pairwise (· ≤ ·)) (hkeys : DistinctKeys batch)
    {srcPort dstPort : ℕ} {dstAddr : String} :
    findEntry batch srcPort dstPort dstAddr = some s ↔
      s ∈ batch ∧ s.key = (srcPort, dstPort, dstAddr) := by
  refine ⟨of_findEntry_eq_some, fun ⟨hmem, hkey⟩ => ?_⟩
  obtain ⟨rfl, rfl, rfl⟩ : s.srcPort = srcPort ∧ s.dstPort = dstPort ∧ s.dstAddr = dstAddr := by
    simpa [Setting.key] using hkey
  obtain ⟨x, hx⟩ := exists_findEntry hsorted hmem
  obtain ⟨hxmem, hxkey⟩ := of_findEntry_eq_some hx
  rw [hx, hkeys.eq_of_key_eq hxmem hmem hxkey]

theorem settingsFindDscp_of_forall (hsorted : batch.Pairwise (· ≤ ·)) {dstAddr dscp : String}
    (hdscp : ∀ x ∈ batch, x.dstAddr = dstAddr → x.dscp = dscp)
    (hmem : s ∈ batch) (hkey : s.key = (0, 0, dstAddr)) (srcPort dstPort : ℕ)
    (defaultDscp : String) : settingsFindDscp batch srcPort dstPort dstAddr defaultDscp = dscp := by
  have hfound : ∀ {src dst x}, findEntry batch src dst dstAddr = some x → x.dscp = dscp := by
    intro src dst x hx
    obtain ⟨hxmem, hxkey⟩ := of_findEntry_eq_some hx
    exact hdscp x hxmem (by simpa [Setting.key] using congrArg (·.2.2) hxkey)
  obtain ⟨hsrc, hdst, haddr⟩ : s.srcPort = 0 ∧ s.dstPort = 0 ∧ s.dstAddr = dstAddr := by
    simpa [Setting.key] using hkey
  obtain ⟨x, hx⟩ := exists_findEntry hsorted hmem
  rw [hsrc, hdst, haddr] at hx
  unfold settingsFindDscp
  split
  next h => exact hfound h
  next =>
    split
    next h => exact hfound h
    next =>
      split
      next h => exact hfound h
      next => simp only [hx, hfound hx]

end Lookup

section Walk

/-- A TCP flow that leaves through `dev`. -/
structure Flow where
  dev : String
  srcPort : ℕ
  dstPort : ℕ
  dstAddr : String
deriving DecidableEq, Repr

def Rule.appliesTo (r : Rule) (f : Flow) : Bool :=
  r.dev == f.dev && r.dstAddr == f.dstAddr && r.srcPort.all (· == f.srcPort) &&
    r.dstPort.all (· == f.dstPort)

def walk (f : Flow) : List Rule → Option String → Option String
  | [], dscp => dscp
  | r :: rules, dscp =>
    if r.appliesTo f then
      match r.target with
      | .classify _ => walk f rules dscp
      | .dscp d => walk f rules (some d)
      | .ret => dscp
    else walk f rules dscp

def outputDscp (table : List Rule) (f : Flow) : Option String :=
  walk f (table.filter fun r => r.chain == .output) none

def Setting.appliesTo (s : Setting) (f : Flow) : Bool :=
  s.dstAddr == f.dstAddr && (s.srcPort == 0 || s.srcPort == f.srcPort) &&
    (s.dstPort == 0 || s.dstPort == f.dstPort)

variable (dscpsToIgnoreClassId : List String) (dev : String)

def Setting.block (s : Setting) : List Rule :=
  ((s.linesToAdd dscpsToIgnoreClassId dev).filterMap Edit.inserted?).reverse ++
    (s.linesToAdd dscpsToIgnoreClassId dev).filterMap Edit.appended?

variable {dscpsToIgnoreClassId dev} {f : Flow}

@[simp] theorem Setting.rule_target (s : Setting) (target : Target) (chain : Chain) :
    (s.rule dev target chain).target = target := rfl

theorem Setting.rule_appliesTo
    (s : Setting) (target : Target) (chain : Chain) (hdev : f.dev = dev) :
    (s.rule dev target chain).appliesTo f = s.appliesTo f := by
  have hport : ∀ p q : ℕ, (portMatch p).all (· == q) = (p == 0 || p == q) := by
    intro p q
    rcases Nat.eq_zero_or_pos p with rfl | hp
    · rfl
    · simp [portMatch, hp.ne']
  simp [Rule.appliesTo, Setting.appliesTo, Setting.rule, hport, hdev]

theorem Setting.filter_block (s : Setting) :
    (s.block dscpsToIgnoreClassId dev).filter (fun r => r.chain == .output) =
      (if dscpsToIgnoreClassId.contains s.dscp then []
        else [s.rule dev (.classify s.classId) .output]) ++
        [s.rule dev (.dscp s.dscp) .output, s.rule dev .ret .output] := by
  simp only [block, linesToAdd]
  cases s.fineGrained <;> cases dscpsToIgnoreClassId.contains s.dscp <;> rfl

theorem walk_block (s : Setting) (rules : List Rule) (dscp : Option String) (hdev : f.dev = dev) :
    walk f ((s.block dscpsToIgnoreClassId dev).filter (fun r => r.chain == .output) ++ rules) dscp =
      if s.appliesTo f then some s.dscp else walk f rules dscp := by
  rw [s.filter_block]
  split_ifs with hignored hs hs <;> simp [walk, Setting.rule_appliesTo _ _ _ hdev, hs]

/-- The first setting of the chain that matches decides. -/
theorem outputDscp_blocks (order : List Setting) (hdev : f.dev = dev) :
    outputDscp (order.flatMap fun s => s.block dscpsToIgnoreClassId dev) f =
      (order.find? fun s => s.appliesTo f).map Setting.dscp := by
  rw [outputDscp]
  induction order with
  | nil => rfl
  | cons s order ih =>
    rw [List.flatMap_cons, List.filter_append, walk_block _ _ _ hdev, List.find?_cons, ih]
    split_ifs with hs <;> simp [hs]

end Walk

section Blocks

variable (dscpsToIgnoreClassId : List String) (dev : String)

theorem Setting.filterMap_appended_eq_nil {s : Setting} (h : s.fineGrained = true) :
    (s.linesToAdd dscpsToIgnoreClassId dev).filterMap Edit.appended? = [] := by
  simp only [linesToAdd, h, if_true]
  cases dscpsToIgnoreClassId.contains s.dscp <;> rfl

theorem Setting.filterMap_inserted_eq_nil {s : Setting} (h : s.fineGrained = false) :
    (s.linesToAdd dscpsToIgnoreClassId dev).filterMap Edit.inserted? = [] := by
  simp only [linesToAdd, h]
  cases dscpsToIgnoreClassId.contains s.dscp <;> rfl

theorem addRuleLinesToAdd_cons (s : Setting) (batch : List Setting) :
    addRuleLinesToAdd dscpsToIgnoreClassId dev (s :: batch) =
      s.linesToAdd dscpsToIgnoreClassId dev ++ addRuleLinesToAdd dscpsToIgnoreClassId dev batch :=
  rfl

theorem reverse_filterMap_inserted (batch : List Setting) :
    ((addRuleLinesToAdd dscpsToIgnoreClassId dev batch).filterMap Edit.inserted?).reverse =
      (batch.filter Setting.fineGrained).reverse.flatMap
        fun s => s.block dscpsToIgnoreClassId dev := by
  induction batch with
  | nil => rfl
  | cons s batch ih =>
    rw [addRuleLinesToAdd_cons, List.filterMap_append, List.reverse_append, ih]
    cases hs : s.fineGrained with
    | true =>
      rw [List.filter_cons_of_pos hs, List.reverse_cons, List.flatMap_append,
        List.flatMap_singleton, Setting.block, Setting.filterMap_appended_eq_nil _ _ hs,
        List.append_nil]
    | false =>
      rw [List.filter_cons_of_neg (by simp [hs]), Setting.filterMap_inserted_eq_nil _ _ hs,
        List.reverse_nil, List.append_nil]

theorem filterMap_appended (batch : List Setting) :
    (addRuleLinesToAdd dscpsToIgnoreClassId dev batch).filterMap Edit.appended? =
      (batch.filter fun s => !s.fineGrained).flatMap fun s => s.block dscpsToIgnoreClassId dev := by
  induction batch with
  | nil => rfl
  | cons s batch ih =>
    rw [addRuleLinesToAdd_cons, List.filterMap_append, ih]
    cases hs : s.fineGrained with
    | true =>
      rw [List.filter_cons_of_neg (by simp [hs]), Setting.filterMap_appended_eq_nil _ _ hs,
        List.nil_append]
    | false =>
      rw [List.filter_cons_of_pos (by simp [hs]), List.flatMap_cons, Setting.block,
        Setting.filterMap_inserted_eq_nil _ _ hs, List.reverse_nil, List.nil_append]

theorem Setting.mem_rulesToDelete_iff {s : Setting} {r : Rule} :
    r ∈ s.rulesToDelete dev ↔
      ∃ chain target, r = s.rule dev target chain ∧
        (target = .classify s.classId ∨ target = .dscp s.dscp ∨ target = .ret) := by
  simp only [rulesToDelete, classRules, dscpRules, returnRules, bothChains, List.mem_append,
    List.mem_cons, List.not_mem_nil, or_false]
  constructor
  · rintro ((h | h) | h) <;> rcases h with rfl | rfl <;> exact ⟨_, _, rfl, by simp⟩
  · rintro ⟨chain, target, rfl, h⟩
    rcases h with rfl | rfl | rfl <;> cases chain <;> simp

theorem Setting.key_eq_of_rule_eq {s t : Setting} {target target' : Target} {chain chain' : Chain}
    (h : s.rule dev target chain = t.rule dev target' chain') : s.key = t.key := by
  have hport : ∀ p q : ℕ, portMatch p = portMatch q → p = q := by
    intro p q hpq
    rcases Nat.eq_zero_or_pos p with rfl | hp <;> rcases Nat.eq_zero_or_pos q with rfl | hq
    · rfl
    · simp [portMatch, hq.ne'] at hpq
    · simp [portMatch, hp.ne'] at hpq
    · simpa [portMatch, hp.ne', hq.ne'] using hpq
  have hsrc := hport _ _ (congrArg Rule.srcPort h)
  have hdst := hport _ _ (congrArg Rule.dstPort h)
  have haddr : s.dstAddr = t.dstAddr := congrArg Rule.dstAddr h
  rw [key, key, hsrc, hdst, haddr]

theorem Setting.coe_block_le (s : Setting) :
    (s.block dscpsToIgnoreClassId dev : Multiset Rule) ≤ s.rulesToDelete dev := by
  have hblock : (s.block dscpsToIgnoreClassId dev : Multiset Rule) =
      s.rulesToAdd dscpsToIgnoreClassId dev := by
    rw [block, ← Multiset.coe_add, Multiset.coe_reverse, Setting.rulesToAdd, Edit.coe_added]
  rw [hblock, s.coe_rulesToDelete dscpsToIgnoreClassId dev]
  exact Multiset.le_add_right _ _

theorem Setting.nodup_block (s : Setting) : (s.block dscpsToIgnoreClassId dev).Nodup := by
  have hnodup : (s.rulesToDelete dev : Multiset Rule).Nodup := by
    simp [rulesToDelete, classRules, dscpRules, returnRules, bothChains, Setting.rule]
  exact Multiset.nodup_of_le (s.coe_block_le dscpsToIgnoreClassId dev) hnodup

variable {order del : List Setting}

theorem key_eq_of_mem {s t : Setting} {r : Rule}
    (hs : r ∈ s.rulesToDelete dev) (ht : r ∈ t.rulesToDelete dev) : s.key = t.key := by
  obtain ⟨chain, target, rfl, -⟩ := (Setting.mem_rulesToDelete_iff dev).mp hs
  obtain ⟨chain', target', hr, -⟩ := (Setting.mem_rulesToDelete_iff dev).mp ht
  exact Setting.key_eq_of_rule_eq dev hr

theorem nodup_blocks (hkeys : DistinctKeys order) :
    (order.flatMap fun s => s.block dscpsToIgnoreClassId dev).Nodup := by
  refine List.nodup_flatMap.mpr ⟨fun s _ => s.nodup_block _ _, ?_⟩
  refine (List.pairwise_map.mp hkeys).imp fun {s t} hne r hs ht => hne ?_
  exact key_eq_of_mem dev (Multiset.mem_of_le (s.coe_block_le _ _) hs)
    (Multiset.mem_of_le (t.coe_block_le _ _) ht)

theorem diff_blocks (hkeys : DistinctKeys order) (hdel : ∀ s ∈ del, s ∈ order) :
    (order.flatMap fun s => s.block dscpsToIgnoreClassId dev).diff
        (del.flatMap fun s => s.rulesToDelete dev) =
      (order.filter fun s => decide (s ∉ del)).flatMap
        fun s => s.block dscpsToIgnoreClassId dev := by
  rw [(nodup_blocks dscpsToIgnoreClassId dev hkeys).sdiff_eq_filter, List.filter_flatMap]
  have hblock : ∀ s ∈ order, (s.block dscpsToIgnoreClassId dev).filter
      (fun r => decide (r ∉ del.flatMap fun s => s.rulesToDelete dev)) =
        if s ∉ del then s.block dscpsToIgnoreClassId dev else [] := by
    intro s hs
    by_cases hmem : s ∈ del
    · rw [if_neg (not_not.mpr hmem)]
      refine List.filter_eq_nil_iff.mpr fun r hr => ?_
      have hr' : r ∈ s.rulesToDelete dev := Multiset.mem_of_le (s.coe_block_le _ _) hr
      simpa using ⟨s, hmem, hr'⟩
    · rw [if_pos hmem]
      refine List.filter_eq_self.mpr fun r hr => ?_
      rw [decide_eq_true_eq]
      intro hr'
      obtain ⟨t, ht, hrt⟩ := List.mem_flatMap.mp hr'
      have hkey := key_eq_of_mem dev (Multiset.mem_of_le (s.coe_block_le _ _) hr) hrt
      exact hmem (hkeys.eq_of_key_eq hs (hdel t ht) hkey ▸ ht)
  rw [List.flatMap_congr hblock]
  clear hblock hkeys hdel
  induction order with
  | nil => rfl
  | cons s order ih =>
    rw [List.flatMap_cons, ih, List.filter_cons]
    by_cases hs : s ∈ del <;> simp [hs]

end Blocks

section History

/-- All settings are staged and committed; `none` when the commit does not succeed. -/
def System.commitBatch (s : System) (batch : List Setting) : Option System :=
  match (batch.foldl System.stage s).commitChanges false with
  | (.ok, s') => some s'
  | (.internalError _, _) => none

def age (history : List (List Setting)) (x : Setting) : ℕ :=
  (history.reverse.takeWhile fun batch => decide (x ∈ batch)).length

/-- `x` was added by a later commit than `y`, or by the same one as the greater setting. -/
def AddedLater (history : List (List Setting)) (x y : Setting) : Prop :=
  age history x < age history y ∨ age history x = age history y ∧ y < x
deriving Decidable

def lastBatch (history : List (List Setting)) : List Setting := history.getLastD []

variable {history : List (List Setting)} {batch : List Setting} {s s' : System} {x y : Setting}

@[simp] theorem lastBatch_concat : lastBatch (history ++ [batch]) = batch := by
  simp [lastBatch]

theorem age_concat : age (history ++ [batch]) x = if x ∈ batch then age history x + 1 else 0 := by
  rw [age, List.reverse_append, List.reverse_singleton, List.singleton_append, List.takeWhile_cons]
  split_ifs with hx hx' hx' <;> simp_all [age]

theorem age_eq_zero (hx : x ∉ lastBatch history) : age history x = 0 := by
  rcases List.eq_nil_or_concat history with rfl | ⟨pre, b, rfl⟩
  · rfl
  · rw [List.concat_eq_append] at hx ⊢
    rw [age_concat, if_neg (by simpa using hx)]

theorem age_pos (hx : x ∈ lastBatch history) : 0 < age history x := by
  rcases List.eq_nil_or_concat history with rfl | ⟨pre, b, rfl⟩
  · simp [lastBatch] at hx
  · rw [List.concat_eq_append] at hx ⊢
    rw [age_concat, if_pos (by simpa using hx)]
    omega

theorem AddedLater.asymm (h : AddedLater history x y) : ¬ AddedLater history y x := by
  rintro (hlt | ⟨heq', hlt⟩) <;> rcases h with h | ⟨heq, h⟩
  · omega
  · omega
  · omega
  · exact h.asymm hlt

theorem AddedLater.concat (h : AddedLater history x y) (hx : x ∈ batch) (hy : y ∈ batch) :
    AddedLater (history ++ [batch]) x y := by
  simp only [AddedLater, age_concat, if_pos hx, if_pos hy]
  rcases h with h | ⟨h, hlt⟩
  · exact .inl (by omega)
  · exact .inr ⟨by omega, hlt⟩

theorem System.table_of_ok (hok : (s.commitChanges false).1 = .ok) :
    (s.commitChanges false).2.table =
      ((addRuleLinesToAdd s.controller.dscpsToIgnoreClassId s.controller.dev
          s.controller.diff.toAdd).filterMap Edit.inserted?).reverse ++
        (s.table.diff (s.controller.diff.toDel.flatMap fun x => x.rulesToDelete s.controller.dev) ++
          (addRuleLinesToAdd s.controller.dscpsToIgnoreClassId s.controller.dev
            s.controller.diff.toAdd).filterMap Edit.appended?) := by
  have hadds := addRuleLinesToAdd_additions s.controller.dscpsToIgnoreClassId s.controller.dev
    s.controller.diff.toAdd
  simp only [commitChanges, utf8ByteSize_mangleTable_eq_iff] at hok ⊢
  split_ifs at hok ⊢ with hlines
  · obtain ⟨hdel, hadd⟩ := s.controller.lines_eq_nil_iff.mp hlines
    simp [hdel, hadd, addRuleLinesToAdd]
  · have hrestore : restore false false s.table s.controller.lines =
        (applyAll s.table (addRuleLinesToDelete s.controller.dev s.controller.diff.toDel)).bind
          fun table => applyAll table (addRuleLinesToAdd s.controller.dscpsToIgnoreClassId
            s.controller.dev s.controller.diff.toAdd) :=
      applyAll_append _ _ _
    rw [addRuleLinesToDelete_eq, applyAll_deletes] at hrestore
    split_ifs at hrestore with hle
    · rw [Option.bind_some, applyAll_additions _ hadds] at hrestore
      rw [hrestore]
    · rw [Option.bind_none] at hrestore
      simp [hrestore] at hok

/--
The state after the commits of `history`: the blocks of the settings for ports in
the order in which they were added, and then those for addresses only.
-/
structure Laid (dev : String) (dscpsToIgnoreClassId : List String) (history : List (List Setting))
    (s : System) (fine plain : List Setting) : Prop where
  device : s.controller.dev = dev
  ignored : s.controller.dscpsToIgnoreClassId = dscpsToIgnoreClassId
  toAdd : s.controller.toAdd = []
  toDel : s.controller.toDel = []
  staged : s.controller.staged = []
  applied : s.controller.applied = sortBatch (lastBatch history)
  table : s.table = (fine ++ plain).flatMap fun x => x.block dscpsToIgnoreClassId dev
  perm : (fine ++ plain).Perm (lastBatch history)
  ports : ∀ x ∈ fine, x.fineGrained = true
  addresses : ∀ x ∈ plain, x.fineGrained = false
  ordered : fine.Pairwise (AddedLater history)

theorem DistinctKeys.nodup (h : DistinctKeys batch) : batch.Nodup := List.Nodup.of_map _ h

theorem DistinctKeys.perm
    {batch' : List Setting} (h : DistinctKeys batch) (hperm : batch'.Perm batch) :
    DistinctKeys batch' :=
  (hperm.map Setting.key).nodup_iff.mpr h

theorem diff_toAdd_spec (c : Controller) (htoAdd : c.toAdd = []) (hnodup : c.staged.Nodup) :
    c.diff.toAdd.Pairwise (· < ·) ∧ ∀ x, x ∈ c.diff.toAdd ↔ x ∈ c.staged ∧ x ∉ c.applied := by
  have hsub : c.diff.toAdd.Sublist (sortBatch c.staged) := by
    rw [Controller.diff, computeDiff, htoAdd, List.nil_append]
    exact setDifference_sublist _ _
  have hsorted : (sortBatch c.staged).Pairwise (· < ·) := by
    have hne : (sortBatch c.staged).Nodup := (List.perm_insertionSort _ _).nodup_iff.mpr hnodup
    exact (pairwise_sortBatch c.staged).imp₂ (fun _ _ => lt_of_le_of_ne) hne
  refine ⟨hsorted.sublist hsub, fun x => ?_⟩
  rw [← Multiset.mem_coe, coe_diff_toAdd, htoAdd, Multiset.coe_nil, zero_add,
    Multiset.mem_sub_of_nodup (Multiset.coe_nodup.mpr hnodup), Multiset.mem_coe,
    Multiset.mem_coe]

theorem mem_diff_toDel (c : Controller) (htoDel : c.toDel = []) (hnodup : c.applied.Nodup) :
    x ∈ c.diff.toDel ↔ x ∈ c.applied ∧ x ∉ c.staged := by
  rw [← Multiset.mem_coe, coe_diff_toDel, htoDel, Multiset.coe_nil, zero_add,
    Multiset.mem_sub_of_nodup (Multiset.coe_nodup.mpr hnodup), Multiset.mem_coe,
    Multiset.mem_coe]

variable {dev : String} {dscpsToIgnoreClassId : List String} {fine plain : List Setting}

theorem laid_create (dev : String) (dscpsToIgnoreClassId : List String) :
    Laid dev dscpsToIgnoreClassId [] (.create dev dscpsToIgnoreClassId) [] [] :=
  ⟨rfl, rfl, rfl, rfl, rfl, rfl, rfl, .refl [], by simp, by simp, .nil⟩

def nextFine (batch added fine : List Setting) : List Setting :=
  (added.filter Setting.fineGrained).reverse ++ fine.filter fun x => decide (x ∈ batch)

def nextPlain (batch added plain : List Setting) : List Setting :=
  (plain.filter fun x => decide (x ∈ batch)) ++ added.filter fun x => !x.fineGrained

section Next

variable {added : List Setting} (hsorted : added.Pairwise (· < ·))
  (hadded : ∀ x, x ∈ added ↔ x ∈ batch ∧ x ∉ lastBatch history)
  (hperm : (fine ++ plain).Perm (lastBatch history))

include hsorted hadded hperm

theorem perm_next (hlast : (lastBatch history).Nodup) (hbatch : batch.Nodup) :
    (nextFine batch added fine ++ nextPlain batch added plain).Perm batch := by
  have hsplit : (nextFine batch added fine ++ nextPlain batch added plain).Perm
      (added ++ (fine ++ plain).filter fun x => decide (x ∈ batch)) := by
    rw [← Multiset.coe_eq_coe]
    simp only [nextFine, nextPlain, List.filter_append, ← Multiset.coe_add, Multiset.coe_reverse]
    rw [← Multiset.coe_eq_coe.mpr (List.filter_append_perm Setting.fineGrained added),
      ← Multiset.coe_add]
    abel
  have hnodup : (added ++ (fine ++ plain).filter fun x => decide (x ∈ batch)).Nodup := by
    refine List.nodup_append.mpr ⟨?_, (hperm.nodup_iff.mpr hlast).filter _, ?_⟩
    · exact hsorted.imp fun h => h.ne
    · intro x hx y hy hxy
      subst hxy
      exact ((hadded x).mp hx).2 (hperm.mem_iff.mp (List.mem_of_mem_filter hy))
  refine hsplit.trans ((List.perm_ext_iff_of_nodup hnodup hbatch).mpr fun x => ?_)
  simp only [List.mem_append (s := added), hadded, List.mem_filter, hperm.mem_iff,
    decide_eq_true_eq]
  tauto

theorem ordered_next (hordered : fine.Pairwise (AddedLater history)) :
    (nextFine batch added fine).Pairwise (AddedLater (history ++ [batch])) := by
  have hnew : ∀ x ∈ added, age (history ++ [batch]) x = 1 := by
    intro x hx
    obtain ⟨hmem, hnot⟩ := (hadded x).mp hx
    rw [age_concat, if_pos hmem, age_eq_zero hnot]
  refine List.pairwise_append.mpr ⟨?_, ?_, ?_⟩
  · rw [List.pairwise_reverse]
    refine (hsorted.filter _).imp_of_mem fun {x y} hx hy hlt => .inr ⟨?_, hlt⟩
    rw [hnew x (List.mem_of_mem_filter hx), hnew y (List.mem_of_mem_filter hy)]
  · refine (hordered.filter _).imp_of_mem fun {x y} hx hy h => ?_
    exact h.concat (by simpa using (List.mem_filter.mp hx).2)
      (by simpa using (List.mem_filter.mp hy).2)
  · intro x hx y hy
    obtain ⟨hy, hstays⟩ := List.mem_filter.mp hy
    have hold := age_pos (hperm.mem_iff.mp (List.mem_append_left plain hy))
    left
    rw [hnew x (List.mem_of_mem_filter (List.mem_reverse.mp hx)), age_concat,
      if_pos (by simpa using hstays)]
    omega

end Next

theorem System.commitBatch_eq_some
    (hstaged : s.controller.staged = []) (hcommit : s.commitBatch batch = some s') :
    ∃ staged : System, staged = { s with controller := { s.controller with staged := batch } } ∧
      (staged.commitChanges false).1 = .ok ∧ (staged.commitChanges false).2 = s' := by
  refine ⟨batch.foldl System.stage s, by rw [System.foldl_stage, hstaged, List.nil_append], ?_⟩
  rw [System.commitBatch] at hcommit
  split at hcommit
  next hs =>
    rw [hs]
    exact ⟨rfl, Option.some.inj hcommit⟩
  next => cases hcommit

/-- A commit leaves the blocks in the order in which they were added. -/
theorem Laid.commitBatch (h : Laid dev dscpsToIgnoreClassId history s fine plain)
    (hlast : DistinctKeys (lastBatch history)) (hbatch : DistinctKeys batch)
    (hcommit : s.commitBatch batch = some s') :
    ∃ fine' plain', Laid dev dscpsToIgnoreClassId (history ++ [batch]) s' fine' plain' := by
  obtain ⟨t, ht, hok, rfl⟩ := System.commitBatch_eq_some h.staged hcommit
  have hcontroller := System.controller_of_ok hok
  have htable := System.table_of_ok hok
  have happlied : t.controller.applied.Perm (lastBatch history) := by
    rw [ht]
    exact h.applied ▸ List.perm_insertionSort _ _
  obtain ⟨hsorted, hadded⟩ := diff_toAdd_spec t.controller (by rw [ht]; exact h.toAdd)
    (by rw [ht]; exact hbatch.nodup)
  replace hadded : ∀ x, x ∈ t.controller.diff.toAdd ↔ x ∈ batch ∧ x ∉ lastBatch history := by
    intro x
    rw [hadded, happlied.mem_iff, ht]
  have hdel : ∀ x, x ∈ t.controller.diff.toDel ↔ x ∈ lastBatch history ∧ x ∉ batch := by
    intro x
    rw [mem_diff_toDel _ (by rw [ht]; exact h.toDel) (happlied.nodup_iff.mpr hlast.nodup),
      happlied.mem_iff, ht]
  have hkept : (fine ++ plain).filter (fun x => decide (x ∉ t.controller.diff.toDel)) =
      (fine ++ plain).filter fun x => decide (x ∈ batch) := by
    refine List.filter_congr fun x hx => ?_
    simp [hdel, h.perm.mem_iff.mp hx]
  refine ⟨nextFine batch t.controller.diff.toAdd fine,
    nextPlain batch t.controller.diff.toAdd plain, ?_⟩
  refine ⟨?_, ?_, ?_, ?_, ?_, ?_, ?_, ?_, ?_, ?_, ?_⟩
  · rw [hcontroller, ht]
    exact h.device
  · rw [hcontroller, ht]
    exact h.ignored
  · rw [hcontroller]
    rfl
  · rw [hcontroller]
    rfl
  · rw [hcontroller]
    rfl
  · rw [hcontroller, lastBatch_concat, ht]
    rfl
  · have hdev : t.controller.dev = dev := by rw [ht]; exact h.device
    have hignored : t.controller.dscpsToIgnoreClassId = dscpsToIgnoreClassId := by
      rw [ht]; exact h.ignored
    have hold : t.table = (fine ++ plain).flatMap fun x => x.block dscpsToIgnoreClassId dev := by
      rw [ht]; exact h.table
    rw [htable, hdev, hignored, hold, reverse_filterMap_inserted, filterMap_appended,
      diff_blocks _ _ (hlast.perm h.perm) fun x hx => h.perm.mem_iff.mpr ((hdel x).mp hx).1,
      hkept, nextFine, nextPlain]
    simp only [List.filter_append, List.flatMap_append, List.append_assoc]
  · rw [lastBatch_concat]
    exact perm_next hsorted hadded h.perm hlast.nodup hbatch.nodup
  · intro x hx
    rcases List.mem_append.mp hx with hx | hx
    · exact (List.mem_filter.mp (List.mem_reverse.mp hx)).2
    · exact h.ports x (List.mem_of_mem_filter hx)
  · intro x hx
    rcases List.mem_append.mp hx with hx | hx
    · exact h.addresses x (List.mem_of_mem_filter hx)
    · simpa using (List.mem_filter.mp hx).2
  · exact ordered_next hsorted hadded h.perm h.ordered

theorem distinctKeys_lastBatch (hkeys : ∀ b ∈ history, DistinctKeys b) :
    DistinctKeys (lastBatch history) := by
  rcases List.eq_nil_or_concat history with rfl | ⟨pre, b, rfl⟩
  · exact List.nodup_nil
  · rw [List.concat_eq_append, lastBatch_concat]
    exact hkeys b (by simp)

/-- Every run of commits lays out its blocks. -/
theorem exists_laid (hkeys : ∀ b ∈ history, DistinctKeys b)
    (hrun : exec System.commitBatch (.create dev dscpsToIgnoreClassId) history = some s) :
    ∃ fine plain, Laid dev dscpsToIgnoreClassId history s fine plain := by
  induction history using List.reverseRecOn generalizing s with
  | nil =>
    cases hrun
    exact ⟨[], [], laid_create dev dscpsToIgnoreClassId⟩
  | append_singleton history batch ih =>
    obtain ⟨t, hpre, hlast⟩ := exec_concat_eq_some.mp hrun
    have hkeys' : ∀ b ∈ history, DistinctKeys b := fun b hb => hkeys b (by simp [hb])
    obtain ⟨fine, plain, ht⟩ := ih hkeys' hpre
    exact ht.commitBatch (distinctKeys_lastBatch hkeys') (hkeys batch (by simp)) hlast

end History

section Specificity

/-- The place of a setting in the order of `SettingsFindDscp`. -/
def Setting.rank (s : Setting) : ℕ :=
  if s.dstPort = 0 then if s.srcPort = 0 then 3 else 2 else if s.srcPort = 0 then 1 else 0

/-- The keys that `SettingsFindDscp` looks up, in order. -/
def Flow.keyAt (f : Flow) : ℕ → ℕ × ℕ × String
  | 0 => (f.srcPort, f.dstPort, f.dstAddr)
  | 1 => (0, f.dstPort, f.dstAddr)
  | 2 => (f.srcPort, 0, f.dstAddr)
  | _ => (0, 0, f.dstAddr)

variable {batch : List Setting} {f : Flow} {x : Setting} {defaultDscp : String}

theorem Setting.rank_le (s : Setting) : s.rank ≤ 3 := by
  unfold rank
  split_ifs <;> omega

theorem Setting.fineGrained_iff (s : Setting) : s.fineGrained = true ↔ s.rank < 3 := by
  unfold fineGrained rank
  split_ifs with hdst hsrc hsrc <;> simp [hdst, hsrc]

theorem Setting.appliesTo_iff (s : Setting) : s.appliesTo f = true ↔ s.key = f.keyAt s.rank := by
  unfold appliesTo key rank
  split_ifs with hdst hsrc hsrc <;> simp [Flow.keyAt, hdst, hsrc] <;> tauto

theorem Setting.rank_eq_of_key (hsrc : f.srcPort ≠ 0) (hdst : f.dstPort ≠ 0) {r : ℕ} (hr : r ≤ 3)
    (hkey : x.key = f.keyAt r) : x.rank = r ∧ x.appliesTo f = true := by
  have hrank : x.rank = r := by
    interval_cases r <;> simp_all [key, Flow.keyAt, rank]
  refine ⟨hrank, ?_⟩
  rw [x.appliesTo_iff, hrank, hkey]

/-- The lookup returns the DSCP of the most specific setting that matches. -/
theorem settingsFindDscp_eq (hsorted : batch.Pairwise (· ≤ ·)) (hkeys : DistinctKeys batch)
    (hsrc : f.srcPort ≠ 0) (hdst : f.dstPort ≠ 0) (hx : x ∈ batch) (happlies : x.appliesTo f = true)
    (hleast : ∀ z ∈ batch, z.appliesTo f = true → x.rank ≤ z.rank) :
    settingsFindDscp batch f.srcPort f.dstPort f.dstAddr defaultDscp = x.dscp := by
  have hfind : ∀ r, x.rank = r → ∀ a b, (a, b, f.dstAddr) = f.keyAt r →
      findEntry batch a b f.dstAddr = some x := by
    rintro r rfl a b hab
    rw [findEntry_eq_some_iff hsorted hkeys, hab]
    exact ⟨hx, x.appliesTo_iff.mp happlies⟩
  have hnone : ∀ r < x.rank, ∀ a b, (a, b, f.dstAddr) = f.keyAt r →
      findEntry batch a b f.dstAddr = none := by
    intro r hr a b hab
    rw [Option.eq_none_iff_forall_ne_some]
    intro z hz
    rw [findEntry_eq_some_iff hsorted hkeys, hab] at hz
    obtain ⟨hrank, hz'⟩ := Setting.rank_eq_of_key hsrc hdst (hr.le.trans x.rank_le) hz.2
    have := hleast z hz.1 hz'
    omega
  have hle := x.rank_le
  rw [settingsFindDscp]
  obtain hr | hr | hr | hr : x.rank = 0 ∨ x.rank = 1 ∨ x.rank = 2 ∨ x.rank = 3 := by omega
  · rw [hfind 0 hr _ _ rfl]
  · rw [hnone 0 (by omega) _ _ rfl, hfind 1 hr _ _ rfl]
  · rw [hnone 0 (by omega) _ _ rfl, hnone 1 (by omega) _ _ rfl, hfind 2 hr _ _ rfl]
  · rw [hnone 0 (by omega) _ _ rfl, hnone 1 (by omega) _ _ rfl, hnone 2 (by omega) _ _ rfl,
      hfind 3 hr _ _ rfl]

theorem settingsFindDscp_eq_default (hsorted : batch.Pairwise (· ≤ ·)) (hkeys : DistinctKeys batch)
    (hsrc : f.srcPort ≠ 0) (hdst : f.dstPort ≠ 0) (hnone : ∀ z ∈ batch, z.appliesTo f = false) :
    settingsFindDscp batch f.srcPort f.dstPort f.dstAddr defaultDscp = defaultDscp := by
  have hentry : ∀ r ≤ 3, ∀ a b, (a, b, f.dstAddr) = f.keyAt r →
      findEntry batch a b f.dstAddr = none := by
    intro r hr a b hab
    rw [Option.eq_none_iff_forall_ne_some]
    intro z hz
    rw [findEntry_eq_some_iff hsorted hkeys, hab] at hz
    have := (Setting.rank_eq_of_key hsrc hdst hr hz.2).2
    simp [hnone z hz.1] at this
  rw [settingsFindDscp, hentry 0 (by omega) _ _ rfl, hentry 1 (by omega) _ _ rfl,
    hentry 2 (by omega) _ _ rfl, hentry 3 le_rfl _ _ rfl]

end Specificity

section Agreement

def portSettings (history : List (List Setting)) (f : Flow) : List Setting :=
  (lastBatch history).filter fun x => x.fineGrained && x.appliesTo f

def LooksUpLastAdded (history : List (List Setting)) (f : Flow) : Prop :=
  ∀ x ∈ portSettings history f, ∀ y ∈ portSettings history f,
    (∀ z ∈ portSettings history f, x.rank ≤ z.rank) →
    (∀ z ∈ portSettings history f, ¬ AddedLater history z y) → x.dscp = y.dscp
deriving Decidable

variable {history : List (List Setting)} {dev defaultDscp : String}
  {dscpsToIgnoreClassId : List String} {s : System} {fine plain : List Setting} {f : Flow}
  {x y : Setting}

theorem mem_portSettings :
    x ∈ portSettings history f ↔
      x ∈ lastBatch history ∧ x.fineGrained = true ∧ x.appliesTo f = true := by
  simp [portSettings]

theorem Laid.find?_fine (h : Laid dev dscpsToIgnoreClassId history s fine plain)
    (hy : fine.find? (fun x => x.appliesTo f) = some y) :
    y ∈ portSettings history f ∧ ∀ z ∈ portSettings history f, ¬ AddedLater history z y := by
  obtain ⟨happlies, as, bs, hfine, hbefore⟩ := List.find?_eq_some_iff_append.mp hy
  have hmem : y ∈ fine := List.mem_of_find?_eq_some hy
  refine ⟨mem_portSettings.mpr ⟨?_, h.ports y hmem, by simpa using happlies⟩, fun z hz => ?_⟩
  · exact h.perm.mem_iff.mp (List.mem_append_left plain hmem)
  · obtain ⟨hlast, hport, hz⟩ := mem_portSettings.mp hz
    have hzfine : z ∈ fine := by
      rcases List.mem_append.mp (h.perm.mem_iff.mpr hlast) with hz' | hz'
      · exact hz'
      · simp [h.addresses z hz'] at hport
    have hordered := h.ordered
    rw [hfine] at hzfine hordered
    rcases List.mem_append.mp hzfine with hz' | hz'
    · simpa [hz] using hbefore z hz'
    · rcases List.mem_cons.mp hz' with rfl | hz'
      · rintro (hlt | ⟨-, hlt⟩)
        · exact hlt.false
        · exact hlt.false
      · exact ((List.pairwise_cons.mp (List.pairwise_append.mp hordered).2.1).1 z hz').asymm

theorem addedLater_trichotomy (history : List (List Setting)) (x y : Setting) :
    AddedLater history x y ∨ x = y ∨ AddedLater history y x := by
  unfold AddedLater
  rcases lt_trichotomy (age history x) (age history y) with h | h | h
  · exact .inl (.inl h)
  · rcases lt_trichotomy y x with h' | h' | h'
    · exact .inl (.inr ⟨h, h'⟩)
    · exact .inr (.inl h'.symm)
    · exact .inr (.inr (.inr ⟨h.symm, h'⟩))
  · exact .inr (.inr (.inl h))

theorem eq_of_rank_eq (hkeys : DistinctKeys (lastBatch history))
    (hx : x ∈ portSettings history f) (hy : y ∈ portSettings history f)
    (hrank : x.rank = y.rank) : x = y := by
  obtain ⟨hx, -, hxf⟩ := mem_portSettings.mp hx
  obtain ⟨hy, -, hyf⟩ := mem_portSettings.mp hy
  refine hkeys.eq_of_key_eq hx hy ?_
  rw [x.appliesTo_iff.mp hxf, y.appliesTo_iff.mp hyf, hrank]

theorem looksUpLastAdded_iff (hkeys : DistinctKeys (lastBatch history))
    (hx : x ∈ portSettings history f) (hy : y ∈ portSettings history f)
    (hleast : ∀ z ∈ portSettings history f, x.rank ≤ z.rank)
    (hlast : ∀ z ∈ portSettings history f, ¬ AddedLater history z y) :
    LooksUpLastAdded history f ↔ x.dscp = y.dscp := by
  refine ⟨fun h => h x hx y hy hleast hlast, fun hdscp x' hx' y' hy' hleast' hlast' => ?_⟩
  have hxx : x' = x := eq_of_rank_eq hkeys hx' hx (le_antisymm (hleast' x hx) (hleast x' hx'))
  have hyy : y' = y := by
    rcases addedLater_trichotomy history y' y with h | h | h
    · exact absurd h (hlast y' hy')
    · exact h
    · exact absurd h (hlast' y hy)
  rw [hxx, hyy, hdscp]

theorem exists_least_rank (hne : portSettings history f ≠ []) :
    ∃ x ∈ portSettings history f, ∀ z ∈ portSettings history f, x.rank ≤ z.rank := by
  obtain ⟨x, hx, hleast⟩ := (portSettings history f).toFinset.exists_min_image Setting.rank
    (by simpa using hne)
  exact ⟨x, by simpa using hx, fun z hz => hleast z (by simpa using hz)⟩

theorem Laid.lookup_of_ports (h : Laid dev dscpsToIgnoreClassId history s fine plain)
    (hkeys : DistinctKeys (lastBatch history)) (hsrc : f.srcPort ≠ 0) (hdst : f.dstPort ≠ 0)
    (hx : x ∈ portSettings history f) (hleast : ∀ z ∈ portSettings history f, x.rank ≤ z.rank) :
    settingsFindDscp s.controller.applied f.srcPort f.dstPort f.dstAddr defaultDscp = x.dscp := by
  have hperm : (sortBatch (lastBatch history)).Perm (lastBatch history) :=
    List.perm_insertionSort _ _
  obtain ⟨hmem, hport, hxf⟩ := mem_portSettings.mp hx
  rw [h.applied]
  refine settingsFindDscp_eq (pairwise_sortBatch _) (hkeys.perm hperm) hsrc hdst
    (hperm.mem_iff.mpr hmem) hxf fun z hz hzf => ?_
  by_cases hzport : z.fineGrained = true
  · exact hleast z (mem_portSettings.mpr ⟨hperm.mem_iff.mp hz, hzport, hzf⟩)
  · have hxrank := x.fineGrained_iff.mp hport
    have hzrank := mt z.fineGrained_iff.mpr hzport
    omega

theorem Laid.lookup_of_addresses (h : Laid dev dscpsToIgnoreClassId history s fine plain)
    (hkeys : DistinctKeys (lastBatch history)) (hsrc : f.srcPort ≠ 0) (hdst : f.dstPort ≠ 0)
    (hplain : ∀ z ∈ lastBatch history, z.appliesTo f = true → z ∈ plain) :
    settingsFindDscp s.controller.applied f.srcPort f.dstPort f.dstAddr defaultDscp =
      ((plain.find? fun x => x.appliesTo f).map Setting.dscp).getD defaultDscp := by
  have hperm : (sortBatch (lastBatch history)).Perm (lastBatch history) :=
    List.perm_insertionSort _ _
  have hrank : ∀ z ∈ plain, ¬ z.rank < 3 := fun z hz =>
    mt z.fineGrained_iff.mpr (by simp [h.addresses z hz])
  rw [h.applied]
  cases hfind : plain.find? fun x => x.appliesTo f with
  | some w =>
    have hw := List.mem_of_find?_eq_some hfind
    have hwf : w.appliesTo f = true := by
      obtain ⟨hwf, -⟩ := List.find?_eq_some_iff_append.mp hfind
      exact hwf
    refine settingsFindDscp_eq (pairwise_sortBatch _) (hkeys.perm hperm) hsrc hdst
      (hperm.mem_iff.mpr (h.perm.mem_iff.mp (List.mem_append_right fine hw))) hwf ?_
    intro z hz hzf
    have hzrank := hrank z (hplain z (hperm.mem_iff.mp hz) hzf)
    have hwrank := w.rank_le
    omega
  | none =>
    refine settingsFindDscp_eq_default (pairwise_sortBatch _) (hkeys.perm hperm) hsrc hdst ?_
    intro z hz
    by_contra hzf
    rw [Bool.not_eq_false] at hzf
    exact List.find?_eq_none.mp hfind z (hplain z (hperm.mem_iff.mp hz) hzf) hzf

/--
After any successful commits of batches with distinct keys, `SettingsFindDscp` tells the
DSCP that the OUTPUT chain gives a flow iff the most specific setting for its ports has the
DSCP of the one that was added last.
-/
theorem settingsFindDscp_eq_outputDscp_iff
    (dev : String) (dscpsToIgnoreClassId : List String) (history : List (List Setting))
    (s : System) (f : Flow) (defaultDscp : String) (hkeys : ∀ b ∈ history, DistinctKeys b)
    (hrun : exec System.commitBatch (.create dev dscpsToIgnoreClassId) history = some s)
    (hdev : f.dev = dev) (hsrc : f.srcPort ≠ 0) (hdst : f.dstPort ≠ 0) :
    settingsFindDscp s.controller.applied f.srcPort f.dstPort f.dstAddr defaultDscp =
        (outputDscp s.table f).getD defaultDscp ↔
      LooksUpLastAdded history f := by
  obtain ⟨fine, plain, h⟩ := exists_laid hkeys hrun
  have hdistinct := distinctKeys_lastBatch hkeys
  rw [h.table, outputDscp_blocks _ hdev, List.find?_append]
  cases hfine : fine.find? fun x => x.appliesTo f with
  | some y =>
    obtain ⟨hy, hlast⟩ := h.find?_fine hfine
    obtain ⟨x, hx, hleast⟩ := exists_least_rank (List.ne_nil_of_mem hy)
    rw [h.lookup_of_ports hdistinct hsrc hdst hx hleast,
      looksUpLastAdded_iff hdistinct hx hy hleast hlast]
    rfl
  | none =>
    have hplain : ∀ z ∈ lastBatch history, z.appliesTo f = true → z ∈ plain := by
      intro z hz hzf
      rcases List.mem_append.mp (h.perm.mem_iff.mpr hz) with hz | hz
      · exact absurd hzf (List.find?_eq_none.mp hfine z hz)
      · exact hz
    refine iff_of_true (h.lookup_of_addresses hdistinct hsrc hdst hplain) fun x hx => ?_
    obtain ⟨hmem, hport, hxf⟩ := mem_portSettings.mp hx
    simp [h.addresses x (hplain x hmem hxf)] at hport

/-- An exact setting that is added after one for the destination port only. -/
theorem settingsFindDscp_eq_outputDscp_exact :
    ∃ s, exec System.commitBatch (.create "eth1" [])
        [[{ dstPort := 80, dstAddr := "10.0.0.1", classId := "1:2", dscp := "AF21" }],
          [{ dstPort := 80, dstAddr := "10.0.0.1", classId := "1:2", dscp := "AF21" },
            { srcPort := 1000, dstPort := 80, dstAddr := "10.0.0.1", classId := "1:3",
              dscp := "BE" }]] = some s ∧
      settingsFindDscp s.controller.applied 1000 80 "10.0.0.1" "" =
        (outputDscp s.table
          { dev := "eth1", srcPort := 1000, dstPort := 80, dstAddr := "10.0.0.1" }).getD "" := by
  obtain ⟨s, hrun⟩ := Option.isSome_iff_exists.mp (by decide +kernel :
    (exec System.commitBatch (.create "eth1" [])
      [[{ dstPort := 80, dstAddr := "10.0.0.1", classId := "1:2", dscp := "AF21" }],
        [{ dstPort := 80, dstAddr := "10.0.0.1", classId := "1:2", dscp := "AF21" },
          { srcPort := 1000, dstPort := 80, dstAddr := "10.0.0.1", classId := "1:3",
            dscp := "BE" }]]).isSome = true)
  exact ⟨s, hrun, (settingsFindDscp_eq_outputDscp_iff "eth1" [] _ s
    { dev := "eth1", srcPort := 1000, dstPort := 80, dstAddr := "10.0.0.1" } ""
    (by decide +kernel) hrun rfl (by decide) (by decide)).mpr (by decide +kernel)⟩

/-- The lookup prefers the destination port, the chain the setting that sorts last. -/
theorem settingsFindDscp_ne_outputDscp :
    (exec System.commitBatch (.create "eth1" [])
        [[{ dstPort := 80, dstAddr := "10.0.0.1", classId := "1:2", dscp := "AF21" },
          { srcPort := 1000, dstAddr := "10.0.0.1", classId := "1:3", dscp := "BE" }]]).map
        (fun s => (settingsFindDscp s.controller.applied 1000 80 "10.0.0.1" "",
          outputDscp s.table
            { dev := "eth1", srcPort := 1000, dstPort := 80, dstAddr := "10.0.0.1" })) =
      some ("AF21", some "BE") := by
  decide +kernel

end Agreement

end Iptables
end HeypAgents
