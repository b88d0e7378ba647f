import HeypAgents.Lib.Runs
import HeypAgents.Logs.IptablesRules

/-!
# Host enforcer logs

`HostEnforcerLogReader` turns the pairs of iptables and class dumps of a host into entries
that list, for each of three QoS classes, the destinations with their limiters.
Destinations without a rule of a class are filled in from the set of destinations seen so
far.

That set is updated from the HIPRI and LOPRI rules only.  The main result says exactly for
which dumps the entries are complete nevertheless.
-/

namespace HeypAgents
namespace Logs

open ByteText

inductive Bucket where
  | critical
  | hipri
  | lopri
deriving DecidableEq, Repr

structure QoSEnforcerEntry where
  srcDC : Bytes
  srcIP : Bytes
  dstDC : Bytes
  dstIP : Bytes
  limiter : HTBClass
deriving DecidableEq, Repr

/-- One value for each QoS class. -/
structure PerQoS (α : Type*) where
  critical : α
  hipri : α
  lopri : α

namespace PerQoS

variable {α : Type*}

def get (q : PerQoS α) : Bucket → α
  | .critical => q.critical
  | .hipri => q.hipri
  | .lopri => q.lopri

def modify (q : PerQoS α) (f : α → α) : Bucket → PerQoS α
  | .critical => { q with critical := f q.critical }
  | .hipri => { q with hipri := f q.hipri }
  | .lopri => { q with lopri := f q.lopri }

theorem get_modify (q : PerQoS α) (f : α → α) (b b' : Bucket) :
    (q.modify f b).get b' = if b' = b then f (q.get b') else q.get b' := by
  cases b <;> cases b' <;> rfl

end PerQoS

structure HostEnforcerLogEntry (T : Type*) where
  time : T
  lists : PerQoS (List QoSEnforcerEntry)

/-- An error of the reader: its message, the time stamp, the cause and, except for a bad time
stamp, the names that remain. -/
structure ReaderError where
  mesg : String
  time : Bytes
  cause : String
  remaining : List Bytes
deriving DecidableEq, Repr

/-- What the reader is made with: the map of data centers, the directory, `time.Parse` and the
quoting of lines in errors. -/
structure LogDir (T : Type*) where
  hostDC : Bytes → Bytes
  srcIP : Bytes
  openFile : Bytes → Except String Source
  parseTime : Bytes → Except String T
  quote : Bytes → String

/-- The reader; `prevDstIPs` are the keys of the map. -/
structure HostEnforcerLogReader where
  remaining : List Bytes
  prevDstIPs : List Bytes := []
  err : Option ReaderError := none
deriving DecidableEq, Repr

structure MapOrder where
  visit : List Bytes → List Bytes
  perm : ∀ keys, (visit keys).Perm keys

/-- The name up to the first occurrence of `marker`. -/
def cutAt (marker : Bytes) : Bytes → Bytes
  | [] => []
  | b :: rest => if marker.isPrefixOf (b :: rest) then [] else b :: cutAt marker rest

/-- `NewHostEnforcerLogReader`: the time stamps of the files, each once and in order. -/
def newHostEnforcerLogReader (files : List (Bytes × Bool)) : HostEnforcerLogReader :=
  let stamps := (files.filter fun f => !f.2).map fun f =>
    cutAt (ascii "-iptables:") (cutAt (ascii "-tc:") f.1)
  { remaining := (stamps.foldl (fun toread t => if t ∈ toread then toread else toread ++ [t])
      []).insertionSort (· ≤ ·) }

section ReadOne

variable {T : Type*} (dir : LogDir T)

def bucketOf (qos : Bytes) : Bucket :=
  if qos = ascii "0x1a" ∨ qos = ascii "0x1A" then .critical
  else if qos = ascii "0x12" then .hipri
  else if qos = ascii "0" ∨ qos = ascii "0x0" ∨ qos = ascii "0x00" then .lopri
  else .hipri

def entryFor (dstIP : Bytes) (limiter : HTBClass) : QoSEnforcerEntry :=
  { srcDC := dir.hostDC dir.srcIP, srcIP := dir.srcIP, dstDC := dir.hostDC dstIP, dstIP := dstIP,
    limiter := limiter }

structure EntryBuild where
  lists : PerQoS (List QoSEnforcerEntry) := ⟨[], [], []⟩
  saw : PerQoS (List Bytes) := ⟨[], [], []⟩

/-- One rule of the dump. -/
def addRule (classes : HTBClasses) (s : EntryBuild) (rule : EnforcementRule) : EntryBuild :=
  let entry := entryFor dir rule.dstIP ((classes rule.classID).getD {})
  { lists := s.lists.modify (· ++ [entry]) (bucketOf rule.qos)
    saw := s.saw.modify (· ++ [rule.dstIP]) (bucketOf rule.qos) }

def fillBucket (s : EntryBuild) (dstIP : Bytes) (b : Bucket) : EntryBuild :=
  if dstIP ∈ s.saw.get b then s
  else { s with lists := s.lists.modify (· ++ [entryFor dir dstIP {}]) b }

def fillIn (s : EntryBuild) (dstIP : Bytes) : EntryBuild :=
  [.critical, .hipri, .lopri].foldl (fun s b => fillBucket dir s dstIP b) s

def addKey (keys : List Bytes) (key : Bytes) : List Bytes :=
  if key ∈ keys then keys else keys ++ [key]

/-- A file of the first time stamp is missing or bad: for the last time stamp this is the
end, otherwise an error. -/
def HostEnforcerLogReader.giveUp (r : HostEnforcerLogReader) (mesg : String) (time : Bytes)
    (cause : String) : HostEnforcerLogReader :=
  if r.remaining.length = 1 then { r with remaining := r.remaining.tail }
  else { r with err := some ⟨mesg, time, cause, r.remaining.tail⟩ }

/-- `ReadOne`: the reader afterwards and, if it returns true, the entry, here with the rules
of its iptables dump.  `none` while the dump is still being parsed. -/
def HostEnforcerLogReader.readOne (fuel : ℕ) (order : MapOrder) (r : HostEnforcerLogReader) :
    Option (HostEnforcerLogReader × Option (HostEnforcerLogEntry T × List EnforcementRule)) :=
  if r.err.isSome then some (r, none)
  else
    match r.remaining with
    | [] => some (r, none)
    | name :: rest =>
      match dir.parseTime name with
      | .error e => some ({ r with err := some ⟨"failed to parse timestamp", name, e, []⟩ }, none)
      | .ok t =>
        match dir.openFile (name ++ ascii "-iptables:mangle") with
        | .error e =>
          some (r.giveUp "failed to open iptables 'mangle' table dump" name e, none)
        | .ok iptFile =>
          match readIPTablesEnforcementRules dir.quote fuel iptFile with
          | none => none
          | some (.error e) =>
            some (r.giveUp "failed to read iptables 'mangle' table dump" name e, none)
          | some (.ok ipt) =>
            match dir.openFile (name ++ ascii "-tc:class") with
            | .error e => some (r.giveUp "failed to open htb classes dump" name e, none)
            | .ok tcFile =>
              match readHTBClasses dir.quote tcFile with
              | .error e =>
                some (r.giveUp "failed to read htb classes table dump" name e, none)
              | .ok classes =>
                let s := ipt.foldl (addRule dir classes) {}
                let prev := (s.saw.hipri ++ s.saw.lopri).foldl addKey r.prevDstIPs
                let s := (order.visit prev).foldl (fillIn dir) s
                some ({ r with remaining := rest, prevDstIPs := prev },
                  some (⟨t, s.lists⟩, ipt))

end ReadOne

variable {order : MapOrder} {fuel : ℕ}

section Build

variable {T : Type*} {dir : LogDir T} {classes : HTBClasses}

/-- The rules of one class. -/
def inBucket (b : Bucket) (rules : List EnforcementRule) : List EnforcementRule :=
  rules.filter fun rule => bucketOf rule.qos = b

def ruleEntry (dir : LogDir T) (classes : HTBClasses) (rule : EnforcementRule) : QoSEnforcerEntry :=
  entryFor dir rule.dstIP ((classes rule.classID).getD {})

theorem foldl_addRule (rules : List EnforcementRule) (s : EntryBuild) (b : Bucket) :
    (rules.foldl (addRule dir classes) s).lists.get b =
        s.lists.get b ++ (inBucket b rules).map (ruleEntry dir classes) ∧
      (rules.foldl (addRule dir classes) s).saw.get b =
        s.saw.get b ++ (inBucket b rules).map EnforcementRule.dstIP := by
  induction rules generalizing s with
  | nil => simp [inBucket]
  | cons rule rules ih =>
    obtain ⟨hlists, hsaw⟩ := ih (addRule dir classes s rule)
    rw [List.foldl_cons, hlists, hsaw]
    by_cases hb : bucketOf rule.qos = b
    · simp [addRule, PerQoS.get_modify, inBucket, hb, ruleEntry]
    · simp [addRule, PerQoS.get_modify, inBucket, hb, Ne.symm hb]

theorem saw_fillBucket (s : EntryBuild) (dstIP : Bytes) (b : Bucket) :
    (fillBucket dir s dstIP b).saw = s.saw := by
  unfold fillBucket
  split_ifs <;> rfl

theorem lists_fillBucket (s : EntryBuild) (dstIP : Bytes) (b b' : Bucket) :
    (fillBucket dir s dstIP b).lists.get b' =
      if b' = b ∧ dstIP ∉ s.saw.get b then s.lists.get b' ++ [entryFor dir dstIP {}]
      else s.lists.get b' := by
  unfold fillBucket
  split_ifs with hsaw hcond hcond
  · exact absurd hsaw hcond.2
  · rfl
  · rw [PerQoS.get_modify, if_pos hcond.1]
  · rw [PerQoS.get_modify, if_neg fun h => hcond ⟨h, hsaw⟩]

theorem fillIn_spec (s : EntryBuild) (dstIP : Bytes) (b : Bucket) :
    (fillIn dir s dstIP).saw = s.saw ∧
      (fillIn dir s dstIP).lists.get b = s.lists.get b ++
        if dstIP ∈ s.saw.get b then [] else [entryFor dir dstIP {}] := by
  constructor
  · simp [fillIn, saw_fillBucket]
  · simp only [fillIn, List.foldl_cons, List.foldl_nil, lists_fillBucket, saw_fillBucket]
    cases b <;> split_ifs <;> simp_all

theorem foldl_fillIn (ips : List Bytes) (s : EntryBuild) (b : Bucket) :
    (ips.foldl (fillIn dir) s).lists.get b =
      s.lists.get b ++
        (ips.filter fun ip => ip ∉ s.saw.get b).map fun ip => entryFor dir ip {} := by
  induction ips generalizing s with
  | nil => simp
  | cons ip ips ih =>
    obtain ⟨hsaw, hlists⟩ := @fillIn_spec _ dir s ip b
    rw [List.foldl_cons, ih, hsaw, hlists, List.filter_cons]
    by_cases hmem : ip ∈ s.saw.get b <;> simp [hmem]

theorem mem_foldl_addKey {keys new : List Bytes} {k : Bytes} :
    k ∈ new.foldl addKey keys ↔ k ∈ keys ∨ k ∈ new := by
  induction new generalizing keys with
  | nil => simp
  | cons n new ih =>
    have hadd : k ∈ addKey keys n ↔ k ∈ keys ∨ k = n := by
      unfold addKey
      split_ifs with hn
      · exact ⟨.inl, fun h => h.elim id fun heq => heq ▸ hn⟩
      · simp
    rw [List.foldl_cons, ih, hadd, List.mem_cons, or_assoc]

theorem nodup_foldl_addKey {keys new : List Bytes} (h : keys.Nodup) :
    (new.foldl addKey keys).Nodup := by
  induction new generalizing keys with
  | nil => exact h
  | cons n new ih =>
    refine ih ?_
    unfold addKey
    split_ifs with hn
    · exact h
    · simpa using List.Nodup.concat hn h

theorem nodup_readIPTables {quote : Bytes → String} {src : Source} {ipt : List EnforcementRule}
    (h : readIPTablesEnforcementRules quote fuel src = some (.ok ipt)) :
    (ipt.map EnforcementRule.dstIP).Nodup := by
  rw [readIPTablesEnforcementRules] at h
  split at h
  · cases h
  · cases h
  · rename_i rules _
    split at h
    · cases h
    · rw [mergeRules_eq] at h
      obtain ⟨hascending, -⟩ :=
        SortedRuns.mergeRuns_insertionSort (fun a b _ => dst_mergeRule a b) rules rfl
      have hipt : (SortedRuns.mergeRuns dst mergeRule (sortRules rules)).map Prod.fst = ipt := by
        simpa using h
      rw [← hipt, List.map_map]
      exact hascending.imp fun hlt => hlt.ne

theorem readOne_cases {r r' : HostEnforcerLogReader}
    {entry : HostEnforcerLogEntry T} {ipt : List EnforcementRule}
    (h : r.readOne dir fuel order = some (r', some (entry, ipt))) :
    (ipt.map EnforcementRule.dstIP).Nodup ∧
      r'.prevDstIPs = ((inBucket .hipri ipt).map EnforcementRule.dstIP ++
        (inBucket .lopri ipt).map EnforcementRule.dstIP).foldl addKey r.prevDstIPs ∧
      ∃ classes, ∀ b, entry.lists.get b = (inBucket b ipt).map (ruleEntry dir classes) ++
        ((order.visit r'.prevDstIPs).filter fun ip =>
          ip ∉ (inBucket b ipt).map EnforcementRule.dstIP).map fun ip => entryFor dir ip {} := by
  unfold HostEnforcerLogReader.readOne at h
  split_ifs at h
  · cases h
  split at h
  · cases h
  split at h
  · cases h
  split at h
  · cases h
  split at h
  · cases h
  · cases h
  split at h
  · cases h
  split at h
  · cases h
  rename_i rules hread _ _ _ _ classes _
  simp only [Option.some.injEq, Prod.mk.injEq] at h
  obtain ⟨rfl, rfl, rfl⟩ := h
  have hbuild := fun b => @foldl_addRule _ dir classes rules {} b
  have hempty : ∀ b, (({} : EntryBuild).lists.get b = []) ∧ ({} : EntryBuild).saw.get b = [] :=
    fun b => by cases b <;> exact ⟨rfl, rfl⟩
  simp only [hempty, List.nil_append] at hbuild
  refine ⟨nodup_readIPTables hread, ?_, classes, fun b => ?_⟩
  · change List.foldl addKey _ (PerQoS.get _ .hipri ++ PerQoS.get _ .lopri) = _
    rw [(hbuild .hipri).2, (hbuild .lopri).2]
  · change PerQoS.get (List.foldl (fillIn dir) _ _).lists b = _
    rw [foldl_fillIn, (hbuild b).1, (hbuild b).2]

end Build

section Completeness

variable {T : Type*} {dir : LogDir T} {dumps : List (List EnforcementRule)}
  {ipt : List EnforcementRule}

/-- Every destination of the dumps is listed once in each class, with an empty limiter where
the last dump has no rule of this class for it. -/
def Complete (dumps : List (List EnforcementRule)) (entry : HostEnforcerLogEntry T) : Prop :=
  ∀ rule ∈ dumps.flatten, ∀ b, ∃ x,
    ((entry.lists.get b).filter fun e => e.dstIP = rule.dstIP) = [x] ∧
      ((∀ ipt ∈ dumps.getLast?, ∀ cur ∈ ipt, cur.dstIP = rule.dstIP → bucketOf cur.qos ≠ b) →
        x.limiter = {})

def CriticalAlsoOther (dumps : List (List EnforcementRule)) : Prop :=
  ∀ rule ∈ dumps.flatten, bucketOf rule.qos = .critical →
    ∃ other ∈ dumps.flatten, other.dstIP = rule.dstIP ∧ bucketOf other.qos ≠ .critical

theorem filter_eq_singleton {α β : Type*} [DecidableEq β] {f : α → β} {xs : List α} {x : α}
    (h : (xs.map f).Nodup) (hx : x ∈ xs) : (xs.filter fun y => f y = f x) = [x] := by
  induction xs with
  | nil => cases hx
  | cons y xs ih =>
    obtain ⟨hy, hxs⟩ := List.nodup_cons.mp h
    rcases List.mem_cons.mp hx with rfl | hx
    · rw [List.filter_cons_of_pos (by simp), List.filter_eq_nil_iff.mpr]
      intro z hz heq
      exact hy (List.mem_map.mpr ⟨z, hz, by simpa using heq⟩)
    · rw [List.filter_cons_of_neg, ih hxs hx]
      intro heq
      exact hy (List.mem_map.mpr ⟨x, hx, (of_decide_eq_true heq).symm⟩)

variable {entry : List QoSEnforcerEntry} {prev : List Bytes} {b : Bucket}

theorem filter_lists {classes : HTBClasses} (d : Bytes)
    (hentry : entry = (inBucket b ipt).map (ruleEntry dir classes) ++
      (prev.filter fun ip => ip ∉ (inBucket b ipt).map EnforcementRule.dstIP).map
        fun ip => entryFor dir ip {}) :
    (entry.filter fun e => e.dstIP = d) =
      ((inBucket b ipt).filter fun rule => rule.dstIP = d).map (ruleEntry dir classes) ++
        ((prev.filter fun ip => ip = d).filter fun ip =>
          ip ∉ (inBucket b ipt).map EnforcementRule.dstIP).map fun ip => entryFor dir ip {} := by
  rw [hentry, List.filter_append, List.filter_map, List.filter_map, List.filter_filter,
    List.filter_filter]
  congr 3
  funext ip
  exact Bool.and_comm _ _

variable {d : Bytes}

theorem listed_of_mem {classes : HTBClasses} (hnodup : (ipt.map EnforcementRule.dstIP).Nodup)
    (hprev : prev.Nodup) (hd : d ∈ prev)
    (hentry : entry = (inBucket b ipt).map (ruleEntry dir classes) ++
      (prev.filter fun ip => ip ∉ (inBucket b ipt).map EnforcementRule.dstIP).map
        fun ip => entryFor dir ip {}) :
    ∃ x, (entry.filter fun e => e.dstIP = d) = [x] ∧
      ((∀ cur ∈ ipt, cur.dstIP = d → bucketOf cur.qos ≠ b) → x.limiter = {}) := by
  have hbucket : ((inBucket b ipt).map EnforcementRule.dstIP).Nodup :=
    hnodup.sublist (List.filter_sublist.map _)
  have hself : (prev.filter fun ip => ip = d) = [d] :=
    @filter_eq_singleton _ _ _ id prev d (by rwa [List.map_id]) hd
  rw [filter_lists d hentry, hself]
  by_cases hrule : ∃ rule ∈ inBucket b ipt, rule.dstIP = d
  · obtain ⟨rule, hmem, rfl⟩ := hrule
    have hsaw : rule.dstIP ∈ (inBucket b ipt).map EnforcementRule.dstIP := List.mem_map_of_mem hmem
    refine ⟨ruleEntry dir classes rule, ?_, fun hnone => ?_⟩
    · rw [filter_eq_singleton hbucket hmem, List.filter_cons_of_neg (by simpa using hsaw)]
      rfl
    · obtain ⟨hipt, hb⟩ := List.mem_filter.mp hmem
      exact absurd (of_decide_eq_true hb) (hnone rule hipt rfl)
  · have hnone : ((inBucket b ipt).filter fun rule => rule.dstIP = d) = [] := by
      refine List.filter_eq_nil_iff.mpr fun rule hmem heq => hrule ⟨rule, hmem, ?_⟩
      exact of_decide_eq_true heq
    have hsaw : d ∉ (inBucket b ipt).map EnforcementRule.dstIP := by
      intro hmem
      obtain ⟨rule, hrmem, heq⟩ := List.mem_map.mp hmem
      exact hrule ⟨rule, hrmem, heq⟩
    refine ⟨entryFor dir d {}, ?_, fun _ => rfl⟩
    rw [hnone, List.filter_cons_of_pos (by simpa using hsaw)]
    rfl

theorem not_listed {classes : HTBClasses} (hd : d ∉ prev)
    (hrules : ∀ rule ∈ ipt, rule.dstIP = d → bucketOf rule.qos ≠ b)
    (hentry : entry = (inBucket b ipt).map (ruleEntry dir classes) ++
      (prev.filter fun ip => ip ∉ (inBucket b ipt).map EnforcementRule.dstIP).map
        fun ip => entryFor dir ip {}) :
    (entry.filter fun e => e.dstIP = d) = [] := by
  have hself : (prev.filter fun ip => ip = d) = [] := by
    refine List.filter_eq_nil_iff.mpr fun ip hip heq => hd ?_
    rw [← of_decide_eq_true heq]
    exact hip
  have hnone : ((inBucket b ipt).filter fun rule => rule.dstIP = d) = [] := by
    refine List.filter_eq_nil_iff.mpr fun rule hmem heq => ?_
    obtain ⟨hipt, hb⟩ := List.mem_filter.mp hmem
    exact hrules rule hipt (of_decide_eq_true heq) (of_decide_eq_true hb)
  rw [filter_lists d hentry, hself, hnone]
  rfl

theorem complete_iff {entry : HostEnforcerLogEntry T} {classes : HTBClasses}
    (hnodup : (ipt.map EnforcementRule.dstIP).Nodup) (hprev : prev.Nodup)
    (hmem : ∀ d, d ∈ prev ↔
      ∃ rule ∈ (dumps ++ [ipt]).flatten, rule.dstIP = d ∧ bucketOf rule.qos ≠ .critical)
    (hlists : ∀ b, entry.lists.get b = (inBucket b ipt).map (ruleEntry dir classes) ++
      ((order.visit prev).filter fun ip =>
        ip ∉ (inBucket b ipt).map EnforcementRule.dstIP).map fun ip => entryFor dir ip {}) :
    Complete (dumps ++ [ipt]) entry ↔ CriticalAlsoOther (dumps ++ [ipt]) := by
  have hvisit : ∀ d, d ∈ order.visit prev ↔ d ∈ prev := fun d => (order.perm prev).mem_iff
  constructor
  · intro hcomplete rule hrule _
    by_contra hother
    have hout : rule.dstIP ∉ order.visit prev := by
      rw [hvisit, hmem]
      exact hother
    obtain ⟨x, hx, -⟩ := hcomplete rule hrule .hipri
    have hrules : ∀ cur ∈ ipt, cur.dstIP = rule.dstIP → bucketOf cur.qos ≠ .hipri := by
      intro cur hcur heq hb
      refine hother ⟨cur, by simp [hcur], heq, ?_⟩
      rw [hb]
      decide
    rw [not_listed hout hrules (hlists .hipri)] at hx
    cases hx
  · intro hcond rule hrule b
    have hin : rule.dstIP ∈ prev := by
      rw [hmem]
      by_cases hb : bucketOf rule.qos = .critical
      · exact hcond rule hrule hb
      · exact ⟨rule, hrule, rfl, hb⟩
    obtain ⟨x, hx, hlimiter⟩ := listed_of_mem hnodup ((order.perm prev).nodup_iff.mpr hprev)
      ((hvisit _).mpr hin) (hlists b)
    exact ⟨x, hx, fun hnone => hlimiter (hnone ipt (by simp))⟩

structure LogTrace (T : Type*) where
  reader : HostEnforcerLogReader
  dumps : List (List EnforcementRule) := []
  entries : List (HostEnforcerLogEntry T) := []

/-- A call of `ReadOne` that returns true. -/
def LogTrace.step (dir : LogDir T) (fuel : ℕ) (s : LogTrace T) (order : MapOrder) :
    Option (LogTrace T) :=
  match s.reader.readOne dir fuel order with
  | some (r, some (entry, ipt)) =>
    some { reader := r, dumps := s.dumps ++ [ipt], entries := s.entries ++ [entry] }
  | _ => none

/-- The set of the reader is determined by the dumps, and each entry is complete or not as
its dumps say. -/
structure LogTrace.Inv (s : LogTrace T) : Prop where
  nodup : s.reader.prevDstIPs.Nodup
  prev : ∀ d, d ∈ s.reader.prevDstIPs ↔
    ∃ rule ∈ s.dumps.flatten, rule.dstIP = d ∧ bucketOf rule.qos ≠ .critical
  length : s.entries.length = s.dumps.length
  entries : ∀ i entry, s.entries[i]? = some entry →
    (Complete (s.dumps.take (i + 1)) entry ↔ CriticalAlsoOther (s.dumps.take (i + 1)))

theorem mem_newKeys :
    d ∈ (inBucket .hipri ipt).map EnforcementRule.dstIP ++
        (inBucket .lopri ipt).map EnforcementRule.dstIP ↔
      ∃ rule ∈ ipt, rule.dstIP = d ∧ bucketOf rule.qos ≠ .critical := by
  have hbucket : ∀ b, b ≠ Bucket.critical ↔ b = .hipri ∨ b = .lopri := by
    intro b
    cases b <;> simp
  simp only [List.mem_append, List.mem_map, inBucket, List.mem_filter, decide_eq_true_eq, hbucket]
  constructor
  · rintro (⟨rule, ⟨hmem, hb⟩, rfl⟩ | ⟨rule, ⟨hmem, hb⟩, rfl⟩)
    · exact ⟨rule, hmem, rfl, .inl hb⟩
    · exact ⟨rule, hmem, rfl, .inr hb⟩
  · rintro ⟨rule, hmem, rfl, hb | hb⟩
    · exact .inl ⟨rule, ⟨hmem, hb⟩, rfl⟩
    · exact .inr ⟨rule, ⟨hmem, hb⟩, rfl⟩

/-- A call keeps the invariant. -/
theorem LogTrace.Inv.step {s t : LogTrace T} (h : s.Inv)
    (hstep : s.step dir fuel order = some t) : t.Inv := by
  unfold LogTrace.step at hstep
  split at hstep
  · rename_i r entry ipt hread
    cases hstep
    obtain ⟨hnodup, hkeys, classes, hlists⟩ := readOne_cases hread
    have hprev : r.prevDstIPs.Nodup := by
      rw [hkeys]
      exact nodup_foldl_addKey h.nodup
    have hmem : ∀ d, d ∈ r.prevDstIPs ↔
        ∃ rule ∈ (s.dumps ++ [ipt]).flatten, rule.dstIP = d ∧ bucketOf rule.qos ≠ .critical := by
      intro d
      rw [hkeys, mem_foldl_addKey, h.prev, mem_newKeys]
      simp only [List.flatten_append, List.flatten_singleton, List.mem_append, or_and_right,
        exists_or]
    refine ⟨hprev, hmem, by simp [h.length], fun i e he => ?_⟩
    rcases Nat.lt_trichotomy i s.entries.length with hold | rfl | hnew
    · have htake : (s.dumps ++ [ipt]).take (i + 1) = s.dumps.take (i + 1) :=
        List.take_append_of_le_length (by rw [← h.length]; exact hold)
      dsimp only at he ⊢
      rw [List.getElem?_append_left hold] at he
      rw [htake]
      exact h.entries i e he
    · dsimp only at he ⊢
      rw [List.getElem?_concat_length] at he
      cases he
      rw [List.take_of_length_le (by simp [h.length])]
      exact complete_iff hnodup hprev hmem hlists
    · simp [hnew] at he
  · cases hstep

/--
In every sequence of successful calls an entry lists every destination of its own and the
earlier dumps once in each class exactly if every destination with a CRITICAL rule in these
dumps also has a rule of another class there.
-/
theorem readOne_complete_iff (dir : LogDir T) (fuel : ℕ) (remaining : List Bytes)
    (orders : List MapOrder) {t : LogTrace T}
    (hrun : Runs.exec (LogTrace.step dir fuel) { reader := { remaining := remaining } } orders =
      some t) (i : ℕ) (entry : HostEnforcerLogEntry T) (hentry : t.entries[i]? = some entry) :
    Complete (t.dumps.take (i + 1)) entry ↔ CriticalAlsoOther (t.dumps.take (i + 1)) := by
  have hstart : LogTrace.Inv ({ reader := { remaining := remaining } } : LogTrace T) :=
    ⟨List.nodup_nil, by simp, rfl, by simp⟩
  have hinv : t.Inv := Runs.exec_invariant (fun s order s' hs hstep => hs.step hstep) hstart hrun
  exact hinv.entries i entry hentry

def sameDumps (text : String) : LogDir ℕ where
  hostDC _ := ascii "dc"
  srcIP := ascii "10.0.0.9"
  openFile name := .ok { text := if ascii "-tc:class" <:+ name then [] else ascii text }
  parseTime name := .ok name.length
  quote _ := ""

def keyOrder : MapOrder where
  visit keys := keys
  perm keys := List.Perm.refl keys

/-- The rule for a destination is CRITICAL in the first dump and HIPRI in the second one. -/
def criticalThenHipri : LogDir ℕ :=
  { sameDumps "" with
    openFile := fun name =>
      (sameDumps ("-A OUTPUT -d 10.0.0.1/32 -j DSCP --set-dscp " ++
        (if ascii "a" <+: name then "0x1a" else "0x12") ++ "\n")).openFile name }

theorem readOne_complete_iff_second :
    ∃ (t : LogTrace ℕ) (entry : HostEnforcerLogEntry ℕ),
      Runs.exec (LogTrace.step criticalThenHipri 8)
        { reader := { remaining := [ascii "a", ascii "b"] } } [keyOrder, keyOrder] = some t ∧
      t.entries[1]? = some entry ∧ Complete (t.dumps.take 2) entry := by
  have hrun : (Runs.exec (LogTrace.step criticalThenHipri 8)
      { reader := { remaining := [ascii "a", ascii "b"] } } [keyOrder, keyOrder]).map
        (fun t => (t.dumps, t.entries.length)) =
      some ([[⟨ascii "10.0.0.1", ascii "0x1a", {}⟩], [⟨ascii "10.0.0.1", ascii "0x12", {}⟩]], 2) := by
    decide +kernel
  obtain ⟨t, ht, hdumps⟩ := Option.map_eq_some_iff.mp hrun
  obtain ⟨hdumps, hlen⟩ := Prod.mk.inj hdumps
  have hlt : 1 < t.entries.length := by omega
  refine ⟨t, t.entries[1], ht, List.getElem?_eq_getElem hlt, ?_⟩
  refine (readOne_complete_iff _ _ _ _ ht 1 _ (List.getElem?_eq_getElem hlt)).mpr ?_
  rw [hdumps]
  unfold CriticalAlsoOther
  decide +kernel

/-- A destination with a CRITICAL rule only is not listed as HIPRI. -/
theorem not_complete_critical_only :
    ∃ (t : LogTrace ℕ) (entry : HostEnforcerLogEntry ℕ),
      Runs.exec (LogTrace.step (sameDumps "-A OUTPUT -d 10.0.0.1/32 -j DSCP --set-dscp 0x1a\n") 8)
        { reader := { remaining := [ascii "t"] } } [keyOrder] = some t ∧
      t.entries[0]? = some entry ∧ ¬ Complete (t.dumps.take 1) entry := by
  have hrun : (Runs.exec
      (LogTrace.step (sameDumps "-A OUTPUT -d 10.0.0.1/32 -j DSCP --set-dscp 0x1a\n") 8)
      { reader := { remaining := [ascii "t"] } } [keyOrder]).map
        (fun t => (t.dumps, t.entries.map fun e => e.lists.hipri)) =
      some ([[⟨ascii "10.0.0.1", ascii "0x1a", {}⟩]], [[]]) := by
    decide +kernel
  obtain ⟨t, ht, hdumps⟩ := Option.map_eq_some_iff.mp hrun
  obtain ⟨hdumps, hlists⟩ := Prod.mk.inj hdumps
  obtain ⟨entry, hentries, hhipri⟩ : ∃ entry, t.entries = [entry] ∧ entry.lists.hipri = [] := by
    simpa [List.map_eq_singleton_iff] using hlists
  refine ⟨t, entry, ht, by rw [hentries]; rfl, fun hcomplete => ?_⟩
  rw [hdumps] at hcomplete
  obtain ⟨x, hx, -⟩ := hcomplete ⟨ascii "10.0.0.1", ascii "0x1a", {}⟩ (by simp) .hipri
  rw [PerQoS.get, hhipri] at hx
  cases hx

end Completeness

end Logs
end HeypAgents
