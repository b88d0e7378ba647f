import HeypAgents.Logs.HostEnforcerReader
import HeypAgents.Proc.SliceReader

/-!
# The log readers and the merger

Three readers feed the merger from log files.  `HostStatsReader` and `HostEnforcerLogReader`
return no error when their data ends; `DebugAllocRecordReader` returns none either, but `EOF`
from the next call on.  A merger that reads again after the end and gets nothing is left with
the entry it carried over and must not return it.
-/

namespace HeypAgents
namespace Proc

open ByteText

section HostStats

variable {H : Type} (time : H → ℤ) (unmarshal : Bytes → Except String H)

structure HostStatsReader where
  lines : List Bytes
  err : Option String
deriving DecidableEq, Repr

def newHostStatsReader (src : Source) : HostStatsReader :=
  { lines := scanned src, err := scanErr src }

/-- `Err` of a reader, as the result of its `Read`. -/
def statusOf : Option String → ReadStatus
  | none => .ok
  | some e => .failed e

/-- `HostStatsReader.Read`. -/
def HostStatsReader.read : HostStatsReader → ℕ → List (ℤ × H) × ReadStatus × HostStatsReader
  | r, 0 => ([], .ok, r)
  | r, k + 1 =>
    match r.lines with
    | [] => ([], statusOf r.err, r)
    | line :: rest =>
      match unmarshal line with
      | .error e => ([], .failed e, { r with lines := rest })
      | .ok hs =>
        let (recs, status, r') := HostStatsReader.read { r with lines := rest } k
        ((time hs, hs) :: recs, status, r')

end HostStats

section DebugAlloc

variable {R : Type}

/-- An error of `protojson.Unmarshal`; `eof` if it is or mentions the end of the input. -/
structure UnmarshalError where
  mesg : String
  eof : Bool
deriving DecidableEq, Repr

structure ProtoJSONRecReader where
  lines : List Bytes
  err : Option String := none
deriving DecidableEq, Repr

def newProtoJSONRecReader (text : Bytes) : ProtoJSONRecReader :=
  { lines := (rawLines text).map fun line => if line.2 then dropCR line.1 else line.1 }

/-- `ScanInto` with no error so far: the lines afterwards, the error and the record. -/
def scanLines (unmarshal : Bytes → Except UnmarshalError R) :
    List Bytes → ProtoJSONRecReader × Option R
  | [] => ({ lines := [] }, none)
  | line :: rest =>
    -- blank lines are skipped
    if fields line = [] then scanLines unmarshal rest
    else
      match unmarshal line with
      | .ok rec => ({ lines := rest }, some rec)
      | .error e =>
        -- an incomplete record at the end is ignored
        if e.eof ∨ rest = [] then ({ lines := rest }, none)
        else ({ lines := rest, err := some ("failed to unmarshal: " ++ e.mesg) }, none)

def ProtoJSONRecReader.scanInto (unmarshal : Bytes → Except UnmarshalError R)
    (r : ProtoJSONRecReader) : ProtoJSONRecReader × Option R :=
  if r.err.isSome then (r, none) else scanLines unmarshal r.lines

/-- What a debug allocation record needs: its parser, its time stamp and `time.Parse`. -/
structure AllocFormat (R : Type) where
  unmarshal : Bytes → Except UnmarshalError R
  timestamp : R → Bytes
  parseTime : Bytes → Except String ℤ

def AllocFormat.time (fmt : AllocFormat R) (rec : R) : ℤ :=
  match fmt.parseTime (fmt.timestamp rec) with
  | .ok t => t
  | .error _ => 0

structure DebugAllocRecordReader where
  r : ProtoJSONRecReader
  err : ReadStatus := .ok
deriving DecidableEq, Repr

def newDebugAllocRecordReader (text : Bytes) : DebugAllocRecordReader :=
  { r := newProtoJSONRecReader text }

/-- `DebugAllocRecordReader.Read`. -/
def DebugAllocRecordReader.read (fmt : AllocFormat R) :
    DebugAllocRecordReader → ℕ → List (ℤ × R) × ReadStatus × DebugAllocRecordReader
  | d, 0 => ([], .ok, d)
  | d, k + 1 =>
    if d.err ≠ .ok then ([], d.err, d)
    else
      match d.r.scanInto fmt.unmarshal with
      | (r', none) =>
        -- the error that is returned is that of the inner reader
        ([], statusOf r'.err,
          { r := r', err := if r'.err.isSome then statusOf r'.err else .eof })
      | (r', some rec) =>
        let (recs, status, d') := DebugAllocRecordReader.read fmt { d with r := r' } k
        ((fmt.time rec, rec) :: recs, status, d')

end DebugAlloc

section HostEnforcer

open Logs

variable (parseFuel : ℕ) (order : HostEnforcerLogReader → MapOrder) (errText : ReaderError → String)

structure EnforcerInput where
  dir : LogDir ℤ
  reader : HostEnforcerLogReader

/-- `HostEnforcerLogReader.Read`, with the order in which each call of `ReadOne` visits the map
and the texts of the reader's errors. -/
def EnforcerInput.read : EnforcerInput → ℕ →
    List (ℤ × HostEnforcerLogEntry ℤ) × ReadStatus × EnforcerInput
  | r, 0 => ([], statusOf (r.reader.err.map errText), r)
  | r, k + 1 =>
    match r.reader.readOne r.dir parseFuel (order r.reader) with
    | none => ([], .outOfFuel, r)
    | some (reader, none) =>
      ([], statusOf (reader.err.map errText), { r with reader := reader })
    | some (reader, some (entry, _)) =>
      let (recs, status, r') := EnforcerInput.read { r with reader := reader } k
      ((entry.time, entry) :: recs, status, r')

end HostEnforcer

section Protocols

variable {ρ D : Type} {read : TSBatchReader ρ D} {precision : ℤ} {holds : ρ → List (ℤ × D) → Prop}
  {ended : ρ → Prop} {start recs : List (ℤ × D)} {r : ρ}

def NeverEnds (read : TSBatchReader ρ D) (holds : ρ → List (ℤ × D) → Prop) : Prop :=
  ∀ r recs k, holds r recs → ∃ r', read r k = (recs.take k, .ok, r') ∧ holds r' (recs.drop k)

structure EndsLate (read : TSBatchReader ρ D) (holds : ρ → List (ℤ × D) → Prop)
    (ended : ρ → Prop) : Prop where
  full : ∀ r recs k, holds r recs → k ≤ recs.length →
    ∃ r', read r k = (recs.take k, .ok, r') ∧ holds r' (recs.drop k)
  rest : ∀ r recs k, holds r recs → recs.length < k → ∃ r', read r k = (recs, .ok, r') ∧ ended r'
  again : ∀ r k, ended r → 0 < k → ∃ r', read r k = ([], .eof, r')

/-- The number of records with which a reader that ends late gets stuck: none, or so many that
they fill the blocks. -/
def Fills (n : ℕ) : Prop := n = 0 ∨ n % 63 = 1
deriving Decidable

theorem lastPerTime_of_strict {xs : List (ℤ × D)} (h : xs.Pairwise fun x y => x.1 < y.1) :
    lastPerTime xs = xs := by
  induction xs with
  | nil => rfl
  | cons x xs ih =>
    cases xs with
    | nil => rfl
    | cons y xs =>
      have hxy : y.1 ≠ x.1 := ((List.pairwise_cons.mp h).1 y List.mem_cons_self).ne'
      have hrest := ih h.of_cons
      rw [lastPerTime, SortedRuns.mergeRuns] at hrest ⊢
      rw [SortedRuns.mergeFrom, if_neg hxy, hrest]

theorem exists_block {block : List (ℤ × D)} (h : 2 ≤ block.length) :
    ∃ first c, block = first ++ [c] ∧ first ≠ [] := by
  have hne : block ≠ [] := List.ne_nil_of_length_pos (by omega)
  refine ⟨block.dropLast, block.getLast hne, (List.dropLast_concat_getLast hne).symm, ?_⟩
  exact List.ne_nil_of_length_pos (by rw [List.length_dropLast]; omega)

theorem rounded_split {first : List (ℤ × D)} {c : ℤ × D} {k : ℕ}
    (hblock : rounded precision (start ++ recs.take k) = first ++ [c]) :
    rounded precision (start ++ recs) = first ++ rounded precision ([c] ++ recs.drop k) := by
  have hc : c ∈ rounded precision (start ++ recs.take k) := by simp [hblock]
  rw [List.singleton_append, rounded_cons_of_mem hc, List.append_cons, ← hblock,
    ← rounded_append, List.append_assoc, List.take_append_drop]

theorem length_rounded (xs : List (ℤ × D)) : (rounded precision xs).length = xs.length :=
  List.length_map _

theorem strict_take (k : ℕ)
    (h : (rounded precision (start ++ recs)).Pairwise fun x y => x.1 < y.1) :
    (rounded precision (start ++ recs.take k)).Pairwise fun x y => x.1 < y.1 := by
  refine h.sublist (List.Sublist.map _ ?_)
  exact (List.Sublist.refl start).append (List.take_sublist k recs)

/-- A reader that never ends keeps its last record back. -/
theorem NeverEnds.view (h : NeverEnds read holds) (hstart : start.length ≤ 1) (hr : holds r recs)
    (hstrict : (rounded precision (start ++ recs)).Pairwise fun x y => x.1 < y.1) :
    View read precision start r (rounded precision (start ++ recs)).dropLast true := by
  induction hn : recs.length using Nat.strongRecOn generalizing start r recs with
  | ind n ih =>
    obtain ⟨r', hread, hr'⟩ := h r recs (64 - start.length) hr
    have hblockStrict := strict_take (64 - start.length) hstrict
    have hlen : (rounded precision (start ++ recs.take (64 - start.length))).length =
        start.length + min (64 - start.length) recs.length := by
      rw [length_rounded, List.length_append, List.length_take]
    rcases Nat.lt_or_ge (start.length + min (64 - start.length) recs.length) 2 with hone | htwo
    · have hnil : (rounded precision (start ++ recs)).dropLast = [] := by
        rw [← List.length_eq_zero_iff, List.length_dropLast, length_rounded, List.length_append]
        omega
      rw [hnil]
      refine .stuck hread ?_
      rw [lastPerTime_of_strict hblockStrict]
      omega
    · obtain ⟨first, c, hblock, hfirst⟩ := exists_block (hlen ▸ htwo)
      have hsplit := rounded_split hblock
      have hne : rounded precision ([c] ++ recs.drop (64 - start.length)) ≠ [] :=
        List.cons_ne_nil _ _
      rw [hsplit] at hstrict ⊢
      rw [List.dropLast_append_of_ne_nil hne]
      refine .block hread ((lastPerTime_of_strict hblockStrict).trans hblock) hfirst ?_
      refine ih (recs.drop (64 - start.length)).length ?_ le_rfl hr'
        (List.pairwise_append.mp hstrict).2.1 rfl
      rw [List.length_drop]
      omega

theorem EndsLate.view_rest (h : EndsLate read holds ended) (hstart : start.length ≤ 1)
    (hr : holds r recs) (hshort : recs.length < 64 - start.length)
    (hstrict : (rounded precision (start ++ recs)).Pairwise fun x y => x.1 < y.1) :
    View read precision start r
      (if Fills (start ++ recs).length then (rounded precision (start ++ recs)).dropLast
        else rounded precision (start ++ recs)) (Fills (start ++ recs).length) := by
  have hlen : (rounded precision (start ++ recs)).length = start.length + recs.length := by
    rw [length_rounded, List.length_append]
  have hfills : Fills (start ++ recs).length ↔ start.length + recs.length < 2 := by
    rw [List.length_append, Fills]
    omega
  obtain ⟨r', hread, hended⟩ := h.rest r recs _ hr hshort
  by_cases hone : start.length + recs.length < 2
  · have hnil : (rounded precision (start ++ recs)).dropLast = [] := by
      rw [← List.length_eq_zero_iff, List.length_dropLast, hlen]
      omega
    simp only [hfills, hone, if_true, decide_true, hnil]
    refine .stuck hread ?_
    rw [lastPerTime_of_strict hstrict, hlen]
    omega
  · simp only [hfills, hone, if_false, decide_false]
    obtain ⟨first, c, hblock, hfirst⟩ := exists_block (hlen ▸ not_lt.mp hone)
    obtain ⟨r'', hagain⟩ := h.again r' (64 - 1) hended (by omega)
    have hc : lastPerTime (rounded precision ([c] ++ [])) = [c] := by
      have hmem : c ∈ rounded precision (start ++ recs) := by simp [hblock]
      rw [List.append_nil, rounded_cons_of_mem hmem]
      rfl
    have hend : View read precision [c] r' (lastPerTime (rounded precision ([c] ++ []))) false :=
      .ends hagain
    rw [hc] at hend
    rw [hblock]
    exact .block hread ((lastPerTime_of_strict hstrict).trans hblock) hfirst hend

/-- A reader that ends late delivers everything unless its records fill the blocks. -/
theorem EndsLate.view (h : EndsLate read holds ended) (hstart : start.length ≤ 1)
    (hr : holds r recs)
    (hstrict : (rounded precision (start ++ recs)).Pairwise fun x y => x.1 < y.1) :
    View read precision start r
      (if Fills (start ++ recs).length then (rounded precision (start ++ recs)).dropLast
        else rounded precision (start ++ recs)) (Fills (start ++ recs).length) := by
  induction hn : recs.length using Nat.strongRecOn generalizing start r recs with
  | ind n ih =>
    rcases Nat.lt_or_ge recs.length (64 - start.length) with hshort | hlong
    · exact h.view_rest hstart hr hshort hstrict
    · obtain ⟨r', hread, hr'⟩ := h.full r recs _ hr hlong
      have hblockStrict := strict_take (64 - start.length) hstrict
      obtain ⟨first, c, hblock, hfirst⟩ := exists_block
        (show 2 ≤ (rounded precision (start ++ recs.take (64 - start.length))).length by
          rw [length_rounded, List.length_append, List.length_take]
          omega)
      have hsplit := rounded_split hblock
      have hrest := ih (recs.drop (64 - start.length)).length
        (by rw [List.length_drop]; omega) (le_refl [c].length) hr'
        (by rw [hsplit] at hstrict; exact (List.pairwise_append.mp hstrict).2.1) rfl
      have hfills : Fills ([c] ++ recs.drop (64 - start.length)).length ↔
          Fills (start ++ recs).length := by
        simp only [List.length_append, List.length_drop, List.length_singleton, Fills]
        omega
      have hne : rounded precision ([c] ++ recs.drop (64 - start.length)) ≠ [] :=
        List.cons_ne_nil _ _
      have hview :=
        View.block hread ((lastPerTime_of_strict hblockStrict).trans hblock) hfirst hrest
      simp only [hfills] at hview
      rw [hsplit]
      split_ifs at hview ⊢ with hf
      · rw [List.dropLast_append_of_ne_nil hne]
        exact hview
      · exact hview

theorem runsToEnd_iff_views {readers : List ρ} (view : ρ → StreamMerge.Stream ℤ D)
    (hview : ∀ r ∈ readers, (view r).last = none ∧
      View read precision [] r (view r).entries (view r).stuck)
    (hsorted : ∀ r ∈ readers, (view r).Sorted) :
    RunsToEnd read precision readers ↔
      ∀ r ∈ readers, (view r).stuck = true →
        ∃ q ∈ readers, (view q).stuck = false ∧ ¬ StreamMerge.Outlives (view q) (view r) := by
  obtain ⟨rows, stuck, N, hrun, houtcome⟩ := drain_of_views hview
  have hstuck := hrun.stuck_iff (List.forall_mem_map.mpr hsorted)
  simp only [List.mem_map, exists_exists_and_eq_and, forall_exists_index, and_imp,
    forall_apply_eq_imp_iff₂] at hstuck
  rw [runsToEnd_iff_of_outcome houtcome, ← Bool.not_eq_true, hstuck]
  simp only [not_exists, not_and, not_forall, exists_prop]

/-- Readers that never end make the merger panic. -/
theorem NeverEnds.runsToEnd_iff (h : NeverEnds read holds) {readers : List ρ}
    (hr : ∀ r ∈ readers, ∃ recs, holds r recs ∧
      (rounded precision recs).Pairwise fun x y => x.1 < y.1) :
    RunsToEnd read precision readers ↔ readers = [] := by
  have hviews : ∀ r, ∃ entries : List (ℤ × D), r ∈ readers →
      View read precision [] r entries true ∧ entries.Pairwise fun x y => x.1 < y.1 := by
    intro r
    by_cases hmem : r ∈ readers
    · obtain ⟨recs, hrecs, hstrict⟩ := hr r hmem
      exact ⟨_, fun _ => ⟨h.view (Nat.zero_le 1) hrecs hstrict,
        hstrict.sublist (List.dropLast_sublist _)⟩⟩
    · exact ⟨[], fun hmem' => absurd hmem' hmem⟩
  choose entries hentries using hviews
  rw [runsToEnd_iff_views (fun r => ⟨entries r, true, none⟩)
    (fun r hmem => ⟨rfl, (hentries r hmem).1⟩) fun r hmem => (hentries r hmem).2]
  constructor
  · intro hall
    refine List.eq_nil_iff_forall_not_mem.mpr fun r hmem => ?_
    obtain ⟨q, -, hends, -⟩ := hall r hmem rfl
    cases hends
  · rintro rfl
    nofun

/-- The rounded times of records. -/
def roundedTimes (precision : ℤ) (recs : List (ℤ × D)) : List ℤ :=
  recs.map fun x => roundTime precision x.1

/--
Readers that end late are merged to the end exactly if some reader that ends holds no later
record than the last but one of each reader whose records fill the blocks.
-/
theorem EndsLate.runsToEnd_iff (h : EndsLate read holds ended) {readers : List ρ}
    {records : ρ → List (ℤ × D)} (hr : ∀ r ∈ readers, holds r (records r) ∧
      (rounded precision (records r)).Pairwise fun x y => x.1 < y.1) :
    RunsToEnd read precision readers ↔
      ∀ r ∈ readers, Fills (records r).length →
        ∃ q ∈ readers, ¬ Fills (records q).length ∧
          ∀ t ∈ roundedTimes precision (records q),
            ∃ u ∈ (roundedTimes precision (records r)).dropLast, t ≤ u := by
  have htimes : ∀ recs : List (ℤ × D),
      roundedTimes precision recs = (rounded precision recs).map Prod.fst := by
    intro recs
    rw [rounded, List.map_map]
    rfl
  rw [runsToEnd_iff_views (fun r => ⟨if Fills (records r).length then
      (rounded precision (records r)).dropLast else rounded precision (records r),
      Fills (records r).length, none⟩)]
  · refine forall₂_congr fun r hmem => ?_
    simp only [decide_eq_true_eq, decide_eq_false_iff_not]
    refine imp_congr_right fun hfills => exists_congr fun q => and_congr_right fun hq => ?_
    refine and_congr_right fun hnot => ?_
    simp only [StreamMerge.Outlives, hfills, hnot, if_true, if_false, htimes, ← List.map_dropLast,
      List.mem_map, exists_exists_and_eq_and, forall_exists_index, and_imp,
      forall_apply_eq_imp_iff₂, not_exists, not_and, not_forall, not_lt, exists_prop]
  · exact fun r hmem => ⟨rfl, h.view (Nat.zero_le 1) (hr r hmem).1 (hr r hmem).2⟩
  · intro r hmem
    show List.Pairwise _ (if Fills (records r).length then _ else _)
    split_ifs
    · exact (hr r hmem).2.sublist (List.dropLast_sublist _)
    · exact (hr r hmem).2

def Distinct (precision : ℤ) (times : List ℤ) : Prop :=
  times.Pairwise (· < ·) ∧ (times.map (roundTime precision)).Nodup

theorem Distinct.strict {times : List ℤ} (h : Distinct precision times)
    (hrecs : recs.map Prod.fst = times) :
    (rounded precision recs).Pairwise fun x y => x.1 < y.1 := by
  subst hrecs
  obtain ⟨hlt, hnodup⟩ := h
  rw [List.Nodup, List.pairwise_map, List.pairwise_map] at hnodup
  rw [List.pairwise_map] at hlt
  rw [rounded, List.pairwise_map]
  exact (hlt.and hnodup).imp fun h => lt_of_le_of_ne (roundTime_mono precision h.1.le) h.2

end Protocols

section HostStatsRecords

variable {H : Type} (time : H → ℤ) (unmarshal : Bytes → Except String H)

def HostStatsReader.WellFormed (r : HostStatsReader) : Prop :=
  r.err = none ∧ ∀ line ∈ r.lines, ∃ hs, unmarshal line = .ok hs

def HostStatsReader.records (r : HostStatsReader) : List (ℤ × H) :=
  r.lines.filterMap fun line => (unmarshal line).toOption.map fun hs => (time hs, hs)

theorem HostStatsReader.neverEnds :
    NeverEnds (HostStatsReader.read time unmarshal) fun r recs =>
      r.WellFormed unmarshal ∧ r.records time unmarshal = recs := by
  rintro r recs k ⟨hwf, rfl⟩
  induction k generalizing r with
  | zero => exact ⟨r, rfl, hwf, rfl⟩
  | succ k ih =>
    obtain ⟨lines, err⟩ := r
    obtain ⟨rfl, hlines⟩ := hwf
    cases lines with
    | nil => exact ⟨⟨[], none⟩, rfl, ⟨rfl, hlines⟩, rfl⟩
    | cons line rest =>
      obtain ⟨hs, hline⟩ := hlines line List.mem_cons_self
      obtain ⟨r', hread, hr'⟩ := ih ⟨rest, none⟩
        ⟨rfl, fun l hl => hlines l (List.mem_cons_of_mem line hl)⟩
      have hrecs : HostStatsReader.records time unmarshal ⟨line :: rest, none⟩ =
          (time hs, hs) :: HostStatsReader.records time unmarshal ⟨rest, none⟩ := by
        simp [HostStatsReader.records, hline, Except.toOption]
      refine ⟨r', ?_, ?_⟩
      · rw [HostStatsReader.read]
        simp only [hline, hread, hrecs, List.take_succ_cons]
      · rw [hrecs]
        exact hr'

end HostStatsRecords

section DebugAllocRecords

variable {R : Type}

section Lines

variable (unmarshal : Bytes → Except UnmarshalError R) (time : R → ℤ)

def RecordLines (lines : List Bytes) : Prop :=
  ∀ line ∈ lines, fields line ≠ [] → ∃ rec, unmarshal line = .ok rec

def recordsIn (lines : List Bytes) : List (ℤ × R) :=
  (lines.filter fun line => fields line ≠ []).filterMap fun line =>
    (unmarshal line).toOption.map fun rec => (time rec, rec)

theorem scanLines_spec {lines : List Bytes} (h : RecordLines unmarshal lines) :
    (recordsIn unmarshal time lines = [] ∧ scanLines unmarshal lines = ({ lines := [] }, none)) ∨
      ∃ lines' rec, scanLines unmarshal lines = ({ lines := lines' }, some rec) ∧
        RecordLines unmarshal lines' ∧
        recordsIn unmarshal time lines = (time rec, rec) :: recordsIn unmarshal time lines' := by
  induction lines with
  | nil => exact .inl ⟨rfl, rfl⟩
  | cons line rest ih =>
    have hrest : RecordLines unmarshal rest := fun l hl => h l (List.mem_cons_of_mem line hl)
    rw [scanLines]
    by_cases hblank : fields line = []
    · have hrecs : recordsIn unmarshal time (line :: rest) = recordsIn unmarshal time rest := by
        simp [recordsIn, hblank]
      rw [if_pos hblank, hrecs]
      exact ih hrest
    · obtain ⟨rec, hrec⟩ := h line List.mem_cons_self hblank
      refine .inr ⟨rest, rec, ?_, hrest, ?_⟩
      · simp only [if_neg hblank, hrec]
      · simp [recordsIn, hblank, hrec, Except.toOption]

end Lines

variable (fmt : AllocFormat R)

def DebugAllocRecordReader.WellFormed (d : DebugAllocRecordReader) : Prop :=
  d.err = .ok ∧ d.r.err = none ∧ RecordLines fmt.unmarshal d.r.lines

def DebugAllocRecordReader.records (d : DebugAllocRecordReader) : List (ℤ × R) :=
  recordsIn fmt.unmarshal fmt.time d.r.lines

theorem DebugAllocRecordReader.read_spec {d : DebugAllocRecordReader} (hd : d.WellFormed fmt)
    (k : ℕ) :
    ∃ d', d.read fmt k = ((d.records fmt).take k, .ok, d') ∧
      (k ≤ (d.records fmt).length ∧ d'.WellFormed fmt ∧ d'.records fmt = (d.records fmt).drop k ∨
        (d.records fmt).length < k ∧ d'.err = .eof) := by
  induction k generalizing d with
  | zero => exact ⟨d, rfl, .inl ⟨Nat.zero_le _, hd, rfl⟩⟩
  | succ k ih =>
    obtain ⟨⟨lines, err⟩, status⟩ := d
    obtain ⟨rfl, rfl, hlines⟩ := hd
    rcases scanLines_spec fmt.unmarshal fmt.time hlines with
      ⟨hnil, hscan⟩ | ⟨lines', rec, hscan, hlines', hcons⟩
    · refine ⟨⟨⟨[], none⟩, .eof⟩, ?_, ?_⟩
      · simp [DebugAllocRecordReader.read, ProtoJSONRecReader.scanInto, hscan,
          DebugAllocRecordReader.records, hnil, statusOf]
      · simp [DebugAllocRecordReader.records, hnil]
    · obtain ⟨d', hread, hd'⟩ := @ih ⟨⟨lines', none⟩, .ok⟩ ⟨rfl, rfl, hlines'⟩
      simp only [DebugAllocRecordReader.records] at hread hd' ⊢
      refine ⟨d', ?_, ?_⟩
      · simp [DebugAllocRecordReader.read, ProtoJSONRecReader.scanInto, hscan, hread, hcons]
      · simpa [hcons] using hd'

theorem DebugAllocRecordReader.endsLate :
    EndsLate (DebugAllocRecordReader.read fmt)
      (fun d recs => d.WellFormed fmt ∧ d.records fmt = recs) fun d => d.err = .eof where
  full := by
    rintro d recs k ⟨hd, rfl⟩ hk
    obtain ⟨d', hread, hd'⟩ := DebugAllocRecordReader.read_spec fmt hd k
    rcases hd' with ⟨-, hd'⟩ | ⟨hlt, -⟩
    · exact ⟨d', hread, hd'⟩
    · exact absurd hk (not_le.mpr hlt)
  rest := by
    rintro d recs k ⟨hd, rfl⟩ hk
    obtain ⟨d', hread, hd'⟩ := DebugAllocRecordReader.read_spec fmt hd k
    rw [List.take_of_length_le hk.le] at hread
    rcases hd' with ⟨hle, -⟩ | ⟨-, hd'⟩
    · exact absurd hle (not_le.mpr hk)
    · exact ⟨d', hread, hd'⟩
  again := by
    intro d k hd hk
    obtain ⟨k, rfl⟩ := Nat.exists_eq_add_one_of_ne_zero hk.ne'
    exact ⟨d, by simp [DebugAllocRecordReader.read, hd]⟩

end DebugAllocRecords

section EnforcerRecords

open Logs

variable (parseFuel : ℕ) (order : HostEnforcerLogReader → MapOrder) (errText : ReaderError → String)

def ReadableDumps (dir : LogDir ℤ) (name : Bytes) : Prop := (∃ t, dir.parseTime name = .ok t) ∧
  (∃ src ipt, dir.openFile (name ++ ascii "-iptables:mangle") = .ok src ∧
    readIPTablesEnforcementRules dir.quote parseFuel src = some (.ok ipt)) ∧
  ∃ src classes, dir.openFile (name ++ ascii "-tc:class") = .ok src ∧
    readHTBClasses dir.quote src = .ok classes

def EnforcerInput.WellFormed (r : EnforcerInput) : Prop :=
  r.reader.err = none ∧ ∀ name ∈ r.reader.remaining, ReadableDumps parseFuel r.dir name

def EnforcerInput.times (r : EnforcerInput) : List ℤ :=
  r.reader.remaining.filterMap fun name => (r.dir.parseTime name).toOption

/-- `ReadOne` returns these records one after the other. -/
def EnforcerInput.Holds : EnforcerInput → List (ℤ × HostEnforcerLogEntry ℤ) → Prop
  | r, [] => r.reader.err = none ∧ r.reader.remaining = []
  | r, x :: recs => r.reader.err = none ∧ x.1 = x.2.time ∧ ∃ reader ipt,
      r.reader.readOne r.dir parseFuel (order r.reader) = some (reader, some (x.2, ipt)) ∧
      EnforcerInput.Holds { r with reader := reader } recs

theorem EnforcerInput.exists_holds (r : EnforcerInput) (h : r.WellFormed parseFuel) :
    ∃ recs, r.Holds parseFuel order recs ∧ recs.map Prod.fst = r.times := by
  obtain ⟨dir, remaining, prev, err⟩ := r
  obtain ⟨rfl, hnames⟩ := h
  induction remaining generalizing prev with
  | nil => exact ⟨[], ⟨rfl, rfl⟩, rfl⟩
  | cons name rest ih =>
    have hdumps : ReadableDumps parseFuel dir name := hnames name List.mem_cons_self
    obtain ⟨⟨t, ht⟩, ⟨iptFile, ipt, hopen, hipt⟩, tcFile, classes, hopenTc, hclasses⟩ := hdumps
    have hone : ∃ prev' lists, HostEnforcerLogReader.readOne dir parseFuel
        (order ⟨name :: rest, prev, none⟩) ⟨name :: rest, prev, none⟩ =
          some (⟨rest, prev', none⟩, some (⟨t, lists⟩, ipt)) := by
      simp only [HostEnforcerLogReader.readOne, Option.isSome_none, Bool.false_eq_true, if_false,
        ht, hopen, hipt, hopenTc, hclasses]
      exact ⟨_, _, rfl⟩
    obtain ⟨prev', lists, hone⟩ := hone
    obtain ⟨recs, hrecs, htimes⟩ := ih prev' fun n hn => hnames n (List.mem_cons_of_mem name hn)
    refine ⟨(t, ⟨t, lists⟩) :: recs, ⟨rfl, rfl, _, ipt, hone, hrecs⟩, ?_⟩
    simp only [EnforcerInput.times] at htimes ⊢
    simp [ht, Except.toOption, htimes]

theorem EnforcerInput.neverEnds :
    NeverEnds (EnforcerInput.read parseFuel order errText)
      (EnforcerInput.Holds parseFuel order) := by
  intro r recs k h
  induction k generalizing r recs with
  | zero =>
    have herr : r.reader.err = none := by
      cases recs with
      | nil => exact h.1
      | cons x recs => exact h.1
    exact ⟨r, by simp [EnforcerInput.read, herr, statusOf], h⟩
  | succ k ih =>
    cases recs with
    | nil =>
      obtain ⟨herr, hempty⟩ := h
      have hone : r.reader.readOne r.dir parseFuel (order r.reader) =
          some (r.reader, none) := by
        simp [HostEnforcerLogReader.readOne, herr, hempty]
      refine ⟨r, ?_, herr, hempty⟩
      simp [EnforcerInput.read, hone, herr, statusOf]
    | cons x recs =>
      obtain ⟨herr, hx, reader, ipt, hone, hrest⟩ := h
      obtain ⟨r', hread, hr'⟩ := ih { r with reader := reader } recs hrest
      refine ⟨r', ?_, hr'⟩
      simp [EnforcerInput.read, hone, hread, ← hx]

end EnforcerRecords

section Merging

variable {H R : Type}

/--
Host stats and enforcer logs make the merger panic as soon as there is an input.  Allocation
records do not if for each input whose records fill the blocks another one ends first: it
has no record after the last but one of the former.
-/
theorem logReaders_runToEnd_iff (precision : ℤ) (time : H → ℤ)
    (unmarshal : Bytes → Except String H) (fmt : AllocFormat R) (parseFuel : ℕ)
    (order : Logs.HostEnforcerLogReader → Logs.MapOrder) (errText : Logs.ReaderError → String) :
    (∀ readers : List HostStatsReader,
      (∀ r ∈ readers, r.WellFormed unmarshal ∧
        Distinct precision ((r.records time unmarshal).map Prod.fst)) →
      (RunsToEnd (HostStatsReader.read time unmarshal) precision readers ↔ readers = [])) ∧
    (∀ readers : List DebugAllocRecordReader,
      (∀ d ∈ readers, d.WellFormed fmt ∧ Distinct precision ((d.records fmt).map Prod.fst)) →
      (RunsToEnd (DebugAllocRecordReader.read fmt) precision readers ↔
        ∀ d ∈ readers, Fills (d.records fmt).length →
          ∃ q ∈ readers, ¬ Fills (q.records fmt).length ∧
            ∀ t ∈ roundedTimes precision (q.records fmt),
              ∃ u ∈ (roundedTimes precision (d.records fmt)).dropLast, t ≤ u)) ∧
    ∀ readers : List EnforcerInput,
      (∀ r ∈ readers, r.WellFormed parseFuel ∧ Distinct precision r.times) →
      (RunsToEnd (EnforcerInput.read parseFuel order errText) precision readers ↔
        readers = []) := by
  refine ⟨fun readers hr => ?_, fun readers hr => ?_, fun readers hr => ?_⟩
  · refine (HostStatsReader.neverEnds time unmarshal).runsToEnd_iff fun r hmem => ?_
    exact ⟨_, ⟨(hr r hmem).1, rfl⟩, (hr r hmem).2.strict rfl⟩
  · refine (DebugAllocRecordReader.endsLate fmt).runsToEnd_iff fun d hmem => ?_
    exact ⟨⟨(hr d hmem).1, rfl⟩, (hr d hmem).2.strict rfl⟩
  · refine (EnforcerInput.neverEnds parseFuel order errText).runsToEnd_iff fun r hmem => ?_
    obtain ⟨recs, hrecs, htimes⟩ := r.exists_holds parseFuel order (hr r hmem).1
    exact ⟨recs, hrecs, (hr r hmem).2.strict htimes⟩

/-- Records that are only a time stamp. -/
def parseStamp (text : Bytes) : Except String ℤ :=
  match parseInt 64 text with
  | .ok t => .ok t
  | .error _ => .error "bad time"

def stampFormat : AllocFormat Bytes :=
  { unmarshal := .ok, timestamp := id, parseTime := parseStamp }

theorem logReaders_runToEnd_iff_three_records :
    RunsToEnd (DebugAllocRecordReader.read stampFormat) 1
      [newDebugAllocRecordReader (ascii "1\n2\n3\n")] := by
  have htimes : ((newDebugAllocRecordReader (ascii "1\n2\n3\n")).records stampFormat).map
      Prod.fst = [1, 2, 3] := by
    decide +kernel
  have hlen := congrArg List.length htimes
  rw [List.length_map] at hlen
  refine ((logReaders_runToEnd_iff 1 id parseStamp stampFormat 0 (fun _ => ⟨id, fun _ => .refl _⟩)
    fun e => e.mesg).2.1 _ (List.forall_mem_singleton.mpr ⟨⟨rfl, rfl, ?_⟩, ?_⟩)).mpr ?_
  · exact fun line _ _ => ⟨line, rfl⟩
  · rw [htimes]
    exact ⟨by decide, by decide⟩
  · refine List.forall_mem_singleton.mpr fun hfills => ?_
    rw [hlen] at hfills
    revert hfills
    decide

theorem logReaders_panic :
    (newTSMerger [newHostStatsReader ⟨ascii "1\n2\n", false⟩]).drain
        (HostStatsReader.read id parseStamp) 1 10 10 =
      .error (.panic ("called CurData on last entry but haven't seen EOF, " ++
        "should call ReadIfNeeded first")) ∧
    (newTSMerger [newDebugAllocRecordReader (ascii "1\n")]).drain
        (DebugAllocRecordReader.read stampFormat) 1 10 10 =
      .error (.panic ("called CurData on last entry but haven't seen EOF, " ++
        "should call ReadIfNeeded first")) := by
  decide +kernel

end Merging

end Proc
end HeypAgents
