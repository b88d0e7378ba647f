import HeypAgents.Lib.SortedRuns
import HeypAgents.Lib.StreamMerge
import Mathlib.Algebra.Order.Ring.Int

/-!
# Merging time series

`TSMerger` merges the records of several readers by rounded time.  Each reader has a buffer
of 64 entries, which is refilled when only its last entry is left; that entry is carried over
so that later records with the same rounded time can replace it.

Times are nanoseconds since the zero time.  What a buffer and its reader will deliver is a
stream, and a merger whose readers deliver given streams is shown to compute the merge of these
streams.
-/

namespace HeypAgents
namespace Proc

variable {D ρ : Type}

/-- `Time.Round`: to the nearest multiple of the precision, up if both are as near. -/
def roundTime (precision t : ℤ) : ℤ :=
  if precision ≤ 0 then t
  else
    let r := t % precision
    if r + r < precision then t - r else t + (precision - r)

inductive Failure where
  | panic (mesg : String)
  | outOfFuel
deriving DecidableEq, Repr

/-- The error result of a `Read`; `outOfFuel` stands for a call that is still running. -/
inductive ReadStatus where
  | ok
  | eof
  | failed (e : String)
  | outOfFuel
deriving DecidableEq, Repr

/-- `Read` into slices of the given length: the entries, the error and the reader afterwards. -/
abbrev TSBatchReader (ρ D : Type) := ρ → ℕ → List (ℤ × D) × ReadStatus × ρ

/-- The buffer of a batch; `entries` are the first `num` times and data. -/
structure Buf (D : Type) where
  entries : List (ℤ × D) := []
  i : ℕ := 0
  sawEOF : Bool := false
deriving DecidableEq, Repr

/-- One iteration of the loop that drops entries with the same time as the next one; the
second component is the number of entries kept. -/
def dedupStep (s : List (ℤ × D) × ℕ) (i : ℕ) : Option (List (ℤ × D) × ℕ) := do
  let next ← s.1[i]?
  if s.2 = 0 then
    return (s.1.set 0 next, 1)
  else
    let prev ← s.1[s.2 - 1]?
    if prev.1 = next.1 then
      return (s.1.set (s.2 - 1) next, s.2)
    else
      let _ ← s.1[s.2]?
      return (s.1.set s.2 next, s.2 + 1)

def dedup (entries : List (ℤ × D)) : Option (List (ℤ × D)) :=
  ((List.range entries.length).foldlM dedupStep (entries, 0)).map fun s => s.1.take s.2

/-- The last entry of each run of equal times. -/
def lastPerTime (entries : List (ℤ × D)) : List (ℤ × D) :=
  SortedRuns.mergeRuns Prod.fst (fun _ y => y) entries

theorem dedupStep_succ (xs : List (ℤ × D)) (last i : ℕ) :
    dedupStep (xs, last + 1) i =
      (SortedRuns.compactStep Prod.fst (fun _ y => y) (xs, last) i).map
        fun s => (s.1, s.2 + 1) := by
  simp only [dedupStep, SortedRuns.compactStep, Nat.add_one_ne_zero, if_false, Nat.add_sub_cancel]
  cases xs[i]? with
  | none => rfl
  | some next =>
    cases xs[last]? with
    | none => rfl
    | some prev =>
      simp only [Option.bind_eq_bind, Option.bind_some, eq_comm]
      split_ifs
      · rfl
      · cases xs[last + 1]? <;> rfl

theorem dedupStep_foldlM (is : List ℕ) (xs : List (ℤ × D)) (last : ℕ) :
    is.foldlM dedupStep (xs, last + 1) =
      (is.foldlM (SortedRuns.compactStep Prod.fst fun _ y => y) (xs, last)).map
        fun s => (s.1, s.2 + 1) := by
  induction is generalizing xs last with
  | nil => rfl
  | cons i is ih =>
    rw [List.foldlM_cons, List.foldlM_cons, dedupStep_succ]
    cases SortedRuns.compactStep Prod.fst (fun _ y => y) (xs, last) i with
    | none => rfl
    | some s => exact ih s.1 s.2

theorem dedup_eq (entries : List (ℤ × D)) : dedup entries = some (lastPerTime entries) := by
  cases entries with
  | nil => rfl
  | cons x xs =>
    obtain ⟨ys, last, hrun, htake⟩ :=
      @SortedRuns.compact_eq _ _ _ Prod.fst (fun _ y => y) (x :: xs) (List.cons_ne_nil x xs)
    have hrange : List.range (x :: xs).length = 0 :: List.range' 1 ((x :: xs).length - 1) := by
      rw [List.range_eq_range']
      rfl
    have hfirst : dedupStep (x :: xs, 0) 0 = some (x :: xs, 1) := rfl
    rw [dedup, hrange, List.foldlM_cons, hfirst, Option.bind_eq_bind, Option.bind_some,
      dedupStep_foldlM, hrun]
    exact congrArg some htake

namespace Buf

def num (b : Buf D) : ℕ := b.entries.length

/-- The entry that is carried over. -/
def carry (b : Buf D) : Except Failure (List (ℤ × D)) :=
  if 0 < b.num then
    if b.num = b.i + 1 then .ok b.entries[b.i]?.toList
    else .error (.panic s!"impossible state: num = {b.num} but i = {b.i}")
  else .ok []

/-- `ReadIfNeeded`, and the error it sets. -/
def readIfNeeded (read : TSBatchReader ρ D) (precision : ℤ) (readerID : ℕ) (b : Buf D) (r : ρ) :
    Except Failure (Buf D × ρ × Option String) :=
  if b.i + 1 < b.num then .ok (b, r, none)
  else if b.sawEOF then .ok (b, r, none)
  else do
    let start ← b.carry
    let (recs, status, r') := read r (64 - start.length)
    match status with
    -- the buffer is not read again after an error
    | .failed e => .ok (b, r', some s!"failure in reader {readerID}: {e}")
    | .outOfFuel => .error .outOfFuel
    | _ =>
      match dedup ((start ++ recs).map fun x => (roundTime precision x.1, x.2)) with
      | none => .error (.panic "index out of range")
      | some entries => .ok ({ entries := entries, i := 0, sawEOF := status == .eof }, r', none)

/-- The entry at the index, after `checkIndex`. -/
def current (b : Buf D) : Except Failure (ℤ × D) :=
  if b.num ≤ b.i + 1 then
    if b.i + 1 = b.num then
      if !b.sawEOF then
        .error (.panic ("called CurData on last entry but haven't seen EOF, " ++
          "should call ReadIfNeeded first"))
      else
        match b.entries[b.i]? with
        | some x => .ok x
        | none => .error (.panic "index out of range")
    else .error (.panic "i >= num")
  else
    match b.entries[b.i]? with
    | some x => .ok x
    | none => .error (.panic "index out of range")

def curTime (b : Buf D) : Except Failure ℤ := b.current.map Prod.fst

def curData (b : Buf D) : Except Failure D := b.current.map Prod.snd

def advance (b : Buf D) : Buf D := { b with i := b.i + 1 }

def done (b : Buf D) : Bool := b.num ≤ b.i && b.sawEOF

end Buf

structure TsBatch (D : Type) where
  buf : Buf D := {}
  last : Option D := none

structure TSMerger (ρ D : Type) where
  cur : List (TsBatch D × ρ)
  err : Option String := none

def newTSMerger (readers : List ρ) : TSMerger ρ D := { cur := readers.map fun r => ({}, r) }

section Next

variable (read : TSBatchReader ρ D) (precision : ℤ)

/-- `ReadIfNeeded` on the batches in order, up to the first error or the first batch that is
done; whether there is one, and the error. -/
def readAll : ℕ → List (TsBatch D × ρ) →
    Except Failure (List (TsBatch D × ρ) × Bool × Option String)
  | _, [] => .ok ([], false, none)
  | readerID, (b, r) :: rest => do
      let (buf, r', err) ← b.buf.readIfNeeded read precision readerID r
      if err.isSome || buf.done then .ok (({ b with buf := buf }, r') :: rest, true, err)
      else
        let (rest', stopped, err) ← readAll (readerID + 1) rest
        .ok (({ b with buf := buf }, r') :: rest', stopped, err)

def minStep (minTime : ℤ) (c : TsBatch D × ρ) : Except Failure ℤ := do
  let t ← c.1.buf.curTime
  return if t < minTime then t else minTime

/-- The smallest current time. -/
def minTime : List (TsBatch D × ρ) → Except Failure ℤ
  | [] => .error (.panic "index out of range")
  | c :: cur => do
      let first ← c.1.buf.curTime
      (c :: cur).foldlM minStep first

/-- Take the entry of the batch if it has the time `t`. -/
def takeAt (t : ℤ) (c : TsBatch D × ρ) : Except Failure (TsBatch D × ρ) := do
  let time ← c.1.buf.curTime
  if time = t then
    let data ← c.1.buf.curData
    return ({ buf := c.1.buf.advance, last := some data }, c.2)
  else return c

/-- `Next`: the merger afterwards and, if it returns true, the time and the data. -/
def TSMerger.next : ℕ → TSMerger ρ D → Except Failure (TSMerger ρ D × Option (ℤ × List D))
  | 0, _ => .error .outOfFuel
  | fuel + 1, m =>
    if m.cur.length < 1 then .ok (m, none)
    else if m.err.isSome then .ok (m, none)
    else do
      let (cur, stopped, err) ← readAll read precision 0 m.cur
      if stopped then .ok ({ cur := cur, err := err }, none)
      else
        let t ← minTime cur
        let cur ← cur.mapM (takeAt t)
        match cur.mapM fun c => c.1.last with
        | some data => .ok ({ m with cur := cur }, some (t, data))
        | none => TSMerger.next fuel { m with cur := cur }

/-- Call `Next` until it returns false, at most `calls` times; the rows and `Err`. -/
def TSMerger.drain (fuel : ℕ) :
    ℕ → TSMerger ρ D → Except Failure (List (ℤ × List D) × Option String)
  | 0, _ => .error .outOfFuel
  | calls + 1, m => do
      let (m', result) ← TSMerger.next read precision fuel m
      match result with
      | none => .ok ([], m'.err)
      | some row =>
        let (rows, err) ← TSMerger.drain fuel calls m'
        .ok (row :: rows, err)

end Next

section Streams

variable (read : TSBatchReader ρ D) (precision : ℤ)

/-- After `ReadIfNeeded` the buffer is at the first of the given entries and will deliver the
others; then it is done or stuck at an entry it must not return. -/
def Ready (stuck : Bool) : List (ℤ × D) → Buf D → ρ → Prop
  | [], b, _ => b.done = !stuck ∧ (stuck = true → ∃ mesg, b.current = .error (.panic mesg))
  | x :: rest, b, r => b.current = .ok x ∧
      ∃ b' r', (∀ readerID, b.advance.readIfNeeded read precision readerID r = .ok (b', r', none)) ∧
        Ready stuck rest b' r'

/-- The buffer will deliver the given entries. -/
def Delivers (stuck : Bool) (entries : List (ℤ × D)) (b : Buf D) (r : ρ) : Prop :=
  ∃ b' r', (∀ readerID, b.readIfNeeded read precision readerID r = .ok (b', r', none)) ∧
    Ready read precision stuck entries b' r'

def Carries (c : TsBatch D × ρ) (s : StreamMerge.Stream ℤ D) : Prop :=
  c.1.last = s.last ∧ Delivers read precision s.stuck s.entries c.1.buf c.2

def AtHead (c : TsBatch D × ρ) (s : StreamMerge.Stream ℤ D) : Prop :=
  c.1.last = s.last ∧ Ready read precision s.stuck s.entries c.1.buf c.2

end Streams

section Batch

variable {read : TSBatchReader ρ D} {precision : ℤ} {stuck : Bool} {b : Buf D} {r : ρ}
  {x : ℤ × D} {rest : List (ℤ × D)}

theorem Buf.current_eq_ok (h : b.current = .ok x) :
    b.entries[b.i]? = some x ∧ (b.i + 1 < b.num ∨ b.sawEOF = true) := by
  unfold Buf.current at h
  split_ifs at h with hnum hlast heof
  · split at h
    · rename_i hx
      exact ⟨hx.trans (congrArg some (Except.ok.inj h)), .inr (by simpa using heof)⟩
    · cases h
  · split at h
    · rename_i hx
      exact ⟨hx.trans (congrArg some (Except.ok.inj h)), .inl (not_le.mp hnum)⟩
    · cases h

theorem Buf.done_of_current (h : b.current = .ok x) : b.done = false := by
  obtain ⟨hx, -⟩ := Buf.current_eq_ok h
  obtain ⟨hlt, -⟩ := List.getElem?_eq_some_iff.mp hx
  simp [Buf.done, Buf.num, not_le.mpr hlt]

theorem Buf.readIfNeeded_of_current (h : b.current = .ok x) (readerID : ℕ) :
    b.readIfNeeded read precision readerID r = .ok (b, r, none) := by
  obtain ⟨-, hlt | heof⟩ := Buf.current_eq_ok h
  · rw [Buf.readIfNeeded, if_pos hlt]
  · rw [Buf.readIfNeeded, if_pos heof, ite_self]

theorem Ready.delivers (h : Ready read precision stuck (x :: rest) b r) :
    Delivers read precision stuck (x :: rest) b r :=
  ⟨b, r, Buf.readIfNeeded_of_current h.1, h⟩

end Batch

section Pass

variable {read : TSBatchReader ρ D} {precision : ℤ} {cs : List (TsBatch D × ρ)}
  {ss : List (StreamMerge.Stream ℤ D)} {t : ℤ}

theorem readAll_ended (h : List.Forall₂ (Carries read precision) cs ss)
    (hended : ∃ s ∈ ss, s.Ended) (readerID : ℕ) :
    ∃ cs', readAll read precision readerID cs = .ok (cs', true, none) := by
  induction h generalizing readerID with
  | nil => simp at hended
  | @cons c s cs ss hc hcs ih =>
    obtain ⟨-, b', r', hread, hready⟩ := hc
    rw [readAll, hread]
    by_cases hdone : b'.done = true
    · refine ⟨({ c.1 with buf := b' }, r') :: cs, ?_⟩
      simp [hdone, bind, Except.bind]
    · have hs : ¬ s.Ended := by
        rintro ⟨hempty, hstuck⟩
        rw [hempty, hstuck] at hready
        exact hdone hready.1
      obtain ⟨cs', hrest⟩ := ih (by
        obtain ⟨q, hq, hq'⟩ := hended
        rcases List.mem_cons.mp hq with rfl | hq
        · exact absurd hq' hs
        · exact ⟨q, hq, hq'⟩) (readerID + 1)
      refine ⟨({ c.1 with buf := b' }, r') :: cs', ?_⟩
      simp [hdone, hrest, bind, Except.bind]

variable {s : StreamMerge.Stream ℤ D}

theorem Ready.not_done {b : Buf D} {r : ρ} (hs : ¬ s.Ended)
    (h : Ready read precision s.stuck s.entries b r) : b.done = false := by
  cases hentries : s.entries with
  | nil =>
    have hstuck := StreamMerge.Stream.stuck_of_not_ended hs hentries
    rw [hentries, hstuck] at h
    exact h.1
  | cons x rest =>
    rw [hentries] at h
    exact Buf.done_of_current h.1

theorem readAll_atHead (h : List.Forall₂ (Carries read precision) cs ss)
    (hnot : ∀ s ∈ ss, ¬ s.Ended) (readerID : ℕ) :
    ∃ cs', readAll read precision readerID cs = .ok (cs', false, none) ∧
      List.Forall₂ (AtHead read precision) cs' ss := by
  induction h generalizing readerID with
  | nil => exact ⟨[], rfl, .nil⟩
  | @cons c s cs ss hc hcs ih =>
    obtain ⟨hlast, b', r', hread, hready⟩ := hc
    obtain ⟨cs', hrest, hcs'⟩ :=
      ih (fun q hq => hnot q (List.mem_cons_of_mem s hq)) (readerID + 1)
    have hdone := hready.not_done (hnot s List.mem_cons_self)
    refine ⟨({ c.1 with buf := b' }, r') :: cs', ?_, .cons ⟨hlast, hready⟩ hcs'⟩
    rw [readAll, hread]
    simp [hdone, hrest, bind, Except.bind]

variable {c : TsBatch D × ρ}

theorem curTime_of_atHead {x : ℤ × D}
    {rest : List (ℤ × D)} (h : AtHead read precision c s) (hs : s.entries = x :: rest) :
    c.1.buf.curTime = .ok x.1 ∧ c.1.buf.curData = .ok x.2 := by
  have hready := h.2
  rw [hs] at hready
  rw [Buf.curTime, Buf.curData, hready.1]
  exact ⟨rfl, rfl⟩

theorem foldlM_minStep (h : List.Forall₂ (AtHead read precision) cs ss) {m : ℤ}
    (hall : ∀ s ∈ ss, StreamMerge.Ahead t s) (hm : t ≤ m)
    (hmem : m = t ∨ ∃ s ∈ ss, ∃ x rest, s.entries = x :: rest ∧ x.1 = t) :
    cs.foldlM minStep m = .ok t := by
  induction h generalizing m with
  | nil =>
    rcases hmem with rfl | ⟨s, hs, -⟩
    · rfl
    · cases hs
  | @cons c s cs ss hc hcs ih =>
    obtain ⟨x, rest, hentries, hle⟩ := hall s List.mem_cons_self
    have hstep : minStep m c = .ok (if x.1 < m then x.1 else m) := by
      rw [minStep, (curTime_of_atHead hc hentries).1]
      rfl
    rw [List.foldlM_cons, hstep]
    refine ih (fun q hq => hall q (List.mem_cons_of_mem s hq)) ?_ ?_
    · split_ifs <;> assumption
    · rcases hmem with rfl | ⟨q, hq, y, rest', hy, hyt⟩
      · exact .inl (if_neg (not_lt.mpr hle))
      · rcases List.mem_cons.mp hq with rfl | hq
        · obtain ⟨rfl, rfl⟩ := List.cons.inj (hentries.symm.trans hy)
          refine .inl ?_
          split_ifs <;> omega
        · exact .inr ⟨q, hq, y, rest', hy, hyt⟩

theorem minTime_of_isNext (h : List.Forall₂ (AtHead read precision) cs ss)
    (hnext : StreamMerge.IsNext t ss) : minTime cs = .ok t := by
  cases h with
  | nil => simp [StreamMerge.IsNext] at hnext
  | @cons c s cs ss hc hcs =>
    obtain ⟨x, rest, hentries, hle⟩ := hnext.2 s List.mem_cons_self
    rw [minTime, (curTime_of_atHead hc hentries).1]
    exact foldlM_minStep (.cons hc hcs) hnext.2 hle (.inr hnext.1)

theorem curTime_cases (h : AtHead read precision c s) (hs : ¬ s.Ended) :
    (∃ u, c.1.buf.curTime = .ok u) ∧ s.entries ≠ [] ∨
      ∃ mesg, c.1.buf.curTime = .error (.panic mesg) := by
  cases hentries : s.entries with
  | nil =>
    have hstuck := StreamMerge.Stream.stuck_of_not_ended hs hentries
    have hready := h.2
    rw [hentries] at hready
    obtain ⟨mesg, hmesg⟩ := hready.2 hstuck
    exact .inr ⟨mesg, by rw [Buf.curTime, hmesg]; rfl⟩
  | cons x rest => exact .inl ⟨⟨x.1, (curTime_of_atHead h hentries).1⟩, List.cons_ne_nil x rest⟩

theorem foldlM_minStep_stuck (h : List.Forall₂ (AtHead read precision) cs ss) (m : ℤ)
    (hnot : ∀ s ∈ ss, ¬ s.Ended) (hempty : ∃ s ∈ ss, s.entries = []) :
    ∃ mesg, cs.foldlM minStep m = .error (.panic mesg) := by
  induction h generalizing m with
  | nil => simp at hempty
  | @cons c s cs ss hc hcs ih =>
    rw [List.foldlM_cons]
    rcases curTime_cases hc (hnot s List.mem_cons_self) with ⟨⟨u, hu⟩, hne⟩ | ⟨mesg, hmesg⟩
    · have hstep : minStep m c = .ok (if u < m then u else m) := by
        rw [minStep, hu]
        rfl
      rw [hstep]
      refine ih _ (fun q hq => hnot q (List.mem_cons_of_mem s hq)) ?_
      obtain ⟨q, hq, hq'⟩ := hempty
      rcases List.mem_cons.mp hq with rfl | hq
      · exact absurd hq' hne
      · exact ⟨q, hq, hq'⟩
    · exact ⟨mesg, by rw [minStep, hmesg]; rfl⟩

theorem minTime_stuck (h : List.Forall₂ (AtHead read precision) cs ss)
    (hnot : ∀ s ∈ ss, ¬ s.Ended) (hempty : ∃ s ∈ ss, s.entries = []) :
    ∃ mesg, minTime cs = .error (.panic mesg) := by
  cases h with
  | nil => simp at hempty
  | @cons c s cs ss hc hcs =>
    rw [minTime]
    rcases curTime_cases hc (hnot s List.mem_cons_self) with ⟨⟨u, hu⟩, -⟩ | ⟨mesg, hmesg⟩
    · rw [hu]
      exact foldlM_minStep_stuck (.cons hc hcs) u hnot hempty
    · exact ⟨mesg, by rw [hmesg]; rfl⟩

theorem takeAt_carries (h : AtHead read precision c s) (hs : s.entries ≠ []) :
    ∃ c', takeAt t c = .ok c' ∧ Carries read precision c' (s.pop t) := by
  obtain ⟨x, rest, hentries⟩ := List.exists_cons_of_ne_nil hs
  obtain ⟨htime, hdata⟩ := curTime_of_atHead h hentries
  obtain ⟨hlast, hready⟩ := h
  rw [hentries] at hready
  by_cases hx : x.1 = t
  · refine ⟨({ buf := c.1.buf.advance, last := some x.2 }, c.2), ?_, ?_⟩
    · rw [takeAt, htime, hdata]
      simp [hx, bind, Except.bind, pure, Except.pure]
    · have hpop : s.pop t = { s with entries := rest, last := some x.2 } := by
        simp [StreamMerge.Stream.pop, hentries, hx]
      rw [hpop]
      exact ⟨rfl, hready.2⟩
  · refine ⟨c, ?_, ?_⟩
    · rw [takeAt, htime]
      simp [hx, bind, Except.bind, pure, Except.pure]
    · have hpop : s.pop t = s := by simp [StreamMerge.Stream.pop, hentries, hx]
      rw [hpop]
      exact ⟨hlast, hentries ▸ hready.delivers⟩

theorem mapM_takeAt (h : List.Forall₂ (AtHead read precision) cs ss)
    (hall : ∀ s ∈ ss, s.entries ≠ []) :
    ∃ cs', cs.mapM (takeAt t) = .ok cs' ∧
      List.Forall₂ (Carries read precision) cs' (ss.map (StreamMerge.Stream.pop t)) := by
  induction h with
  | nil => exact ⟨[], rfl, .nil⟩
  | @cons c s cs ss hc hcs ih =>
    obtain ⟨c', hc', hcarries⟩ := takeAt_carries hc (hall s List.mem_cons_self)
    obtain ⟨cs', hcs', hrest⟩ := ih fun q hq => hall q (List.mem_cons_of_mem s hq)
    refine ⟨c' :: cs', ?_, .cons hcarries hrest⟩
    rw [List.mapM_cons, hc', hcs']
    rfl

theorem mapM_last (h : List.Forall₂ (Carries read precision) cs ss) :
    (cs.mapM fun c => c.1.last) = StreamMerge.row ss := by
  unfold StreamMerge.row
  induction h with
  | nil => rfl
  | @cons c s cs ss hc hcs ih => rw [List.mapM_cons, List.mapM_cons, hc.1, ih]

end Pass

section Run

variable {read : TSBatchReader ρ D} {precision : ℤ} {ss : List (StreamMerge.Stream ℤ D)}
  {m : TSMerger ρ D} {t : ℤ} {rows : List (ℤ × List D)} {stuck : Bool}

structure TSMerger.Merges (read : TSBatchReader ρ D) (precision : ℤ) (m : TSMerger ρ D)
    (ss : List (StreamMerge.Stream ℤ D)) : Prop where
  err : m.err = none
  cur : List.Forall₂ (Carries read precision) m.cur ss

namespace TSMerger

theorem Merges.cur_ne_nil (h : m.Merges read precision ss) (hss : ss ≠ []) :
    ¬ m.cur.length < 1 := by
  rw [h.cur.length_eq]
  have := List.length_pos_iff.mpr hss
  omega

theorem Merges.next_ended (h : m.Merges read precision ss) (hended : ∃ s ∈ ss, s.Ended) :
    ∃ m' : TSMerger ρ D, m'.err = none ∧
      ∀ fuel, m.next read precision (fuel + 1) = .ok (m', none) := by
  obtain ⟨s, hs, -⟩ := id hended
  obtain ⟨cs', hread⟩ := readAll_ended h.cur hended 0
  refine ⟨{ cur := cs', err := none }, rfl, fun fuel => ?_⟩
  rw [next, if_neg (h.cur_ne_nil (List.ne_nil_of_mem hs)), h.err, hread]
  rfl

theorem Merges.next_stuck (h : m.Merges read precision ss) (hnot : ∀ s ∈ ss, ¬ s.Ended)
    (hempty : ∃ s ∈ ss, s.entries = []) :
    ∃ mesg, ∀ fuel, m.next read precision (fuel + 1) = .error (.panic mesg) := by
  obtain ⟨s, hs, -⟩ := id hempty
  obtain ⟨cs', hread, hheads⟩ := readAll_atHead h.cur hnot 0
  obtain ⟨mesg, hmin⟩ := minTime_stuck hheads hnot hempty
  refine ⟨mesg, fun fuel => ?_⟩
  rw [next, if_neg (h.cur_ne_nil (List.ne_nil_of_mem hs)), h.err, hread]
  simp [hmin, bind, Except.bind]

theorem Merges.next_pass (h : m.Merges read precision ss) (hnext : StreamMerge.IsNext t ss) :
    ∃ m' : TSMerger ρ D, m'.Merges read precision (ss.map (StreamMerge.Stream.pop t)) ∧
      ∀ fuel, m.next read precision (fuel + 1) =
        match StreamMerge.row (ss.map (StreamMerge.Stream.pop t)) with
        | some data => .ok (m', some (t, data))
        | none => m'.next read precision fuel := by
  have hne : ∀ s ∈ ss, s.entries ≠ [] := by
    intro s hs hempty
    obtain ⟨x, rest, hentries, -⟩ := hnext.2 s hs
    simp [hempty] at hentries
  obtain ⟨s, hs, -⟩ := hnext.1
  obtain ⟨cs', hread, hheads⟩ := readAll_atHead h.cur (fun s hs hended => hne s hs hended.1) 0
  obtain ⟨cs'', htake, hcarries⟩ := @mapM_takeAt _ _ _ _ _ _ t hheads hne
  refine ⟨{ m with cur := cs'' }, ⟨h.err, hcarries⟩, fun fuel => ?_⟩
  rw [next, if_neg (h.cur_ne_nil (List.ne_nil_of_mem hs)), h.err, hread]
  simp only [Option.isSome_none, Bool.false_eq_true, if_false, bind, Except.bind,
    minTime_of_isNext hheads hnext, htake, mapM_last hcarries]

theorem next_fuel (h : StreamMerge.Run ss rows stuck) (hm : m.Merges read precision ss)
    {fuel fuel' : ℕ} (hfuel : StreamMerge.total ss ≤ fuel) (hfuel' : StreamMerge.total ss ≤ fuel') :
    m.next read precision (fuel + 1) = m.next read precision (fuel' + 1) := by
  induction h generalizing m fuel fuel' with
  | empty =>
    have hcur : m.cur = [] := List.forall₂_nil_right_iff.mp hm.cur
    simp [next, hcur]
  | ended hended =>
    obtain ⟨m', -, hnext⟩ := hm.next_ended hended
    rw [hnext, hnext]
  | stuck hnot hempty =>
    obtain ⟨mesg, hnext⟩ := hm.next_stuck hnot hempty
    rw [hnext, hnext]
  | @pass ss t rows stuck hnext hrest ih =>
    obtain ⟨m', hm', hpass⟩ := hm.next_pass hnext
    have hlt := StreamMerge.total_pop_lt hnext.1
    rw [hpass fuel, hpass fuel']
    cases StreamMerge.row (ss.map (StreamMerge.Stream.pop t)) with
    | some data => rfl
    | none =>
      obtain ⟨fuel, rfl⟩ := Nat.exists_eq_add_one_of_ne_zero (show fuel ≠ 0 by omega)
      obtain ⟨fuel', rfl⟩ := Nat.exists_eq_add_one_of_ne_zero (show fuel' ≠ 0 by omega)
      exact @ih m' hm' fuel fuel' (by omega) (by omega)

def Outcome (rows : List (ℤ × List D)) (stuck : Bool)
    (result : Except Failure (List (ℤ × List D) × Option String)) : Prop :=
  match stuck with
  | false => result = .ok (rows, none)
  | true => ∃ mesg, result = .error (.panic mesg)

/-- The merger computes the merge of the streams its readers deliver. -/
theorem drain_outcome (h : StreamMerge.Run ss rows stuck) (hm : m.Merges read precision ss)
    {fuel calls : ℕ} (hfuel : StreamMerge.total ss ≤ fuel) (hcalls : StreamMerge.total ss ≤ calls) :
    Outcome rows stuck (m.drain read precision (fuel + 1) (calls + 1)) := by
  induction h generalizing m fuel calls with
  | empty =>
    have hcur : m.cur = [] := List.forall₂_nil_right_iff.mp hm.cur
    simp [Outcome, drain, next, hcur, hm.err, bind, Except.bind]
  | ended hended =>
    obtain ⟨m', herr, hnext⟩ := hm.next_ended hended
    simp [Outcome, drain, hnext, herr, bind, Except.bind]
  | stuck hnot hempty =>
    obtain ⟨mesg, hnext⟩ := hm.next_stuck hnot hempty
    exact ⟨mesg, by simp [drain, hnext, bind, Except.bind]⟩
  | @pass ss t rows stuck hnext hrest ih =>
    obtain ⟨m', hm', hpass⟩ := hm.next_pass hnext
    have hlt := StreamMerge.total_pop_lt hnext.1
    unfold StreamMerge.emit
    cases hrow : StreamMerge.row (ss.map (StreamMerge.Stream.pop t)) with
    | some data =>
      obtain ⟨calls, rfl⟩ := Nat.exists_eq_add_one_of_ne_zero (show calls ≠ 0 by omega)
      have hrest := @ih m' hm' fuel calls (by omega) (by omega)
      rw [drain, hpass fuel, hrow]
      cases stuck with
      | false =>
        simp only [Outcome] at hrest ⊢
        simp [hrest, bind, Except.bind]
      | true =>
        obtain ⟨mesg, hrest⟩ := hrest
        exact ⟨mesg, by simp [hrest, bind, Except.bind]⟩
    | none =>
      -- the pass goes on inside the same call
      obtain ⟨fuel, rfl⟩ := Nat.exists_eq_add_one_of_ne_zero (show fuel ≠ 0 by omega)
      have hsame : m.next read precision (fuel + 2) = m'.next read precision (fuel + 2) := by
        rw [hpass, hrow]
        exact next_fuel hrest hm' (by omega) (by omega)
      have hdrain : m.drain read precision (fuel + 2) (calls + 1) =
          m'.drain read precision (fuel + 2) (calls + 1) := by
        rw [drain, drain, hsame]
      rw [hdrain]
      exact @ih m' hm' (fuel + 1) calls (by omega) (by omega)

end TSMerger

end Run

section Blocks

/-- The entries with rounded times. -/
def rounded (precision : ℤ) (entries : List (ℤ × D)) : List (ℤ × D) :=
  entries.map fun x => (roundTime precision x.1, x.2)

/-- What a reader delivers after the carried entry, block by block: the last entry of a block
opens the next one, and a block of one entry that does not end the data gets stuck. -/
inductive View (read : TSBatchReader ρ D) (precision : ℤ) :
    List (ℤ × D) → ρ → List (ℤ × D) → Bool → Prop
  | ends {start recs : List (ℤ × D)} {r r' : ρ}
      (hread : read r (64 - start.length) = (recs, .eof, r')) :
      View read precision start r (lastPerTime (rounded precision (start ++ recs))) false
  | stuck {start recs : List (ℤ × D)} {r r' : ρ}
      (hread : read r (64 - start.length) = (recs, .ok, r'))
      (hone : (lastPerTime (rounded precision (start ++ recs))).length ≤ 1) :
      View read precision start r [] true
  | block {start recs first rest : List (ℤ × D)} {r r' : ρ} {c : ℤ × D} {stuck : Bool}
      (hread : read r (64 - start.length) = (recs, .ok, r'))
      (hblock : lastPerTime (rounded precision (start ++ recs)) = first ++ [c])
      (hne : first ≠ []) (hrest : View read precision [c] r' rest stuck) :
      View read precision start r (first ++ rest) stuck

variable {read : TSBatchReader ρ D} {precision : ℤ} {b : Buf D} {r r' : ρ}
  {start recs rest : List (ℤ × D)} {stuck : Bool}

theorem Buf.readIfNeeded_refill (hi : b.num ≤ b.i + 1) (heof : b.sawEOF = false)
    (hcarry : b.carry = .ok start) {status : ReadStatus}
    (hread : read r (64 - start.length) = (recs, status, r')) (hstatus : status ∈ [.ok, .eof])
    (readerID : ℕ) :
    b.readIfNeeded read precision readerID r =
      .ok ({ entries := lastPerTime (rounded precision (start ++ recs)), i := 0,
             sawEOF := status == .eof }, r', none) := by
  rw [Buf.readIfNeeded, if_neg (not_lt.mpr hi), if_neg (by simp [heof]), hcarry]
  simp only [bind, Except.bind, hread]
  cases status with
  | failed e => simp at hstatus
  | outOfFuel => simp at hstatus
  | ok =>
    simp only [dedup_eq]
    rfl
  | eof =>
    simp only [dedup_eq]
    rfl

theorem ready_of_sawEOF {entries rest : List (ℤ × D)} {i : ℕ} (h : entries.drop i = rest) :
    Ready read precision false rest { entries := entries, i := i, sawEOF := true } r := by
  induction rest generalizing i with
  | nil =>
    have hle : entries.length ≤ i := List.drop_eq_nil_iff.mp h
    exact ⟨by simp [Buf.done, Buf.num, hle], nofun⟩
  | cons x rest ih =>
    have hx : entries[i]? = some x := by
      rw [← List.head?_drop, h]
      rfl
    have hlt : i < entries.length := (List.getElem?_eq_some_iff.mp hx).1
    have hrest : entries.drop (i + 1) = rest := by
      rw [← List.tail_drop, h]
      rfl
    refine ⟨?_, { entries := entries, i := i + 1, sawEOF := true }, r, fun readerID => ?_,
      ih hrest⟩
    · unfold Buf.current Buf.num
      simp only [hx, Bool.not_true, Bool.false_eq_true, if_false]
      split_ifs
      · rfl
      · omega
      · rfl
    · simp [Buf.advance, Buf.readIfNeeded]

theorem ready_of_block {entries post rest : List (ℤ × D)} {c : ℤ × D} {i : ℕ}
    (h : entries.drop i = post ++ [c]) (hne : post ≠ [])
    (hrest : Delivers read precision stuck rest
      { entries := entries, i := i + post.length, sawEOF := false } r) :
    Ready read precision stuck (post ++ rest)
      { entries := entries, i := i, sawEOF := false } r := by
  induction post generalizing i with
  | nil => exact absurd rfl hne
  | cons x post ih =>
    have hlen : entries.length - i = post.length + 2 := by
      simpa using congrArg List.length h
    have hx : entries[i]? = some x := by
      rw [← List.head?_drop, h]
      rfl
    have hdrop : entries.drop (i + 1) = post ++ [c] := by
      rw [← List.tail_drop, h]
      rfl
    refine ⟨?_, ?_⟩
    · unfold Buf.current Buf.num
      simp only [hx]
      rw [if_neg (by omega)]
    · rw [List.length_cons, ← Nat.add_assoc, Nat.add_right_comm] at hrest
      cases post with
      | nil => exact hrest
      | cons y post =>
        refine ⟨{ entries := entries, i := i + 1, sawEOF := false }, r, fun readerID => ?_,
          ih hdrop (List.cons_ne_nil y post) hrest⟩
        have hlt : i + 1 + 1 < entries.length := by
          rw [List.length_cons] at hlen
          omega
        exact if_pos hlt

/-- A reader delivers its view. -/
theorem View.delivers (h : View read precision start r rest stuck) (hi : b.num ≤ b.i + 1)
    (heof : b.sawEOF = false) (hcarry : b.carry = .ok start) :
    Delivers read precision stuck rest b r := by
  induction h generalizing b with
  | ends hread =>
    exact ⟨_, _, Buf.readIfNeeded_refill hi heof hcarry hread (by simp), ready_of_sawEOF rfl⟩
  | @stuck start recs r r' hread hone =>
    refine ⟨_, _, Buf.readIfNeeded_refill hi heof hcarry hread (by simp), ?_, fun _ => ?_⟩
    · exact Bool.and_false _
    · unfold Buf.current Buf.num
      have hsaw : (ReadStatus.ok == ReadStatus.eof) = false := rfl
      simp only [hsaw, Bool.not_false, if_true]
      rw [if_pos (by simpa using hone)]
      split_ifs
      · exact ⟨_, rfl⟩
      · exact ⟨_, rfl⟩
  | @block start recs first rest r r' c stuck hread hblock hne hrest ih =>
    refine ⟨_, _, Buf.readIfNeeded_refill hi heof hcarry hread (by simp), ?_⟩
    rw [hblock]
    refine ready_of_block rfl hne (ih ?_ rfl ?_)
    · simp [Buf.num]
    · simp [Buf.carry, Buf.num]

variable {readers : List ρ}

theorem newTSMerger_merges {view : ρ → StreamMerge.Stream ℤ D}
    (h : ∀ r ∈ readers, (view r).last = none ∧
      View read precision [] r (view r).entries (view r).stuck) :
    (newTSMerger readers).Merges read precision (readers.map view) := by
  refine ⟨rfl, ?_⟩
  rw [newTSMerger, List.forall₂_map_left_iff, List.forall₂_map_right_iff, List.forall₂_same]
  intro r hr
  obtain ⟨hlast, hview⟩ := h r hr
  exact ⟨hlast.symm, hview.delivers (Nat.zero_le _) rfl rfl⟩

/-- `Next` returns false after finitely many calls, without a panic or an error. -/
def RunsToEnd (read : TSBatchReader ρ D) (precision : ℤ) (readers : List ρ) : Prop :=
  ∃ rows N, ∀ fuel calls, N ≤ fuel → N ≤ calls →
    (newTSMerger readers).drain read precision fuel calls = .ok (rows, none)

theorem runsToEnd_iff_of_outcome {rows : List (ℤ × List D)} {N : ℕ}
    (h : ∀ fuel calls, N ≤ fuel → N ≤ calls →
      TSMerger.Outcome rows stuck ((newTSMerger readers).drain read precision fuel calls)) :
    RunsToEnd read precision readers ↔ stuck = false := by
  cases stuck with
  | false => exact iff_of_true ⟨rows, N, h⟩ rfl
  | true =>
    refine iff_of_false ?_ nofun
    rintro ⟨rows', N', hok⟩
    obtain ⟨mesg, hpanic⟩ := h _ _ (le_max_left N N') (le_max_left N N')
    rw [hok _ _ (le_max_right N N') (le_max_right N N')] at hpanic
    cases hpanic

/-- Readers with known views are merged to the end of the merge of the views. -/
theorem drain_of_views {view : ρ → StreamMerge.Stream ℤ D}
    (h : ∀ r ∈ readers, (view r).last = none ∧
      View read precision [] r (view r).entries (view r).stuck) :
    ∃ rows stuck N, StreamMerge.Run (readers.map view) rows stuck ∧
      ∀ fuel calls, N ≤ fuel → N ≤ calls →
        TSMerger.Outcome rows stuck ((newTSMerger readers).drain read precision fuel calls) := by
  obtain ⟨rows, stuck, hrun⟩ := StreamMerge.exists_run (readers.map view)
  refine ⟨rows, stuck, StreamMerge.total (readers.map view) + 1, hrun, fun fuel calls hf hc => ?_⟩
  obtain ⟨fuel, rfl⟩ := Nat.exists_eq_add_one_of_ne_zero (show fuel ≠ 0 by omega)
  obtain ⟨calls, rfl⟩ := Nat.exists_eq_add_one_of_ne_zero (show calls ≠ 0 by omega)
  exact TSMerger.drain_outcome hrun (newTSMerger_merges h) (by omega) (by omega)

end Blocks

end Proc
end HeypAgents
