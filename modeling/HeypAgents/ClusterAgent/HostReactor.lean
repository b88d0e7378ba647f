import HeypAgents.Lib.Runs

/-!
# The reactor of a host's stream

`HostReactor` of `server.cc` serves the stream of one host agent.  Controller threads
hand it bundles with `UpdateAlloc`; gRPC completes its reads and writes with
`OnReadDone` and `OnWriteDone`.  Bundles are staged in one buffer while the other one
is being written.

The first part runs the calls one after the other, which is the granularity of their
critical sections.  The second part runs the two completions access by access: the
failure branch of `OnWriteDone` uses `finished_` without the mutex.
-/

namespace HeypAgents

/-- The buffers `b1_` and `b2_`. -/
inductive Buffer where
  | b1
  | b2
deriving DecidableEq, Repr

inductive FinishStatus where
  | ok
  | unknown (mesg : String)
deriving DecidableEq, Repr

/--
The members of the reactor, and its calls into gRPC: the writes that are not yet
completed, all bundles that were written, and the calls of `Finish`.
-/
structure HostReactor (β : Type) where
  buffers : Buffer → β
  stagedAlloc : Buffer := .b1
  wipWriteAlloc : Buffer := .b2
  wipWrite : Bool := false
  hasStaged : Bool := false
  finished : Bool := false
  /-- `lis_` is not null. -/
  lis : Bool := false
  outstanding : List Buffer := []
  started : List β := []
  finishCalls : List FinishStatus := []

namespace HostReactor

open Runs

variable {β : Type}

def create [Inhabited β] : HostReactor β where
  buffers _ := default

section Calls

variable (r : HostReactor β)

def startWrite (buffer : Buffer) : HostReactor β :=
  { r with
    outstanding := r.outstanding ++ [buffer]
    started := r.started ++ [r.buffers buffer] }

def finish (status : FinishStatus) : HostReactor β :=
  { r with finishCalls := r.finishCalls ++ [status] }

def sendAlloc : HostReactor β :=
  { r with
    stagedAlloc := r.wipWriteAlloc
    wipWriteAlloc := r.stagedAlloc
    wipWrite := true }.startWrite r.stagedAlloc

def stage (alloc : β) : HostReactor β :=
  { r with buffers := Function.update r.buffers r.stagedAlloc alloc }

def updateAlloc (alloc : β) : HostReactor β :=
  if !r.wipWrite && !r.finished then (r.stage alloc).sendAlloc
  else { r.stage alloc with hasStaged := true }

/-- The failed status of `OnWriteDone`. -/
def failedWrite : FinishStatus := .unknown "failed write"

/-- After a failure `wip_write_` is still true, which blocks all writes. -/
def onWriteDone (ok : Bool) : HostReactor β :=
  if !ok then
    { if r.finished then r else r.finish failedWrite with finished := true, lis := false }
  else if r.hasStaged && !r.finished then
    { r with wipWrite := false, hasStaged := false }.sendAlloc
  else { r with wipWrite := false }

def onReadDone (ok : Bool) : HostReactor β :=
  if r.finished then r
  else if !ok then { r.finish .ok with finished := true }
  else { r with lis := true }

end Calls

/-- A call into the reactor. -/
inductive Call (β : Type) where
  | updateAlloc (alloc : β)
  | onWriteDone (ok : Bool)
  | onReadDone (ok : Bool)
deriving DecidableEq, Repr

def call (r : HostReactor β) : Call β → Option (HostReactor β)
  | .updateAlloc alloc => some (r.updateAlloc alloc)
  | .onWriteDone ok =>
    match r.outstanding with
    | [] => none
    | _ :: rest => some ({ r with outstanding := rest }.onWriteDone ok)
  | .onReadDone ok => some (r.onReadDone ok)

section Writes

def updates (calls : List (Call β)) : List β :=
  calls.filterMap fun
    | .updateAlloc alloc => some alloc
    | _ => none

/--
The last bundle is on its way: it is staged behind an outstanding write, or it is the
last one written.
-/
inductive Latest (updates : List β) (r : HostReactor β) : Prop
  | staged (wip : r.outstanding ≠ []) (has : r.hasStaged = true)
      (sublist : (r.started ++ [r.buffers r.stagedAlloc]).Sublist updates)
      (latest : updates.getLast? = some (r.buffers r.stagedAlloc))
  | written (has : r.hasStaged = false) (latest : r.started.getLast? = updates.getLast?)

inductive Writing (r : HostReactor β) : Prop
  | idle (none : r.outstanding = [])
  | busy (one : r.outstanding = [r.wipWriteAlloc]) (wip : r.wipWrite = true)
      (unmodified : r.started.getLast? = some (r.buffers r.wipWriteAlloc))

/-- What holds between the calls. -/
structure WriteInv (updates : List β) (r : HostReactor β) : Prop where
  distinct : r.stagedAlloc ≠ r.wipWriteAlloc
  writing : Writing r
  wip : r.finished = false → r.wipWrite = true → r.outstanding ≠ []
  sublist : r.started.Sublist updates
  latest : r.finished = false → Latest updates r

variable {ups : List β} {r : HostReactor β}

theorem writeInv_create [Inhabited β] : WriteInv [] (create : HostReactor β) where
  distinct := by simp [create]
  writing := .idle rfl
  wip _ h := by simp [create] at h
  sublist := .slnil
  latest _ := .written rfl rfl

theorem WriteInv.congr (h : WriteInv ups r) {finished lis : Bool}
    {finishCalls : List FinishStatus} (hfinished : finished = false → r.finished = false) :
    WriteInv ups { r with finished := finished, lis := lis, finishCalls := finishCalls } where
  distinct := h.distinct
  writing := by
    cases h.writing with
    | idle hnone => exact .idle hnone
    | busy hone hwip hunmodified => exact .busy hone hwip hunmodified
  wip hf := h.wip (hfinished hf)
  sublist := h.sublist
  latest hf := by
    cases h.latest (hfinished hf) with
    | staged hwip hhas hsublist hlatest => exact .staged hwip hhas hsublist hlatest
    | written hhas hlatest => exact .written hhas hlatest

theorem WriteInv.sendAlloc
    (hdistinct : r.stagedAlloc ≠ r.wipWriteAlloc) (hidle : r.outstanding = [])
    (hhas : r.hasStaged = false) (hsublist : (r.started ++ [r.buffers r.stagedAlloc]).Sublist ups)
    (hlatest : ups.getLast? = some (r.buffers r.stagedAlloc)) :
    WriteInv ups r.sendAlloc where
  distinct := hdistinct.symm
  writing := by
    refine .busy ?_ rfl ?_
    · rw [HostReactor.sendAlloc, startWrite, hidle]
      rfl
    · simp [HostReactor.sendAlloc, startWrite]
  wip _ _ := by simp [HostReactor.sendAlloc, startWrite]
  sublist := hsublist
  latest _ := by
    refine .written hhas ?_
    simp [HostReactor.sendAlloc, startWrite, hlatest]

theorem WriteInv.updateAlloc (h : WriteInv ups r) (alloc : β) :
    WriteInv (ups ++ [alloc]) (r.updateAlloc alloc) := by
  have hstaged : (r.stage alloc).buffers r.stagedAlloc = alloc := Function.update_self ..
  have hsublist : (r.started ++ [alloc]).Sublist (ups ++ [alloc]) :=
    h.sublist.append (List.Sublist.refl _)
  unfold HostReactor.updateAlloc
  split_ifs with hsend
  · obtain ⟨hwip, hfinished⟩ : r.wipWrite = false ∧ r.finished = false := by simpa using hsend
    have hidle : r.outstanding = [] := by
      cases h.writing with
      | idle hnone => exact hnone
      | busy _ hbusy => simp [hwip] at hbusy
    have hhas : r.hasStaged = false := by
      cases h.latest hfinished with
      | staged hnone => exact absurd hidle hnone
      | written hhas => exact hhas
    refine WriteInv.sendAlloc h.distinct hidle hhas ?_ ?_
    · exact hstaged.symm ▸ hsublist
    · simp [stage]
  · have hwip : r.finished = false → r.outstanding ≠ [] := by
      intro hfinished
      exact h.wip hfinished (by simpa [hfinished] using hsend)
    refine ⟨h.distinct, ?_, fun hfinished _ => hwip hfinished, ?_, fun hfinished => ?_⟩
    · cases h.writing with
      | idle hnone => exact .idle hnone
      | busy hone hbusy hunmodified =>
        refine .busy hone hbusy ?_
        exact hunmodified.trans (by simp [stage, Function.update_of_ne h.distinct.symm])
    · exact h.sublist.trans (List.sublist_append_left _ _)
    · exact .staged (hwip hfinished) rfl (hstaged.symm ▸ hsublist) (by simp [stage])

theorem WriteInv.onWriteDone {buffer : Buffer} {rest : List Buffer}
    (h : WriteInv ups r) (houtstanding : r.outstanding = buffer :: rest) (ok : Bool) :
    WriteInv ups ({ r with outstanding := rest }.onWriteDone ok) := by
  obtain rfl : rest = [] := by
    cases h.writing with
    | idle hnone => simp [hnone] at houtstanding
    | busy hone =>
      rw [hone] at houtstanding
      exact (List.cons.inj houtstanding).2.symm
  unfold HostReactor.onWriteDone
  cases ok with
  | false =>
    refine ⟨?_, .idle ?_, fun h => absurd h (by simp), ?_, fun h => absurd h (by simp)⟩
    · cases hfinished : r.finished <;> simpa [hfinished, finish] using h.distinct
    · cases r.finished <;> simp [finish]
    · cases hfinished : r.finished <;> simpa [hfinished, finish] using h.sublist
  | true =>
    simp only [Bool.not_true, Bool.false_eq_true, if_false]
    split_ifs with hsend
    · obtain ⟨hhas, hfinished⟩ : r.hasStaged = true ∧ r.finished = false := by
        simpa using hsend
      cases h.latest hfinished with
      | staged _ _ hsublist hlatest =>
        exact WriteInv.sendAlloc h.distinct rfl rfl hsublist hlatest
      | written hnone => simp [hnone] at hhas
    · refine ⟨h.distinct, .idle rfl, fun _ h => absurd h (by simp), h.sublist, ?_⟩
      intro hfinished
      cases h.latest hfinished with
      | staged _ hhas => exact absurd hsend (by simpa [hhas] using hfinished)
      | written hnone hlatest => exact .written hnone hlatest

theorem WriteInv.onReadDone (h : WriteInv ups r) (ok : Bool) : WriteInv ups (r.onReadDone ok) := by
  unfold HostReactor.onReadDone
  split_ifs with hfinished
  · exact h
  · exact h.congr fun hf => absurd hf (by simp)
  · exact h.congr id

/-- A run keeps the invariant. -/
theorem writeInv_exec [Inhabited β] {calls : List (Call β)}
    (hrun : exec call create calls = some r) : WriteInv (updates calls) r := by
  induction calls using List.reverseRecOn generalizing r with
  | nil =>
    obtain rfl := Option.some.inj hrun
    exact writeInv_create
  | append_singleton calls c ih =>
    obtain ⟨r', hbefore, hcall⟩ := exec_concat_eq_some.mp hrun
    have h := ih hbefore
    rw [updates, List.filterMap_append, ← updates]
    cases c with
    | updateAlloc alloc =>
      obtain rfl := Option.some.inj hcall
      exact h.updateAlloc alloc
    | onWriteDone ok =>
      simp only [call] at hcall
      split at hcall
      · cases hcall
      · next houtstanding =>
          obtain rfl := Option.some.inj hcall
          simpa using h.onWriteDone houtstanding ok
    | onReadDone ok =>
      obtain rfl := Option.some.inj hcall
      simpa using h.onReadDone ok

structure WritesInOrder (updates : List β) (r : HostReactor β) : Prop where
  oneOutstanding : r.outstanding.length ≤ 1
  unmodified : ∀ buffer ∈ r.outstanding, r.started.getLast? = some (r.buffers buffer)
  sublist : r.started.Sublist updates
  upToDate : r.finished = false → r.outstanding = [] → r.started.getLast? = updates.getLast?

theorem WriteInv.writesInOrder (h : WriteInv ups r) : WritesInOrder ups r where
  oneOutstanding := by
    cases h.writing with
    | idle hnone => simp [hnone]
    | busy hone => simp [hone]
  unmodified buffer hbuffer := by
    cases h.writing with
    | idle hnone => simp [hnone] at hbuffer
    | busy hone _ hunmodified =>
      rw [hone, List.mem_singleton] at hbuffer
      exact hbuffer ▸ hunmodified
  sublist := h.sublist
  upToDate hfinished hidle := by
    cases h.latest hfinished with
    | staged hwip => exact absurd hidle hwip
    | written _ hlatest => exact hlatest

/-- A finished reactor starts no write. -/
def NoWriteOnceFinished (r : HostReactor β) (c : Call β) : Prop :=
  r.finished = true → ∀ r' ∈ r.call c, r'.started = r.started

theorem noWriteOnceFinished (r : HostReactor β) (c : Call β) : NoWriteOnceFinished r c := by
  intro hfinished r' hr'
  cases c with
  | updateAlloc alloc =>
    obtain rfl := Option.some.inj hr'
    simp [updateAlloc, hfinished, stage]
  | onWriteDone ok =>
    simp only [call] at hr'
    split at hr'
    · cases hr'
    · obtain rfl := Option.some.inj hr'
      cases ok <;> simp [onWriteDone, hfinished]
  | onReadDone ok =>
    obtain rfl := Option.some.inj hr'
    simp [onReadDone, hfinished]

/--
In every run one write at most is outstanding, its bundle is not modified, the bundles
written are a subsequence of those handed over, none is written once the reactor is
finished, and an idle reactor has written the last one.
-/
theorem run_writesInOrder [Inhabited β] (calls : List (Call β)) (r : HostReactor β)
    (hrun : exec call create calls = some r) :
    WritesInOrder (updates calls) r ∧ AllSteps call NoWriteOnceFinished create calls :=
  ⟨(writeInv_exec hrun).writesInOrder, fun _ c s _ _ => noWriteOnceFinished s c⟩

def overwritten : List (Call ℕ) :=
  [.onReadDone true, .updateAlloc 1, .updateAlloc 2, .updateAlloc 3, .onWriteDone true,
    .onWriteDone true]

theorem run_writesInOrder_overwritten :
    ∃ r, exec call create overwritten = some r ∧ r.started = [1, 3] ∧
      WritesInOrder (updates overwritten) r :=
  ⟨_, rfl, rfl, (run_writesInOrder overwritten _ rfl).1⟩

end Writes

/-- Where the thread of a read completion is in `OnReadDone`. -/
inductive ReaderPc where
  /-- The read is not yet completed. -/
  | reading
  | locked (ok : Bool)
  | finishing
  | setting
  | listening
  | registering
  | relocking
  | reporting
  | returned
deriving DecidableEq, Repr

def ReaderPc.holds : ReaderPc → Bool
  | .locked _ | .finishing | .setting | .listening | .reporting => true
  | .reading | .registering | .relocking | .returned => false

/-- Where the thread of a write completion is in `OnWriteDone`. -/
inductive WriterPc where
  /-- No write has been completed whose completion has not returned. -/
  | idle
  | failed
  | finishing
  | setting
  | dropping
  | locking
  | sending
deriving DecidableEq, Repr

inductive Phase where
  | out
  /-- It has found `finished_` unset. -/
  | finishing
  /-- It is going to set `finished_`. -/
  | setting
deriving DecidableEq, Repr

/-- The calls of `Finish` that the completion is about to make. -/
@[simp] def Phase.pending : Phase → ℕ
  | .finishing => 1
  | .out | .setting => 0

@[simp] def ReaderPc.phase : ReaderPc → Phase
  | .finishing => .finishing
  | .setting => .setting
  | _ => .out

@[simp] def WriterPc.phase : WriterPc → Phase
  | .finishing => .finishing
  | .setting => .setting
  | _ => .out

/-- The thread that holds `mu_`. -/
inductive Owner where
  | reader
  | writer
deriving DecidableEq, Repr

structure Threads (β : Type) where
  reactor : HostReactor β
  owner : Option Owner := none
  reader : ReaderPc := .reading
  writer : WriterPc := .idle

inductive Access (β : Type) where
  | updateAlloc (alloc : β)
  | readLock (ok : Bool)
  | read
  | writeDone (ok : Bool)
  | write
deriving DecidableEq, Repr

namespace Threads

def create [Inhabited β] : Threads β where
  reactor := HostReactor.create

variable (s : Threads β)

/-- The next access of `OnReadDone`. -/
def read : Option (Threads β) :=
  match s.reader with
  | .reading => none
  | .locked ok =>
    if s.reactor.finished then some { s with owner := none, reader := .returned }
    else some { s with reader := if ok then .listening else .finishing }
  | .finishing => some { s with reactor := s.reactor.finish .ok, reader := .setting }
  | .setting =>
    some { s with
      reactor := { s.reactor with finished := true }
      owner := none
      reader := .returned }
  | .listening =>
    if s.reactor.lis then some { s with reader := .reporting }
    else some { s with owner := none, reader := .registering }
  | .registering =>
    some { s with reactor := { s.reactor with lis := true }, reader := .relocking }
  | .relocking =>
    if s.owner = none then some { s with owner := some .reader, reader := .reporting }
    else none
  -- `UpdateInfo`, and the next read.
  | .reporting => some { s with owner := none, reader := .reading }
  | .returned => none

/-- The next access of `OnWriteDone`. -/
def write : Option (Threads β) :=
  match s.writer with
  | .idle => none
  | .failed => some { s with writer := if s.reactor.finished then .setting else .finishing }
  | .finishing => some { s with reactor := s.reactor.finish failedWrite, writer := .setting }
  | .setting => some { s with reactor := { s.reactor with finished := true }, writer := .dropping }
  | .dropping => some { s with reactor := { s.reactor with lis := false }, writer := .idle }
  | .locking =>
    if s.owner = none then
      if s.reactor.hasStaged then
        some { s with
          reactor := { s.reactor with wipWrite := false }
          owner := some .writer
          writer := .sending }
      else some { s with reactor := { s.reactor with wipWrite := false }, writer := .idle }
    else none
  | .sending =>
    some { s with
      reactor :=
        if s.reactor.finished then s.reactor
        else { s.reactor with hasStaged := false }.sendAlloc
      owner := none
      writer := .idle }

/--
One access.  `UpdateAlloc` is one access: it holds the mutex, and it reads `finished_`
only when no write is being completed.
-/
def step (s : Threads β) : Access β → Option (Threads β)
  | .updateAlloc alloc =>
    if s.owner = none then some { s with reactor := s.reactor.updateAlloc alloc } else none
  | .readLock ok =>
    if s.reader = .reading ∧ s.owner = none then
      some { s with owner := some .reader, reader := .locked ok }
    else none
  | .read => s.read
  | .writeDone ok =>
    match s.writer, s.reactor.outstanding with
    | .idle, _ :: rest =>
      some { s with
        reactor := { s.reactor with outstanding := rest }
        writer := if ok then .locking else .failed }
    | _, _ => none
  | .write => s.write

section Completions

variable {s s' : Threads β} {a : Access β}

/--
While a write completion is in progress no write is outstanding, so gRPC has no other
one to complete.
-/
structure Serial (s : Threads β) : Prop where
  one : s.reactor.outstanding.length ≤ 1
  wip : s.reactor.outstanding ≠ [] → s.reactor.wipWrite = true
  busy : s.writer ≠ .idle → s.reactor.outstanding = []
  blocked : s.writer ≠ .idle → s.writer ≠ .sending → s.reactor.wipWrite = true
  writerHolds : s.writer = .sending → s.owner = some .writer
  readerHolds : s.reader.holds = true → s.owner = some .reader

theorem serial_create [Inhabited β] : Serial (create : Threads β) where
  one := Nat.zero_le _
  wip h := absurd rfl h
  busy h := absurd rfl h
  blocked h := absurd rfl h
  writerHolds h := by simp [create] at h
  readerHolds h := by simp [create, ReaderPc.holds] at h

theorem updateAlloc_cases (r : HostReactor β) (alloc : β) :
    r.wipWrite = false ∧ (r.updateAlloc alloc).outstanding = r.outstanding ++ [r.stagedAlloc] ∧
        (r.updateAlloc alloc).wipWrite = true ∨
      (r.updateAlloc alloc).outstanding = r.outstanding ∧
        (r.updateAlloc alloc).wipWrite = r.wipWrite := by
  unfold updateAlloc
  split_ifs with h
  · left
    simp only [Bool.and_eq_true, Bool.not_eq_true'] at h
    exact ⟨h.1, rfl, rfl⟩
  · exact .inr ⟨rfl, rfl⟩

theorem Serial.updateAlloc (h : Serial s) (howner : s.owner = none) (alloc : β) :
    Serial { s with reactor := s.reactor.updateAlloc alloc } := by
  have hsending : s.writer ≠ .sending := by
    intro hwriter
    simp [h.writerHolds hwriter] at howner
  rcases updateAlloc_cases s.reactor alloc with ⟨hwip, hout, hwip'⟩ | ⟨hout, hwip'⟩
  · have hnone : s.reactor.outstanding = [] := by
      by_contra hne
      simp [h.wip hne] at hwip
    have hidle : s.writer = .idle := by
      by_contra hne
      simp [h.blocked hne hsending] at hwip
    refine ⟨?_, fun _ => hwip', fun hne => absurd hidle hne, fun _ _ => hwip', h.writerHolds,
      h.readerHolds⟩
    simp [hout, hnone]
  · refine ⟨?_, ?_, ?_, ?_, h.writerHolds, h.readerHolds⟩
    · exact hout ▸ h.one
    · exact fun hne => hwip'.trans (h.wip (hout ▸ hne))
    · exact fun hne => hout.trans (h.busy hne)
    · exact fun hne hne' => hwip'.trans (h.blocked hne hne')

theorem Serial.congr (h : Serial s) {reader : ReaderPc} {owner : Option Owner}
    {finished lis : Bool} {finishCalls : List FinishStatus}
    (hwriter : s.writer = .sending → owner = some .writer)
    (hreader : reader.holds = true → owner = some .reader) :
    Serial { s with
      reactor := { s.reactor with finished := finished, lis := lis, finishCalls := finishCalls }
      owner := owner
      reader := reader } :=
  ⟨h.one, h.wip, h.busy, h.blocked, hwriter, hreader⟩

theorem Serial.readLock (h : Serial s) (howner : s.owner = none) (ok : Bool) :
    Serial { s with owner := some .reader, reader := .locked ok } := by
  refine h.congr (fun hwriter => ?_) fun _ => rfl
  simp [h.writerHolds hwriter] at howner

theorem Serial.read (h : Serial s) (hread : s.read = some s') : Serial s' := by
  -- An access that releases the mutex had it, so `OnWriteDone` does not.
  have hfree : s.reader.holds = true → s.writer = .sending →
      (none : Option Owner) = some .writer := by
    intro hholds hwriter
    simpa [h.readerHolds hholds] using h.writerHolds hwriter
  have howner := h.readerHolds
  unfold Threads.read at hread
  cases hreader : s.reader with
  | reading | returned => simp [hreader] at hread
  | locked ok =>
      simp only [hreader] at hread hfree howner
      split_ifs at hread <;> obtain rfl := Option.some.inj hread
      · exact h.congr (hfree rfl) (by simp [ReaderPc.holds])
      · exact h.congr h.writerHolds fun _ => howner rfl
      · exact h.congr h.writerHolds fun _ => howner rfl
  | finishing =>
      simp only [hreader, Option.some.injEq] at hread howner
      subst hread
      exact h.congr h.writerHolds fun _ => howner rfl
  | setting | reporting =>
      simp only [hreader, Option.some.injEq] at hread hfree
      subst hread
      exact h.congr (hfree rfl) (by simp [ReaderPc.holds])
  | listening =>
      simp only [hreader] at hread hfree howner
      split_ifs at hread <;> obtain rfl := Option.some.inj hread
      · exact h.congr h.writerHolds fun _ => howner rfl
      · exact h.congr (hfree rfl) (by simp [ReaderPc.holds])
  | registering =>
      simp only [hreader, Option.some.injEq] at hread
      subst hread
      exact h.congr h.writerHolds (by simp [ReaderPc.holds])
  | relocking =>
      simp only [hreader] at hread
      split_ifs at hread with hnone
      obtain rfl := Option.some.inj hread
      refine h.congr (fun hwriter => ?_) fun _ => rfl
      simp [h.writerHolds hwriter] at hnone

theorem Serial.writeDone (h : Serial s) {buffer : Buffer} {rest : List Buffer}
    (houtstanding : s.reactor.outstanding = buffer :: rest) (ok : Bool) :
    Serial { s with
      reactor := { s.reactor with outstanding := rest }
      writer := if ok then .locking else .failed } := by
  obtain rfl : rest = [] := by
    simpa [houtstanding] using h.one
  have hwip := h.wip (by simp [houtstanding])
  refine ⟨Nat.zero_le _, fun hne => absurd rfl hne, fun _ => rfl, fun _ _ => hwip, ?_,
    h.readerHolds⟩
  intro hsending
  cases ok <;> simp at hsending

theorem Serial.write (h : Serial s) (hwrite : s.write = some s') : Serial s' := by
  have hnone := h.busy
  have hwip := h.blocked
  unfold Threads.write at hwrite
  cases hwriter : s.writer with
  | idle => simp [hwriter] at hwrite
  | failed =>
      simp only [hwriter, Option.some.injEq] at hwrite hnone hwip
      subst hwrite
      refine ⟨h.one, h.wip, fun _ => hnone (by simp), fun _ _ => hwip (by simp) (by simp), ?_,
        h.readerHolds⟩
      intro hsending
      cases hfinished : s.reactor.finished <;> simp [hfinished] at hsending
  | finishing | setting =>
      simp only [hwriter, Option.some.injEq] at hwrite hnone hwip
      subst hwrite
      exact ⟨h.one, h.wip, fun _ => hnone (by simp), fun _ _ => hwip (by simp) (by simp),
        by simp, h.readerHolds⟩
  | dropping =>
      simp only [hwriter, Option.some.injEq] at hwrite
      subst hwrite
      exact ⟨h.one, h.wip, by simp, by simp, by simp, h.readerHolds⟩
  | locking =>
      simp only [hwriter] at hwrite hnone
      have hout := hnone (by simp)
      split_ifs at hwrite with howner hstaged <;> obtain rfl := Option.some.inj hwrite
      · refine ⟨h.one, fun hne => absurd hout hne, fun _ => hout, by simp, fun _ => rfl, ?_⟩
        intro hholds
        simp [h.readerHolds hholds] at howner
      · exact ⟨h.one, fun hne => absurd hout hne, by simp, by simp, by simp, h.readerHolds⟩
  | sending =>
      simp only [hwriter, Option.some.injEq] at hwrite hnone
      subst hwrite
      have hout := hnone (by simp)
      have howner := h.writerHolds hwriter
      have hreader : s.reader.holds = true → (none : Option Owner) = some .reader := by
        intro hholds
        simpa [howner] using h.readerHolds hholds
      cases hfinished : s.reactor.finished with
      | true => exact ⟨h.one, h.wip, by simp, by simp, by simp, hreader⟩
      | false =>
          refine ⟨?_, fun _ => rfl, by simp, by simp, by simp, hreader⟩
          simp [HostReactor.sendAlloc, startWrite, hout]

/-- One access keeps the completions in series. -/
theorem Serial.step (h : Serial s) (hstep : s.step a = some s') : Serial s' := by
  cases a with
  | updateAlloc alloc =>
      simp only [Threads.step] at hstep
      split_ifs at hstep with howner
      obtain rfl := Option.some.inj hstep
      exact h.updateAlloc howner alloc
  | readLock ok =>
      simp only [Threads.step] at hstep
      split_ifs at hstep with hfree
      obtain rfl := Option.some.inj hstep
      exact h.readLock hfree.2 ok
  | read => exact h.read hstep
  | writeDone ok =>
      simp only [Threads.step] at hstep
      split at hstep
      · next houtstanding =>
          obtain rfl := Option.some.inj hstep
          exact h.writeDone houtstanding ok
      · cases hstep
  | write => exact h.write hstep

theorem serial_exec [Inhabited β] {accesses : List (Access β)}
    (hrun : exec step create accesses = some s) : Serial s :=
  exec_invariant (fun _ _ _ h => h.step) serial_create hrun

/-- A second bundle is staged while the write of the first one completes. -/
theorem serial_exec_staged :
    ∃ s : Threads ℕ, exec step create [.updateAlloc 1, .updateAlloc 2, .writeDone true, .write] =
      some s ∧ Serial s := by
  obtain ⟨s, hrun⟩ : ∃ s : Threads ℕ, exec step create
      [.updateAlloc 1, .updateAlloc 2, .writeDone true, .write] = some s := ⟨_, rfl⟩
  exact ⟨s, hrun, serial_exec hrun⟩

end Completions

section Races

variable {s s' : Threads β} {a : Access β}

/-- The calls of `Finish` that are made or about to be made. -/
def finishes (s : Threads β) : ℕ :=
  s.reactor.finishCalls.length + s.reader.phase.pending + s.writer.phase.pending

def Quiet (s : Threads β) : Prop := s.reader.phase = .out ∧ s.writer.phase = .out
deriving Decidable

/-- A completion that failed finds `finished_` unset. -/
def FindsUnfinished (s : Threads β) : Access β → Prop
  | .read => s.reader = .locked false ∧ s.reactor.finished = false
  | .write => s.writer = .failed ∧ s.reactor.finished = false
  | _ => False

def NoRace (s : Threads β) (a : Access β) : Prop := FindsUnfinished s a → s.Quiet

inductive Moves (s s' : Threads β) (a : Access β) : Prop
  | same (unfinished : ¬ FindsUnfinished s a)
      (finished : s'.reactor.finished = s.reactor.finished) (finishes : s'.finishes = s.finishes)
      (quiet : s'.Quiet ↔ s.Quiet)
  | finds (unfinished : FindsUnfinished s a) (finished : s'.reactor.finished = s.reactor.finished)
      (finishes : s'.finishes = s.finishes + 1) (quiet : ¬ s'.Quiet)
  | sets (unfinished : ¬ FindsUnfinished s a) (finished : s'.reactor.finished = true)
      (finishes : s'.finishes = s.finishes)

theorem moves_read (h : s.read = some s') : Moves s s' .read := by
  unfold Threads.read at h
  cases hreader : s.reader with
  | reading | returned => simp [hreader] at h
  | locked ok =>
    simp only [hreader] at h
    split_ifs at h with hfinished hok <;> obtain rfl := Option.some.inj h
    · exact .sets (by simp [FindsUnfinished, hfinished]) hfinished (by simp [finishes, hreader])
    · exact .same (by simp [FindsUnfinished, hreader, hok]) rfl (by simp [finishes, hreader])
        (by simp [Quiet, hreader])
    · refine .finds ⟨?_, by simpa using hfinished⟩ rfl ?_ (by simp [Quiet])
      · rw [hreader, Bool.eq_false_of_not_eq_true hok]
      · simp only [finishes, hreader, ReaderPc.phase, Phase.pending]
        omega
  | finishing =>
    simp only [hreader, Option.some.injEq] at h
    subst h
    refine .same (by simp [FindsUnfinished, hreader]) rfl ?_ (by simp [Quiet, hreader])
    simp [finishes, finish, hreader]
  | setting =>
    simp only [hreader, Option.some.injEq] at h
    subst h
    exact .sets (by simp [FindsUnfinished, hreader]) rfl (by simp [finishes, hreader])
  | listening =>
    simp only [hreader] at h
    split_ifs at h <;> obtain rfl := Option.some.inj h
    · exact .same (by simp [FindsUnfinished, hreader]) rfl (by simp [finishes, hreader])
        (by simp [Quiet, hreader])
    · exact .same (by simp [FindsUnfinished, hreader]) rfl (by simp [finishes, hreader])
        (by simp [Quiet, hreader])
  | registering | reporting =>
    simp only [hreader, Option.some.injEq] at h
    subst h
    exact .same (by simp [FindsUnfinished, hreader]) rfl (by simp [finishes, hreader])
      (by simp [Quiet, hreader])
  | relocking =>
    simp only [hreader] at h
    split_ifs at h
    obtain rfl := Option.some.inj h
    exact .same (by simp [FindsUnfinished, hreader]) rfl (by simp [finishes, hreader])
      (by simp [Quiet, hreader])

theorem moves_write (h : s.write = some s') : Moves s s' .write := by
  unfold Threads.write at h
  cases hwriter : s.writer with
  | idle => simp [hwriter] at h
  | failed =>
    simp only [hwriter, Option.some.injEq] at h
    subst h
    cases hfinished : s.reactor.finished with
    | true =>
      exact .sets (by simp [FindsUnfinished, hfinished]) hfinished (by simp [finishes, hwriter])
    | false =>
      exact .finds ⟨hwriter, hfinished⟩ rfl (by simp [finishes, hwriter]) (by simp [Quiet])
  | finishing =>
    simp only [hwriter, Option.some.injEq] at h
    subst h
    refine .same (by simp [FindsUnfinished, hwriter]) rfl ?_ (by simp [Quiet, hwriter])
    simp only [finishes, finish, hwriter, WriterPc.phase, Phase.pending, List.length_append,
      List.length_singleton]
    omega
  | setting =>
    simp only [hwriter, Option.some.injEq] at h
    subst h
    exact .sets (by simp [FindsUnfinished, hwriter]) rfl (by simp [finishes, hwriter])
  | dropping =>
    simp only [hwriter, Option.some.injEq] at h
    subst h
    exact .same (by simp [FindsUnfinished, hwriter]) rfl (by simp [finishes, hwriter])
      (by simp [Quiet, hwriter])
  | locking =>
    simp only [hwriter] at h
    split_ifs at h <;> obtain rfl := Option.some.inj h
    · exact .same (by simp [FindsUnfinished, hwriter]) rfl (by simp [finishes, hwriter])
        (by simp [Quiet, hwriter])
    · exact .same (by simp [FindsUnfinished, hwriter]) rfl (by simp [finishes, hwriter])
        (by simp [Quiet, hwriter])
  | sending =>
    simp only [hwriter, Option.some.injEq] at h
    subst h
    cases hfinished : s.reactor.finished with
    | true =>
      exact .same (by simp [FindsUnfinished, hwriter]) rfl (by simp [finishes, hwriter])
        (by simp [Quiet, hwriter])
    | false =>
      exact .same (by simp [FindsUnfinished, hwriter])
        (by simp [sendAlloc, startWrite, hfinished])
        (by simp [finishes, hwriter, sendAlloc, startWrite]) (by simp [Quiet, hwriter])

/-- An access does what `Moves` says. -/
theorem moves_step (h : s.step a = some s') : Moves s s' a := by
  cases a with
  | updateAlloc alloc =>
    simp only [Threads.step] at h
    split_ifs at h
    obtain rfl := Option.some.inj h
    refine .same id ?_ ?_ Iff.rfl
    · unfold updateAlloc
      split_ifs <;> rfl
    · simp only [finishes]
      unfold updateAlloc
      split_ifs <;> rfl
  | readLock ok =>
    simp only [Threads.step] at h
    split_ifs at h with hfree
    obtain rfl := Option.some.inj h
    exact .same id rfl (by simp [finishes, hfree.1]) (by simp [Quiet, hfree.1])
  | read => exact moves_read h
  | writeDone ok =>
    simp only [Threads.step] at h
    split at h
    · next hidle _ =>
        obtain rfl := Option.some.inj h
        refine .same id rfl ?_ ?_
        · cases ok <;> simp [finishes, hidle]
        · cases ok <;> simp [Quiet, hidle]
    · cases h
  | write => exact moves_write h

structure RaceInv (s : Threads β) : Prop where
  once : s.finishes ≤ 1
  begun_iff : s.reactor.finished = false → (s.finishes = 0 ↔ s.Quiet)

theorem raceInv_create [Inhabited β] : RaceInv (create : Threads β) where
  once := Nat.zero_le _
  begun_iff _ := by simp [create, HostReactor.create, finishes, Quiet]

theorem RaceInv.step (h : RaceInv s) (hrace : NoRace s a) (hstep : s.step a = some s') :
    RaceInv s' := by
  cases moves_step hstep with
  | same _ hfinished hfinishes hquiet =>
    refine ⟨hfinishes ▸ h.once, fun hunfinished => ?_⟩
    rw [hfinishes, hquiet]
    exact h.begun_iff (hfinished ▸ hunfinished)
  | finds hfinds hfinished hfinishes hquiet =>
    have hnone : s.reactor.finished = false := by
      cases a with
      | read | write => exact hfinds.2
      | _ => exact hfinds.elim
    have hzero := (h.begun_iff hnone).mpr (hrace hfinds)
    refine ⟨by omega, fun _ => ⟨fun h0 => ?_, fun hq => absurd hq hquiet⟩⟩
    omega
  | sets _ hfinished hfinishes =>
    refine ⟨hfinishes ▸ h.once, fun hunfinished => ?_⟩
    simp [hfinished] at hunfinished

theorem RaceInv.once_iff (h : RaceInv s) (hstep : s.step a = some s') :
    s'.finishes ≤ 1 ↔ NoRace s a := by
  refine ⟨fun honce hfinds => ?_, fun hrace => (h.step hrace hstep).once⟩
  cases moves_step hstep with
  | same hnot | sets hnot => exact absurd hfinds hnot
  | finds _ _ hfinishes _ =>
    have hnone : s.reactor.finished = false := by
      cases a with
      | read | write => exact hfinds.2
      | _ => exact hfinds.elim
    exact (h.begun_iff hnone).mp (by omega)

theorem finishes_le_of_exec {accesses : List (Access β)}
    (hrun : exec step s accesses = some s') : s.finishes ≤ s'.finishes := by
  have hkeeps : ∀ (t : Threads β) (a : Access β) (t' : Threads β),
      s.finishes ≤ t.finishes → t.step a = some t' → s.finishes ≤ t'.finishes := by
    intro t a t' ht hstep
    cases moves_step hstep with
    | same _ _ hfinishes _ | sets _ _ hfinishes => exact hfinishes ▸ ht
    | finds _ _ hfinishes _ => omega
  exact exec_invariant hkeeps le_rfl hrun

variable [Inhabited β] {accesses : List (Access β)}

theorem finishes_le_one_iff (hrun : exec step create accesses = some s) :
    s.finishes ≤ 1 ↔ AllSteps step NoRace (create : Threads β) accesses := by
  have hsteps : AllSteps step (fun s a => ∀ s' ∈ step s a, s'.finishes ≤ 1)
      (create : Threads β) accesses ↔ AllSteps step NoRace create accesses := by
    refine allSteps_iff raceInv_create hrun (fun s a _ s' h hstep => ?_)
      (fun _ _ _ _ h hrace hstep => h.step hrace hstep)
    rw [hstep]
    simpa using h.once_iff hstep
  have hreached := @reached_iff_allSteps _ _ step (fun s : Threads β => s.finishes ≤ 1)
    create accesses
  rw [← hsteps]
  constructor
  · intro honce
    refine (hreached.mp fun pre t hpre ht => ?_).2
    obtain ⟨rest, rfl⟩ := hpre
    rw [exec_append, ht] at hrun
    exact (finishes_le_of_exec hrun).trans honce
  · intro h
    exact hreached.mpr ⟨raceInv_create.once, h⟩ accesses s (List.prefix_refl _) hrun

/--
`Finish` is called at most once in every interleaving whose failing completions do not find
the reactor unfinished while the other one is finishing it, and in no other one once the
calls that were begun are made.
-/
theorem finish_atMostOnce_iff (accesses : List (Access β)) (s : Threads β)
    (hrun : exec step create accesses = some s) :
    (AllSteps step NoRace create accesses → s.reactor.finishCalls.length ≤ 1) ∧
      (s.reader ≠ .finishing → s.writer ≠ .finishing → s.reactor.finishCalls.length ≤ 1 →
        AllSteps step NoRace create accesses) := by
  rw [← finishes_le_one_iff hrun]
  refine ⟨fun h => ?_, fun hreader hwriter h => ?_⟩
  · unfold finishes at h
    omega
  · have hpending : s.reader.phase.pending = 0 ∧ s.writer.phase.pending = 0 := by
      constructor
      · cases hpc : s.reader <;> simp_all
      · cases hpc : s.writer <;> simp_all
    rw [finishes, hpending.1, hpending.2]
    exact h

end Races

def registered : List (Access ℕ) :=
  [.readLock true, .read, .read, .read, .read, .read, .updateAlloc 1]

def failsInTurn : List (Access ℕ) :=
  registered ++ [.writeDone false, .write, .write, .write, .write, .readLock false, .read]

theorem finish_atMostOnce_in_turn :
    ∃ s, exec step create failsInTurn = some s ∧
      s.reactor.finishCalls = [failedWrite] ∧ AllSteps step NoRace create failsInTurn := by
  refine ⟨_, rfl, rfl, ?_⟩
  exact (finish_atMostOnce_iff failsInTurn _ rfl).2 (by decide) (by decide) (by decide)

/-- The read completion tests `finished_` between the test of the write completion and its
call of `Finish`. -/
theorem finish_twice :
    ∃ s, exec step create (registered ++ [.writeDone false, .write, .readLock false, .read,
        .write, .read]) = some s ∧ s.reactor.finishCalls = [failedWrite, .ok] :=
  ⟨_, rfl, rfl⟩

/-- The accesses of a call when no other one comes in between. -/
def accessesOf (r : HostReactor β) : Call β → List (Access β)
  | .updateAlloc alloc => [.updateAlloc alloc]
  | .onWriteDone true => if r.hasStaged then [.writeDone true, .write, .write]
      else [.writeDone true, .write]
  | .onWriteDone false =>
    if r.finished then [.writeDone false, .write, .write, .write]
    else [.writeDone false, .write, .write, .write, .write]
  | .onReadDone ok =>
    if r.finished then [.readLock ok, .read]
    else if ok then
      if r.lis then [.readLock ok, .read, .read, .read]
      else [.readLock ok, .read, .read, .read, .read, .read]
    else [.readLock ok, .read, .read, .read]

/-- The accesses of a call, made without interruption, do what the call does. -/
theorem exec_accessesOf {r r' : HostReactor β} {c : Call β} (h : r.call c = some r') :
    ∃ s, exec step { reactor := r } (accessesOf r c) = some s ∧ s.reactor = r' ∧
      s.owner = none ∧ s.writer = .idle := by
  cases c with
  | updateAlloc alloc =>
    obtain rfl := Option.some.inj h
    exact ⟨_, rfl, rfl, rfl, rfl⟩
  | onWriteDone ok =>
    simp only [call] at h
    split at h
    · cases h
    · next houtstanding =>
        obtain rfl := Option.some.inj h
        cases ok with
        | true =>
          cases hstaged : r.hasStaged <;> cases hfinished : r.finished <;>
            simp [accessesOf, exec, step, write, onWriteDone, houtstanding, hstaged, hfinished]
        | false =>
          cases hfinished : r.finished <;>
            simp [accessesOf, exec, step, write, onWriteDone, houtstanding, hfinished, finish]
  | onReadDone ok =>
    obtain rfl := Option.some.inj h
    cases hfinished : r.finished with
    | true => simp [accessesOf, exec, step, read, onReadDone, hfinished]
    | false =>
      cases ok with
      | true =>
        cases hlis : r.lis with
        | true =>
          refine ⟨{ reactor := r }, ?_, ?_, rfl, rfl⟩
          · simp [accessesOf, exec, step, read, hfinished, hlis]
          · cases r
            simp_all [onReadDone]
        | false => simp [accessesOf, exec, step, read, onReadDone, hfinished, hlis]
      | false => simp [accessesOf, exec, step, read, onReadDone, hfinished, finish]

end Threads

end HostReactor
end HeypAgents
