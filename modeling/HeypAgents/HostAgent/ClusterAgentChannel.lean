import HeypAgents.Lib.Runs

/-!
# The host agent's channel to the cluster agent

Embedding of `heyp/host-agent/cluster-agent-channel.cc`.  A channel multiplexes
one reader thread and one writer thread over a bidirectional gRPC stream that is
created on demand and replaced once both directions have failed.

Every call of `Read`, `Write` or `WritesDone` consists of two critical sections
around one unlocked stream operation.  The model has one event for each of the
three parts, so a run is an interleaving at critical-section granularity.  The
results of the stream operations (including `Finish`) are chosen by the events.

The first critical section decides whether the stream operation is made at all;
the second one decides what the call returns.  A call that made no operation
relies on the failure flag being still set in its second section, but the other
thread may have replaced the stream and cleared the flags in between.
`run_genuine_of_noResetUnderSkip` shows that this is the only way in which a
call can report a success that did not happen.
-/

namespace HeypAgents
namespace ClusterAgentChannel

open Runs

/-- The gRPC statuses that a call can return. -/
inductive Status where
  | ok
  | unknown (mesg : String)
  | finishError (code : ℕ)
deriving DecidableEq, Repr

/-- The fields guarded by `mu_`; streams are numbered by creation. -/
structure Channel where
  stream : Option ℕ := none
  allStreams : List ℕ := []
  readFailed : Bool := false
  writeFailed : Bool := false
  writesDone : Bool := false
deriving DecidableEq, Repr

namespace Channel

def createStreamIfNeeded (c : Channel) : Channel :=
  if c.stream.isSome then c
  else
    { c with
      stream := some c.allStreams.length
      allStreams := c.allStreams ++ [c.allStreams.length] }

def resets (c : Channel) : Bool :=
  c.stream.isSome && (c.readFailed && (c.writeFailed || c.writesDone))

/-- `finish` is the status that `Finish` returns if it is called. -/
def checkFinishAndResetStream (c : Channel) (finish : Status) : Channel × Status :=
  if c.resets then
    ({ c with
        stream := none
        readFailed := false
        writeFailed := false
        writesDone := false },
      finish)
  else
    (c, .ok)

def failWith (c : Channel) (finish : Status) (mesg : String) : Channel × Status :=
  let st := (c.checkFinishAndResetStream finish).2
  ((c.checkFinishAndResetStream finish).1, if st ≠ .ok then st else .unknown mesg)

end Channel

/-- The two calls of the writer thread. -/
inductive WriterCall where
  | write
  | writesDone
deriving DecidableEq, Repr

/-- First critical section of `Read`: whether to read, and the stream to use. -/
def readFirst (c : Channel) : Channel × Bool × Option ℕ :=
  (c.createStreamIfNeeded, !c.readFailed, c.createStreamIfNeeded.stream)

/-- The flag update at the head of the second critical section of `Read`. -/
def recordRead (c : Channel) (failed : Bool) : Channel :=
  { c with readFailed := c.readFailed || failed }

/-- Second critical section of `Read`. -/
def readSecond (c : Channel) (failed : Bool) (finish : Status) : Channel × Status :=
  let c := recordRead c failed
  if c.readFailed then
    c.failWith finish "read failed but not write"
  else
    (c, .ok)

/-- First critical section of `Write` and `WritesDone`. -/
def writeFirst (c : Channel) : Channel × Bool × Option ℕ :=
  (c.createStreamIfNeeded, !c.writeFailed && !c.writesDone, c.createStreamIfNeeded.stream)

/-- The flag updates at the head of the second section of `Write` and `WritesDone`. -/
def recordWrite (call : WriterCall) (c : Channel) (failed : Bool) : Channel :=
  { c with
    writeFailed := c.writeFailed || failed
    writesDone := c.writesDone || decide (call = .writesDone) }

/-- Second critical section of `Write` and `WritesDone`. -/
def writeSecond (call : WriterCall) (c : Channel) (failed : Bool) (finish : Status) :
    Channel × Status :=
  let c := recordWrite call c failed
  if c.writeFailed || c.writesDone then
    c.failWith finish "write failed (or done) but not read"
  else
    (c, .ok)

section Threads

variable (β : Type)

/--
Progress of the reader's current call.  `done io` records the stream operation:
`none` when it was skipped, `some none` when it failed, and `some (some b)` when
it put `b` into the caller's bundle.
-/
inductive ReaderPc where
  | idle
  | started (doRead : Bool) (s : Option ℕ)
  | done (io : Option (Option β))
deriving DecidableEq, Repr

/-- Progress of the writer's current call; it stops after `WritesDone`. -/
inductive WriterPc where
  | idle
  | started (call : WriterCall) (doWrite : Bool) (s : Option ℕ)
  | done (call : WriterCall) (io : Option Bool)
  | stopped
deriving DecidableEq, Repr

inductive Returned where
  | read (status : Status) (io : Option (Option β)) (bundle : Option β)
  | write (call : WriterCall) (status : Status) (io : Option Bool)
deriving DecidableEq, Repr

structure State where
  channel : Channel := {}
  reader : ReaderPc β := .idle
  writer : WriterPc := .idle
  log : List (Returned β) := []
deriving DecidableEq, Repr

inductive Event where
  | readBegin
  | readIo (result : Option β)
  | readEnd (finish : Status)
  | writeBegin (call : WriterCall)
  | writeIo (ok : Bool)
  | writeEnd (finish : Status)
deriving DecidableEq, Repr

end Threads

variable {β : Type}

/-- The local `failed` of `Read`: the stream operation was made and failed. -/
def readOpFailed : Option (Option β) → Bool
  | some none => true
  | _ => false

/-- The local `failed` of `Write` and `WritesDone`. -/
def writeOpFailed : Option Bool → Bool
  | some false => true
  | _ => false

/-- One part of a call; `none` when the thread is not at that part. -/
def step (s : State β) : Event β → Option (State β)
  | .readBegin =>
    match s.reader with
    | .idle =>
      some { s with
        channel := (readFirst s.channel).1
        reader := .started (readFirst s.channel).2.1 (readFirst s.channel).2.2 }
    | _ => none
  | .readIo result =>
    match s.reader with
    | .started doRead _ =>
      some { s with reader := .done (if doRead then some result else none) }
    | _ => none
  | .readEnd finish =>
    match s.reader with
    | .done io =>
      let r := readSecond s.channel (readOpFailed io) finish
      some { s with
        channel := r.1
        reader := .idle
        log := s.log ++ [.read r.2 io io.join] }
    | _ => none
  | .writeBegin call =>
    match s.writer with
    | .idle =>
      some { s with
        channel := (writeFirst s.channel).1
        writer := .started call (writeFirst s.channel).2.1 (writeFirst s.channel).2.2 }
    | _ => none
  | .writeIo ok =>
    match s.writer with
    | .started call doWrite _ =>
      some { s with writer := .done call (if doWrite then some ok else none) }
    | _ => none
  | .writeEnd finish =>
    match s.writer with
    | .done call io =>
      let r := writeSecond call s.channel (writeOpFailed io) finish
      some { s with
        channel := r.1
        writer := if call = .writesDone then .stopped else .idle
        log := s.log ++ [.write call r.2 io] }
    | _ => none

/-- The reader is inside a `Read` that makes no stream operation. -/
def ReaderPc.Skips : ReaderPc β → Prop
  | .started doRead _ => doRead = false
  | .done io => io = none
  | .idle => False

instance : (r : ReaderPc β) → Decidable r.Skips
  | .started doRead _ => inferInstanceAs (Decidable (doRead = false))
  | .done io => decidable_of_iff (io.isNone = true) Option.isNone_iff_eq_none
  | .idle => inferInstanceAs (Decidable False)

/-- The writer is inside a `Write` that makes no stream operation. -/
def WriterPc.Skips : WriterPc → Prop
  | .started call doWrite _ => call = .write ∧ doWrite = false
  | .done call io => call = .write ∧ io = none
  | .idle => False
  | .stopped => False

instance : (w : WriterPc) → Decidable w.Skips
  | .started call doWrite _ => inferInstanceAs (Decidable (call = .write ∧ doWrite = false))
  | .done call io => inferInstanceAs (Decidable (call = .write ∧ io = none))
  | .idle => inferInstanceAs (Decidable False)
  | .stopped => inferInstanceAs (Decidable False)

def ResetsStream (s : State β) : Event β → Prop
  | .readEnd _ =>
    ∃ io, s.reader = .done io ∧ (recordRead s.channel (readOpFailed io)).resets = true
  | .writeEnd _ =>
    ∃ call io, s.writer = .done call io ∧
      (recordWrite call s.channel (writeOpFailed io)).resets = true
  | _ => False

/--
The event does not replace the stream under a call of the other thread that has
decided to make no stream operation.
-/
def NoResetUnderSkip (s : State β) (e : Event β) : Prop :=
  match e with
  | .readEnd _ => ¬ (ResetsStream s e ∧ s.writer.Skips)
  | .writeEnd _ => ¬ (ResetsStream s e ∧ s.reader.Skips)
  | _ => True

def Returned.Genuine : Returned β → Prop
  | .read status io bundle =>
    status = .ok → ∃ b, io = some (some b) ∧ bundle = some b
  | .write .write status io => status = .ok → io = some true
  | .write .writesDone _ _ => True

structure Inv (s : State β) : Prop where
  reader : s.reader.Skips → s.channel.readFailed = true
  writer : s.writer.Skips → s.channel.writeFailed = true ∨ s.channel.writesDone = true
  log : ∀ r ∈ s.log, r.Genuine

section Sections

variable (c : Channel)

@[simp] theorem createStreamIfNeeded_readFailed :
    c.createStreamIfNeeded.readFailed = c.readFailed := by
  unfold Channel.createStreamIfNeeded
  split_ifs <;> rfl

@[simp] theorem createStreamIfNeeded_writeFailed :
    c.createStreamIfNeeded.writeFailed = c.writeFailed := by
  unfold Channel.createStreamIfNeeded
  split_ifs <;> rfl

@[simp] theorem createStreamIfNeeded_writesDone :
    c.createStreamIfNeeded.writesDone = c.writesDone := by
  unfold Channel.createStreamIfNeeded
  split_ifs <;> rfl

theorem failWith_ne_ok (finish : Status) (mesg : String) : (c.failWith finish mesg).2 ≠ .ok := by
  unfold Channel.failWith
  by_cases h : (c.checkFinishAndResetStream finish).2 = .ok <;> simp [h]

theorem failWith_of_not_resets (finish : Status) (mesg : String) (h : ¬ c.resets = true) :
    (c.failWith finish mesg).1 = c := by
  simp [Channel.failWith, Channel.checkFinishAndResetStream, h]

theorem readSecond_ok {failed : Bool} {finish : Status} (h : (readSecond c failed finish).2 = .ok) :
    c.readFailed = false ∧ failed = false := by
  unfold readSecond at h
  by_cases hf : (recordRead c failed).readFailed
  · simp only [hf, if_true] at h
    exact absurd h (failWith_ne_ok _ _ _)
  · simpa [recordRead] using hf

theorem readSecond_of_not_resets (failed : Bool) (finish : Status)
    (h : ¬ (recordRead c failed).resets = true) :
    (readSecond c failed finish).1 = recordRead c failed := by
  unfold readSecond
  by_cases hf : (recordRead c failed).readFailed
  · simp only [hf, if_true]
    exact failWith_of_not_resets _ _ _ h
  · simp [hf]

theorem writeSecond_ok {call : WriterCall} {failed : Bool} {finish : Status}
    (h : (writeSecond call c failed finish).2 = .ok) :
    c.writeFailed = false ∧ c.writesDone = false ∧ failed = false := by
  unfold writeSecond at h
  by_cases hf : (recordWrite call c failed).writeFailed || (recordWrite call c failed).writesDone
  · simp only [hf, if_true] at h
    exact absurd h (failWith_ne_ok _ _ _)
  · simp only [recordWrite, Bool.or_eq_true, not_or, Bool.not_eq_true] at hf
    exact ⟨hf.1.1, hf.2.1, hf.1.2⟩

theorem writeSecond_of_not_resets (call : WriterCall) (failed : Bool) (finish : Status)
    (h : ¬ (recordWrite call c failed).resets = true) :
    (writeSecond call c failed finish).1 = recordWrite call c failed := by
  unfold writeSecond
  by_cases hf : (recordWrite call c failed).writeFailed || (recordWrite call c failed).writesDone
  · simp only [hf, if_true]
    exact failWith_of_not_resets _ _ _ h
  · simp [hf]

end Sections

section Steps

variable {s s' : State β}

theorem inv_initial : Inv ({} : State β) where
  reader := False.elim
  writer := False.elim
  log := by simp

theorem inv_readBegin (h : Inv s) (hs : step s .readBegin = some s') : Inv s' := by
  cases hr : s.reader with
  | idle =>
    simp only [step, hr, Option.some.injEq] at hs
    subst hs
    refine ⟨?_, ?_, h.log⟩
    · intro hskip
      simpa [readFirst, ReaderPc.Skips] using hskip
    · intro hskip
      simpa [readFirst] using h.writer hskip
  | started doRead st => simp [step, hr] at hs
  | done io => simp [step, hr] at hs

theorem inv_writeBegin (h : Inv s) {call : WriterCall} (hs : step s (.writeBegin call) = some s') :
    Inv s' := by
  cases hw : s.writer with
  | idle =>
    simp only [step, hw, Option.some.injEq] at hs
    subst hs
    refine ⟨?_, ?_, h.log⟩
    · intro hskip
      simpa [writeFirst] using h.reader hskip
    · rintro ⟨-, hskip⟩
      simp only [writeFirst, Bool.and_eq_false_iff, Bool.not_eq_false'] at hskip
      simpa [writeFirst] using hskip
  | started call doWrite st => simp [step, hw] at hs
  | done call io => simp [step, hw] at hs
  | stopped => simp [step, hw] at hs

theorem inv_readIo (h : Inv s) {result : Option β} (hs : step s (.readIo result) = some s') :
    Inv s' := by
  cases hr : s.reader with
  | idle => simp [step, hr] at hs
  | started doRead st =>
    simp only [step, hr, Option.some.injEq] at hs
    subst hs
    refine ⟨?_, h.writer, h.log⟩
    intro hskip
    apply h.reader
    rw [hr]
    cases doRead with
    | true => simp [ReaderPc.Skips] at hskip
    | false => rfl
  | done io => simp [step, hr] at hs

theorem inv_writeIo (h : Inv s) {ok : Bool} (hs : step s (.writeIo ok) = some s') : Inv s' := by
  cases hw : s.writer with
  | idle => simp [step, hw] at hs
  | started call doWrite st =>
    simp only [step, hw, Option.some.injEq] at hs
    subst hs
    refine ⟨h.reader, ?_, h.log⟩
    rintro ⟨hcall, hskip⟩
    apply h.writer
    rw [hw]
    cases doWrite with
    | true => simp at hskip
    | false => exact ⟨hcall, rfl⟩
  | done call io => simp [step, hw] at hs
  | stopped => simp [step, hw] at hs

theorem inv_readEnd (h : Inv s) {finish : Status} (hC : NoResetUnderSkip s (.readEnd finish))
    (hs : step s (.readEnd finish) = some s') : Inv s' := by
  cases hr : s.reader with
  | idle => simp [step, hr] at hs
  | started doRead st => simp [step, hr] at hs
  | done io =>
    simp only [step, hr, Option.some.injEq] at hs
    subst hs
    refine ⟨False.elim, ?_, ?_⟩
    · intro hskip
      have hno : ¬ (recordRead s.channel (readOpFailed io)).resets = true :=
        fun hreset => hC ⟨⟨io, hr, hreset⟩, hskip⟩
      rw [readSecond_of_not_resets _ _ _ hno]
      exact h.writer hskip
    · intro r hmem
      rcases List.mem_append.mp hmem with hold | hnew
      · exact h.log r hold
      · obtain rfl := List.mem_singleton.mp hnew
        intro hok
        obtain ⟨hflag, hfailed⟩ := readSecond_ok _ hok
        match io, hfailed with
        | none, _ =>
          have := h.reader (by rw [hr]; rfl)
          rw [hflag] at this
          cases this
        | some (some b), _ => exact ⟨b, rfl, rfl⟩

theorem inv_writeEnd (h : Inv s) {finish : Status} (hC : NoResetUnderSkip s (.writeEnd finish))
    (hs : step s (.writeEnd finish) = some s') : Inv s' := by
  cases hw : s.writer with
  | idle => simp [step, hw] at hs
  | started call doWrite st => simp [step, hw] at hs
  | stopped => simp [step, hw] at hs
  | done call io =>
    simp only [step, hw, Option.some.injEq] at hs
    subst hs
    refine ⟨?_, ?_, ?_⟩
    · intro hskip
      have hno : ¬ (recordWrite call s.channel (writeOpFailed io)).resets = true :=
        fun hreset => hC ⟨⟨call, io, hw, hreset⟩, hskip⟩
      rw [writeSecond_of_not_resets _ _ _ _ hno]
      exact h.reader hskip
    · intro hskip
      cases call <;> exact False.elim hskip
    · intro r hmem
      rcases List.mem_append.mp hmem with hold | hnew
      · exact h.log r hold
      · obtain rfl := List.mem_singleton.mp hnew
        cases call with
        | writesDone => trivial
        | write =>
          intro hok
          obtain ⟨hwf, hwd, hfailed⟩ := writeSecond_ok _ hok
          match io, hfailed with
          | none, _ =>
            have := h.writer (by rw [hw]; exact ⟨rfl, rfl⟩)
            simp [hwf, hwd] at this
          | some true, _ => rfl

theorem inv_step (h : Inv s) {e : Event β} (hC : NoResetUnderSkip s e) (hs : step s e = some s') :
    Inv s' := by
  cases e with
  | readBegin => exact inv_readBegin h hs
  | readIo result => exact inv_readIo h hs
  | readEnd finish => exact inv_readEnd h hC hs
  | writeBegin call => exact inv_writeBegin h hs
  | writeIo ok => exact inv_writeIo h hs
  | writeEnd finish => exact inv_writeEnd h hC hs

end Steps

/--
In every interleaving in which no stream is replaced under a call that skips its stream
operation, every OK result of `Read` and `Write` stands for a stream operation of that call
that succeeded.
-/
theorem run_genuine_of_noResetUnderSkip (es : List (Event β)) {s : State β}
    (hC : AllSteps step NoResetUnderSkip {} es) (hrun : exec step {} es = some s) :
    ∀ r ∈ s.log, r.Genuine :=
  (exec_invariant_of_allSteps (fun _ _ _ h hC hs => inv_step h hC hs) inv_initial hC hrun).log

/-- A read and a write that overlap and both succeed. -/
theorem run_genuine_overlapping_read_and_write :
    ∃ s : State ℕ,
      exec step {}
          [.readBegin, .writeBegin .write, .readIo (some 7), .writeIo true,
            .readEnd .ok, .writeEnd .ok] = some s ∧
        s.log = [.read .ok (some (some 7)) (some 7), .write .write .ok (some true)] ∧
        ∀ r ∈ s.log, r.Genuine := by
  refine ⟨_, rfl, rfl, run_genuine_of_noResetUnderSkip
    [.readBegin, .writeBegin .write, .readIo (some 7), .writeIo true,
      .readEnd .ok, .writeEnd .ok] ?_ rfl⟩
  refine allSteps_cons trivial ?_
  rintro _ ⟨⟩
  refine allSteps_cons trivial ?_
  rintro _ ⟨⟩
  refine allSteps_cons trivial ?_
  rintro _ ⟨⟩
  refine allSteps_cons trivial ?_
  rintro _ ⟨⟩
  refine allSteps_cons (fun h => absurd h.2 (by decide)) ?_
  rintro _ ⟨⟩
  refine allSteps_cons (fun h => absurd h.2 (by decide)) ?_
  rintro _ ⟨⟩
  exact allSteps_nil _ _

/--
The reader has failed once and starts a second `Read`, which skips the stream.
Before it returns, a failed `Write` replaces the stream and clears the flags, so
the second `Read` returns OK with an empty bundle.
-/
theorem read_ok_without_stream_read :
    ∃ s : State ℕ,
      exec step {}
          [.readBegin, .readIo none, .readEnd .ok,
            .readBegin, .writeBegin .write, .writeIo false, .writeEnd .ok,
            .readIo none, .readEnd .ok] = some s ∧
        Returned.read .ok none none ∈ s.log ∧
        ¬ ∀ r ∈ s.log, r.Genuine := by
  refine ⟨_, rfl, by decide, ?_⟩
  intro h
  have hread : Returned.Genuine (.read .ok none none : Returned ℕ) := h _ (by decide)
  obtain ⟨b, hb, -⟩ := hread rfl
  cases hb

section Converse

variable {s s' : State β}

theorem failWith_of_resets
    (c : Channel) (finish : Status) (mesg : String) (h : c.resets = true) :
    (c.failWith finish mesg).1 = { allStreams := c.allStreams } := by
  simp [Channel.failWith, Channel.checkFinishAndResetStream, h]

theorem false_success_of_skipped_read
    (hskip : s.reader.Skips)
    (hflag : s.channel.readFailed = false) :
    ∃ es t, exec step s es = some t ∧ ∃ r ∈ t.log, ¬ r.Genuine := by
  have hend : ∀ t : State β, t.reader = .done none → t.channel = s.channel →
      step t (.readEnd .ok) = some { t with
        channel := recordRead s.channel false
        reader := .idle
        log := t.log ++ [.read .ok none none] } := by
    intro t hr hc
    simp [step, hr, hc, readSecond, recordRead, readOpFailed, hflag]
  cases hr : s.reader with
  | idle => simp [hr, ReaderPc.Skips] at hskip
  | started doRead st =>
      obtain rfl : doRead = false := by simpa [hr, ReaderPc.Skips] using hskip
      have hio : step s (.readIo none) = some { s with reader := .done none } := by
        simp [step, hr]
      exact ⟨[.readIo none, .readEnd .ok], _,
        exec_cons_eq_some.mpr ⟨_, hio, exec_cons_eq_some.mpr ⟨_, hend _ rfl rfl, rfl⟩⟩,
        .read .ok none none, by simp, by simp [Returned.Genuine]⟩
  | done io =>
      obtain rfl : io = none := by simpa [hr, ReaderPc.Skips] using hskip
      exact ⟨[.readEnd .ok], _, exec_cons_eq_some.mpr ⟨_, hend s hr rfl, rfl⟩,
        .read .ok none none, by simp, by simp [Returned.Genuine]⟩

theorem false_success_of_skipped_write
    (hskip : s.writer.Skips)
    (hfailed : s.channel.writeFailed = false)
    (hdone : s.channel.writesDone = false) :
    ∃ es t, exec step s es = some t ∧ ∃ r ∈ t.log, ¬ r.Genuine := by
  have hend : ∀ t : State β, t.writer = .done .write none → t.channel = s.channel →
      step t (.writeEnd .ok) = some { t with
        channel := recordWrite .write s.channel false
        writer := .idle
        log := t.log ++ [.write .write .ok none] } := by
    intro t hw hc
    simp [step, hw, hc, writeSecond, recordWrite, writeOpFailed, hfailed, hdone]
  cases hw : s.writer with
  | idle => simp [hw, WriterPc.Skips] at hskip
  | stopped => simp [hw, WriterPc.Skips] at hskip
  | started call doWrite st =>
      obtain ⟨rfl, rfl⟩ : call = .write ∧ doWrite = false := by
        simpa [hw, WriterPc.Skips] using hskip
      have hio : step s (.writeIo true) = some { s with writer := .done .write none } := by
        simp [step, hw]
      exact ⟨[.writeIo true, .writeEnd .ok], _,
        exec_cons_eq_some.mpr ⟨_, hio, exec_cons_eq_some.mpr ⟨_, hend _ rfl rfl, rfl⟩⟩,
        .write .write .ok none, by simp, by simp [Returned.Genuine]⟩
  | done call io =>
      obtain ⟨rfl, rfl⟩ : call = .write ∧ io = none := by
        simpa [hw, WriterPc.Skips] using hskip
      exact ⟨[.writeEnd .ok], _, exec_cons_eq_some.mpr ⟨_, hend s hw rfl, rfl⟩,
        .write .write .ok none, by simp, by simp [Returned.Genuine]⟩

/--
An event that replaces a stream under such a call can be continued to a run in which a call
returns OK without its own stream operation.
-/
theorem false_success_of_reset_under_skip
    {e : Event β}
    (hbreak : ¬ NoResetUnderSkip s e)
    (hs : step s e = some s') :
    ∃ es t, exec step s' es = some t ∧ ∃ r ∈ t.log, ¬ r.Genuine := by
  cases e with
  | readEnd finish =>
      obtain ⟨⟨io, hr, hresets⟩, hskip⟩ := not_not.mp hbreak
      have hflag : (recordRead s.channel (readOpFailed io)).readFailed := by
        simp only [Channel.resets, Bool.and_eq_true] at hresets
        exact hresets.2.1
      simp only [step, hr, readSecond, hflag, if_true, failWith_of_resets _ _ _ hresets,
        Option.some.injEq] at hs
      subst hs
      exact false_success_of_skipped_write hskip rfl rfl
  | writeEnd finish =>
      obtain ⟨⟨call, io, hw, hresets⟩, hskip⟩ := not_not.mp hbreak
      have hflags : (recordWrite call s.channel (writeOpFailed io)).writeFailed ||
          (recordWrite call s.channel (writeOpFailed io)).writesDone := by
        simp only [Channel.resets, Bool.and_eq_true] at hresets
        exact hresets.2.2
      simp only [step, hw, writeSecond, hflags, if_true, failWith_of_resets _ _ _ hresets,
        Option.some.injEq] at hs
      subst hs
      exact false_success_of_skipped_read hskip rfl
  | readBegin => exact absurd trivial hbreak
  | readIo result => exact absurd trivial hbreak
  | writeBegin call => exact absurd trivial hbreak
  | writeIo ok => exact absurd trivial hbreak

/-- The failed `Write` replaces the stream under the second `Read`. -/
theorem false_success_after_failed_write :
    ∃ s : State ℕ, exec step {} [.readBegin, .readIo none, .readEnd .ok, .readBegin,
        .writeBegin .write, .writeIo false] = some s ∧
      ∃ es t, exec step s es = some t ∧ ∃ r ∈ t.log, ¬ r.Genuine := by
  obtain ⟨s, hrun, hbreak, s', hs⟩ : ∃ s : State ℕ, exec step {} [.readBegin, .readIo none,
      .readEnd .ok, .readBegin, .writeBegin .write, .writeIo false] = some s ∧
      ¬ NoResetUnderSkip s (.writeEnd .ok) ∧ ∃ s', step s (.writeEnd .ok) = some s' :=
    ⟨_, rfl, not_not.mpr ⟨⟨_, _, rfl, rfl⟩, by decide⟩, _, rfl⟩
  obtain ⟨es, t, hrest, hlog⟩ := false_success_of_reset_under_skip hbreak hs
  exact ⟨s, hrun, .writeEnd .ok :: es, t, exec_cons_eq_some.mpr ⟨s', hs, hrest⟩, hlog⟩

end Converse

end ClusterAgentChannel
end HeypAgents
