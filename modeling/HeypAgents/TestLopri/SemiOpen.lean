import HeypAgents.Lib.Runs

/-!
# The semi-open load generator

`SemiOpenLoadGenerator` issues a request when it is due and fewer than `max_queued_writes_`
writes are in progress.  `MaybeIssueScheduleRequest` is called from the timer, from every
iteration of the event loop and at the end of every write, and again as long as it says so;
it asserts that its caller was waited for.

The model is over an arbitrary workload: what the requests and their delays are does not
matter, only that each request is a write that is in flight until it is called back.
-/

namespace HeypAgents
namespace TestLopri

inductive ReqStatus where
  | ok
  | tearingDown
deriving DecidableEq, Repr

/-- Timers have a precision of 10 us. -/
def deadlineExpired (hrNow hrDeadline : UInt64) : Bool := hrDeadline ≤ hrNow + 10000 / 2

structure Workload (σ : Type) where
  tryIssueRequest : UInt64 → σ → ReqStatus × σ
  nextDelay : σ → UInt64 × σ
  /-- The number of writes that have not been called back. -/
  inFlight : σ → ℕ
  inFlight_issued : ∀ t w, (tryIssueRequest t w).1 = .ok →
    inFlight (tryIssueRequest t w).2 = inFlight w + 1
  inFlight_tornDown : ∀ t w, (tryIssueRequest t w).1 = .tearingDown →
    inFlight (tryIssueRequest t w).2 = inFlight w
  inFlight_nextDelay : ∀ w, inFlight (nextDelay w).2 = inFlight w

inductive IssueCaller where
  | recheck
  | onWriteDone
  | onCheckNextReq
  | onTimerTick
deriving DecidableEq, Repr

def IssueCaller.toString : IssueCaller → String
  | .recheck => "Recheck"
  | .onWriteDone => "OnWriteDone"
  | .onCheckNextReq => "OnCheckNextReq"
  | .onTimerTick => "OnTimerTick"

/-- `outOfFuel` stands for a callback that is still running. -/
inductive Failure where
  | assertion (mesg : String)
  | outOfFuel
deriving DecidableEq, Repr

/-- The variables of the generator, the state of its libuv handles, and all values that
`num_wip_write_` has had. -/
structure SemiOpen (σ : Type) where
  world : σ
  hrScheduledTime : UInt64 := 0
  issuedFirstReq : Bool := false
  issuedScheduledReq : Bool := false
  timerIsRunning : Bool := false
  tearingDown : Bool := false
  numWipWrite : ℤ := 0
  timerActive : Bool := false
  checkActive : Bool := false
  wipValues : List ℤ := [0]

namespace SemiOpen

variable {σ : Type}

section Code

variable (wl : Workload σ) (max : ℤ)

def setNumWipWrite (s : SemiOpen σ) (n : ℤ) : SemiOpen σ :=
  { s with numWipWrite := n, wipValues := s.wipValues ++ [n] }

/-- The condition of both assertions. -/
def isWaiting (caller : IssueCaller) (s : SemiOpen σ) : Bool :=
  let waitingOnWipWrite :=
    if caller = .onWriteDone then decide (max - 1 ≤ s.numWipWrite) else s.numWipWrite == max
  let waitingOnTimer := s.timerIsRunning || caller == .onTimerTick
  waitingOnTimer || waitingOnWipWrite || caller == .recheck

def assertMesg (caller : IssueCaller) (s : SemiOpen σ) : String :=
  "caller_type = " ++ caller.toString ++ ", timer_is_running_ = " ++
    (if s.timerIsRunning then "1" else "0") ++ ", " ++ toString s.numWipWrite ++ "/" ++
    toString max ++ " queued writes"

def startIssuing (hrNow : UInt64) (s : SemiOpen σ) : SemiOpen σ :=
  { s with issuedFirstReq := true, hrScheduledTime := hrNow, checkActive := true }

def startTimer (s : SemiOpen σ) : SemiOpen σ :=
  if !s.timerIsRunning ∧ s.numWipWrite < max then
    { s with timerIsRunning := true, timerActive := true }
  else s

def stopTimer (s : SemiOpen σ) : SemiOpen σ :=
  if s.timerIsRunning then { s with timerIsRunning := false, timerActive := false } else s

def issueRequest (s : SemiOpen σ) : SemiOpen σ :=
  let (status, world) := wl.tryIssueRequest s.hrScheduledTime s.world
  let s := { s with world, issuedScheduledReq := true }
  match status with
  | .ok => s.setNumWipWrite (s.numWipWrite + 1)
  | .tearingDown => { s with tearingDown := true }

/-- A delay of `2 ^ 64 - 1` means never. -/
def scheduleNext (hrNow : UInt64) (caller : IssueCaller) (s : SemiOpen σ) : SemiOpen σ :=
  let baseTime := if caller = .onWriteDone then hrNow else s.hrScheduledTime
  let (delay, world) := wl.nextDelay s.world
  { s with
    world
    hrScheduledTime := if delay = 0xFFFFFFFFFFFFFFFF then delay else baseTime + delay
    issuedScheduledReq := false }

def issueDue (hrNow : UInt64) (caller : IssueCaller) (s : SemiOpen σ) : Bool × SemiOpen σ :=
  if !s.issuedScheduledReq ∧ s.numWipWrite = max then (false, s)
  else
    let s := (if s.issuedScheduledReq then s else s.issueRequest wl).stopTimer
    if s.tearingDown then (false, s)
    else
      let s := s.scheduleNext wl hrNow caller
      (s.numWipWrite < max, s)

def maybeIssueScheduleRequest (hrNow : UInt64) (caller : IssueCaller) (s : SemiOpen σ) :
    Except Failure (Bool × SemiOpen σ) :=
  if s.tearingDown then .ok (false, s)
  else
    let waiting := s.isWaiting max caller
    if s.issuedFirstReq && !waiting then .error (.assertion (s.assertMesg max caller))
    else
      let s := if s.issuedFirstReq then s else s.startIssuing hrNow
      if deadlineExpired hrNow s.hrScheduledTime then .ok (s.issueDue wl max hrNow caller)
      else if !waiting then .error (.assertion (s.assertMesg max caller))
      else .ok (false, s.startTimer max)

/-- `while (MaybeIssueScheduleRequest(hr_now, IssueCaller::Recheck))`. -/
def recheckLoop (hrNow : UInt64) : ℕ → SemiOpen σ → Except Failure (SemiOpen σ)
  | 0, _ => .error .outOfFuel
  | fuel + 1, s => do
      let (more, s) ← s.maybeIssueScheduleRequest wl max hrNow .recheck
      if more then recheckLoop hrNow fuel s else return s

def issueAll (hrNow : UInt64) (caller : IssueCaller) (s : SemiOpen σ) :
    Except Failure (SemiOpen σ) := do
  let (more, s) ← s.maybeIssueScheduleRequest wl max hrNow caller
  if more then s.recheckLoop wl max hrNow (max.toNat + 1) else return s

def onWriteDone (hrNow : UInt64) (s : SemiOpen σ) : Except Failure (SemiOpen σ) :=
  (s.setNumWipWrite (s.numWipWrite - 1)).issueAll wl max hrNow .onWriteDone

def onCheckNextReq (hrNow : UInt64) (s : SemiOpen σ) : Except Failure (SemiOpen σ) := do
  let s ← s.issueAll wl max hrNow .onCheckNextReq
  return if s.tearingDown then { s with checkActive := false } else s

/-- The timer does not repeat. -/
def onTimerTick (hrNow : UInt64) (s : SemiOpen σ) : Except Failure (SemiOpen σ) :=
  { s with timerIsRunning := false, timerActive := false }.issueAll wl max hrNow .onTimerTick

/-- The generator when `StartRequestLoop` has started its timer. -/
def start (world : σ) (hrScheduledTime : UInt64) : SemiOpen σ :=
  { world, hrScheduledTime, timerActive := true }

end Code

section Invariant

variable (wl : Workload σ) (max : ℤ)

structure Counts (s : SemiOpen σ) : Prop where
  inFlight_le : (wl.inFlight s.world : ℤ) ≤ s.numWipWrite
  le_max : s.numWipWrite ≤ max
  values : ∀ v ∈ s.wipValues, 0 ≤ v ∧ v ≤ max

/-- What holds before and after each call of `MaybeIssueScheduleRequest`. -/
structure Inv (s : SemiOpen σ) : Prop extends Counts wl max s where
  timer : s.timerActive = s.timerIsRunning
  scheduled : s.tearingDown = false → s.issuedScheduledReq = false

def Idle (s : SemiOpen σ) : Prop :=
  s.tearingDown = true ∨ s.timerIsRunning = true ∨ s.numWipWrite = max

variable {wl max} {s : SemiOpen σ}

theorem counts_setNumWipWrite {n : ℤ} (hinFlight : (wl.inFlight s.world : ℤ) ≤ n) (hn : n ≤ max)
    (hvalues : ∀ v ∈ s.wipValues, 0 ≤ v ∧ v ≤ max) :
    Counts wl max (s.setNumWipWrite n) := by
  refine ⟨hinFlight, hn, fun v hv => ?_⟩
  rcases List.mem_append.mp hv with hold | hnew
  · exact hvalues v hold
  · rw [List.mem_singleton.mp hnew]
    omega

theorem Counts.issueRequest (h : Counts wl max s)
    (hlt : s.numWipWrite < max) :
    Counts wl max (s.issueRequest wl) ∧
      ((s.issueRequest wl).tearingDown = true ∨
        (s.issueRequest wl).tearingDown = s.tearingDown ∧
          (s.issueRequest wl).numWipWrite = s.numWipWrite + 1) ∧
      (s.issueRequest wl).timerIsRunning = s.timerIsRunning ∧
      (s.issueRequest wl).timerActive = s.timerActive ∧
      (s.issueRequest wl).issuedFirstReq = s.issuedFirstReq := by
  have hinFlight := h.inFlight_le
  have hissued := wl.inFlight_issued s.hrScheduledTime s.world
  have htornDown := wl.inFlight_tornDown s.hrScheduledTime s.world
  rw [SemiOpen.issueRequest]
  generalize wl.tryIssueRequest s.hrScheduledTime s.world = r at hissued htornDown
  obtain ⟨status, world⟩ := r
  cases status with
  | ok =>
    have hone := hissued rfl
    have hle : s.numWipWrite + 1 ≤ max := by omega
    refine ⟨counts_setNumWipWrite ?_ hle h.values, Or.inr ⟨rfl, rfl⟩, rfl, rfl, rfl⟩
    simp only [hone]
    omega
  | tearingDown =>
    have hsame := htornDown rfl
    exact ⟨⟨by simp only [hsame]; exact hinFlight, h.le_max, h.values⟩, Or.inl rfl,
      rfl, rfl, rfl⟩

theorem Counts.stopTimer (h : Counts wl max s) (htimer : s.timerActive = s.timerIsRunning) :
    Counts wl max s.stopTimer ∧ s.stopTimer.timerActive = s.stopTimer.timerIsRunning ∧
      s.stopTimer.tearingDown = s.tearingDown ∧ s.stopTimer.numWipWrite = s.numWipWrite ∧
      s.stopTimer.issuedFirstReq = s.issuedFirstReq := by
  rw [SemiOpen.stopTimer]
  split_ifs
  · exact ⟨⟨h.inFlight_le, h.le_max, h.values⟩, rfl, rfl, rfl, rfl⟩
  · exact ⟨h, htimer, rfl, rfl, rfl⟩

theorem Counts.scheduleNext (h : Counts wl max s) (hrNow : UInt64)
    (caller : IssueCaller) : Counts wl max (s.scheduleNext wl hrNow caller) := by
  refine ⟨?_, h.le_max, h.values⟩
  have hsame := wl.inFlight_nextDelay s.world
  have hinFlight := h.inFlight_le
  simp only [SemiOpen.scheduleNext, hsame]
  exact hinFlight

theorem Inv.issueDue (h : Inv wl max s) (hup : s.tearingDown = false)
    (hrNow : UInt64) (caller : IssueCaller) :
    ∃ more s', s.issueDue wl max hrNow caller = (more, s') ∧ Inv wl max s' ∧
      s'.issuedFirstReq = s.issuedFirstReq ∧
      (more = true → s'.numWipWrite = s.numWipWrite + 1) ∧ (more = false → s'.Idle max) := by
  have hnot := h.scheduled hup
  rw [SemiOpen.issueDue]
  by_cases hfull : s.numWipWrite = max
  · rw [if_pos ⟨by simp [hnot], hfull⟩]
    exact ⟨false, s, rfl, h, rfl, by simp, fun _ => Or.inr (Or.inr hfull)⟩
  · have hlt : s.numWipWrite < max := lt_of_le_of_ne h.le_max hfull
    rw [if_neg (fun hand => hfull hand.2), hnot]
    simp only [Bool.false_eq_true, if_false]
    obtain ⟨hcounts, hstatus, hrunning, hactive, hfirst⟩ := h.toCounts.issueRequest hlt
    have htimer : (s.issueRequest wl).timerActive = (s.issueRequest wl).timerIsRunning := by
      rw [hactive, hrunning, h.timer]
    obtain ⟨hcounts', htimer', hdown, hwip, hfirst'⟩ := hcounts.stopTimer htimer
    generalize (s.issueRequest wl).stopTimer = r at hcounts' htimer' hdown hwip hfirst'
    rw [hfirst] at hfirst'
    by_cases htorn : r.tearingDown = true
    · rw [if_pos htorn]
      exact ⟨false, r, rfl, ⟨hcounts', htimer', by simp [htorn]⟩, hfirst', by simp,
        fun _ => Or.inl htorn⟩
    · have hwip' : r.numWipWrite = s.numWipWrite + 1 := by
        rcases hstatus with htrue | ⟨-, hone⟩
        · exact absurd (hdown.trans htrue) htorn
        · rw [hwip, hone]
      rw [if_neg htorn]
      refine ⟨_, _, rfl, ⟨hcounts'.scheduleNext hrNow caller, htimer', fun _ => rfl⟩, hfirst',
        fun _ => hwip', fun hmore => ?_⟩
      have hle := hcounts'.le_max
      have hge : ¬ r.numWipWrite < max := of_decide_eq_false hmore
      exact Or.inr (Or.inr (show r.numWipWrite = max by omega))

theorem Inv.startIssuing (h : Inv wl max s) (hrNow : UInt64) :
    Inv wl max (s.startIssuing hrNow) :=
  ⟨⟨h.inFlight_le, h.le_max, h.values⟩, h.timer, h.scheduled⟩

theorem Inv.startTimer (h : Inv wl max s) :
    Inv wl max (s.startTimer max) ∧ (s.startTimer max).Idle max ∧
      (s.startTimer max).issuedFirstReq = s.issuedFirstReq := by
  have hle := h.le_max
  rw [SemiOpen.startTimer]
  split_ifs with hstart
  · exact ⟨⟨⟨h.inFlight_le, h.le_max, h.values⟩, rfl, h.scheduled⟩,
      Or.inr (Or.inl rfl), rfl⟩
  · refine ⟨h, ?_, rfl⟩
    by_cases hrunning : s.timerIsRunning = true
    · exact Or.inr (Or.inl hrunning)
    · have hnot : ¬ s.numWipWrite < max := fun hlt => hstart ⟨by simpa using hrunning, hlt⟩
      exact Or.inr (Or.inr (by omega))

/-- A call that was waited for passes the assertions and keeps the invariant. -/
theorem Inv.maybeIssueScheduleRequest (h : Inv wl max s)
    (hrNow : UInt64) (caller : IssueCaller)
    (hfirst : s.tearingDown = false ∨ s.issuedFirstReq = true)
    (hwaiting : s.tearingDown = true ∨ s.isWaiting max caller = true) :
    ∃ more s', s.maybeIssueScheduleRequest wl max hrNow caller = .ok (more, s') ∧
      Inv wl max s' ∧ s'.issuedFirstReq = true ∧
      (more = true → s'.numWipWrite = s.numWipWrite + 1) ∧ (more = false → s'.Idle max) := by
  rw [SemiOpen.maybeIssueScheduleRequest]
  by_cases hdown : s.tearingDown = true
  · rw [if_pos hdown]
    exact ⟨false, s, rfl, h, hfirst.resolve_left (by simp [hdown]), by simp, fun _ => Or.inl hdown⟩
  · have hwait : s.isWaiting max caller = true := hwaiting.resolve_left hdown
    have hup : s.tearingDown = false := by simpa using hdown
    rw [if_neg hdown, hwait]
    simp only [Bool.not_true, Bool.and_false, Bool.false_eq_true, if_false]
    obtain ⟨r, hr, hinv, hrdown, hrwip, hrfirst⟩ : ∃ r, r = (if s.issuedFirstReq = true then s
        else s.startIssuing hrNow) ∧ Inv wl max r ∧ r.tearingDown = false ∧
        r.numWipWrite = s.numWipWrite ∧ r.issuedFirstReq = true := by
      refine ⟨_, rfl, ?_⟩
      split_ifs with hfirst
      · exact ⟨h, hup, rfl, hfirst⟩
      · exact ⟨h.startIssuing hrNow, hup, rfl, rfl⟩
    rw [← hr]
    split_ifs with hdue
    · obtain ⟨more, s', heq, hinv', hfirst', hmore, hidle⟩ := hinv.issueDue hrdown hrNow caller
      rw [heq]
      exact ⟨more, s', rfl, hinv', hfirst'.trans hrfirst,
        fun h => (hmore h).trans (by rw [hrwip]), hidle⟩
    · obtain ⟨hinv', hidle, hfirst'⟩ := hinv.startTimer
      exact ⟨false, _, rfl, hinv', hfirst'.trans hrfirst, by simp, fun _ => hidle⟩

structure Between (wl : Workload σ) (max : ℤ) (s : SemiOpen σ) : Prop
    extends Inv wl max s where
  first : s.issuedFirstReq = true
  idle : s.Idle max

theorem Inv.recheckLoop (hrNow : UInt64) {fuel : ℕ} (h : Inv wl max s)
    (hfuel : max - s.numWipWrite < fuel) (hfirst : s.issuedFirstReq = true) :
    ∃ s', s.recheckLoop wl max hrNow fuel = .ok s' ∧ Between wl max s' := by
  induction fuel generalizing s with
  | zero =>
    have hle := h.le_max
    omega
  | succ fuel ih =>
    obtain ⟨more, s', heq, hinv, hfirst', hmore, hidle⟩ :=
      h.maybeIssueScheduleRequest hrNow .recheck (Or.inr hfirst) (Or.inr (by simp [isWaiting]))
    rw [SemiOpen.recheckLoop, heq]
    cases more with
    | true =>
      have hwip := hmore rfl
      exact ih hinv (by omega) hfirst'
    | false => exact ⟨s', rfl, hinv, hfirst', hidle rfl⟩

theorem Inv.issueAll (h : Inv wl max s) (hrNow : UInt64)
    (caller : IssueCaller) (hfirst : s.tearingDown = false ∨ s.issuedFirstReq = true)
    (hwaiting : s.tearingDown = true ∨ s.isWaiting max caller = true) :
    ∃ s', s.issueAll wl max hrNow caller = .ok s' ∧ Between wl max s' := by
  obtain ⟨more, s', heq, hinv, hfirst', hmore, hidle⟩ :=
    h.maybeIssueScheduleRequest hrNow caller hfirst hwaiting
  rw [SemiOpen.issueAll, heq]
  cases more with
  | true =>
    have hinFlight := hinv.inFlight_le
    exact hinv.recheckLoop hrNow (by omega) hfirst'
  | false => exact ⟨s', rfl, hinv, hfirst', hidle rfl⟩

structure AtStart (wl : Workload σ) (s : SemiOpen σ) : Prop where
  eq_start : s = start s.world s.hrScheduledTime
  inFlight : wl.inFlight s.world = 0

theorem Inv.onTimerTick
    (h : Inv wl max { s with timerIsRunning := false, timerActive := false })
    (hfirst : s.tearingDown = false ∨ s.issuedFirstReq = true) (hrNow : UInt64) :
    ∃ s', s.onTimerTick wl max hrNow = .ok s' ∧ Between wl max s' :=
  h.issueAll hrNow .onTimerTick hfirst (Or.inr (by simp [isWaiting]))

theorem AtStart.onTimerTick (hmax : 0 ≤ max) (h : AtStart wl s)
    (hrNow : UInt64) : ∃ s', s.onTimerTick wl max hrNow = .ok s' ∧ Between wl max s' := by
  have hinFlight := h.inFlight
  have hvalues : ∀ v ∈ ([0] : List ℤ), 0 ≤ v ∧ v ≤ max := by
    intro v hv
    rw [List.mem_singleton.mp hv]
    exact ⟨le_rfl, hmax⟩
  have hinv : Inv wl max { start s.world s.hrScheduledTime with
      timerIsRunning := false, timerActive := false } :=
    ⟨⟨by simp [start, hinFlight], hmax, hvalues⟩, rfl, fun _ => rfl⟩
  rw [h.eq_start]
  exact hinv.onTimerTick (Or.inl rfl) hrNow

theorem Between.onTimerTick (h : Between wl max s) (hrNow : UInt64) :
    ∃ s', s.onTimerTick wl max hrNow = .ok s' ∧ Between wl max s' :=
  Inv.onTimerTick ⟨⟨h.inFlight_le, h.le_max, h.values⟩, rfl, h.scheduled⟩
    (Or.inr h.first) hrNow

theorem Between.onCheckNextReq (h : Between wl max s) (hrNow : UInt64) :
    ∃ s', s.onCheckNextReq wl max hrNow = .ok s' ∧ Between wl max s' := by
  have hwaiting : s.tearingDown = true ∨ s.isWaiting max .onCheckNextReq = true := by
    rcases h.idle with hdown | hrunning | hfull
    · exact Or.inl hdown
    · exact Or.inr (by simp [isWaiting, hrunning])
    · exact Or.inr (by simp [isWaiting, hfull])
  obtain ⟨s', heq, hs'⟩ := h.toInv.issueAll hrNow .onCheckNextReq (Or.inr h.first) hwaiting
  refine ⟨if s'.tearingDown then { s' with checkActive := false } else s', ?_, ?_⟩
  · rw [SemiOpen.onCheckNextReq, heq]
    rfl
  · split_ifs
    · exact ⟨⟨⟨hs'.inFlight_le, hs'.le_max, hs'.values⟩, hs'.timer, hs'.scheduled⟩,
        hs'.first, hs'.idle⟩
    · exact hs'

theorem Between.onWriteDone (h : Between wl max s) (hrNow : UInt64)
    {world : σ} (hdone : wl.inFlight world + 1 = wl.inFlight s.world) :
    ∃ s', { s with world }.onWriteDone wl max hrNow = .ok s' ∧ Between wl max s' := by
  have hinFlight := h.inFlight_le
  have hle := h.le_max
  refine Inv.issueAll
    ⟨@counts_setNumWipWrite _ wl max { s with world } _ (by simp only; omega)
      (by simp only; omega) h.values, h.timer, h.scheduled⟩
    hrNow .onWriteDone (Or.inr h.first) ?_
  rcases h.idle with hdown | hrunning | hfull
  · exact Or.inl hdown
  · exact Or.inr (by simp [isWaiting, setNumWipWrite, hrunning])
  · exact Or.inr (by simp [isWaiting, setNumWipWrite, hfull])

theorem Between.setWorld (h : Between wl max s) {world : σ}
    (hle : wl.inFlight world ≤ wl.inFlight s.world) :
    Between wl max { s with world } := by
  have hinFlight := h.inFlight_le
  exact ⟨⟨⟨by simp only; omega, h.le_max, h.values⟩, h.timer, h.scheduled⟩, h.first, h.idle⟩

end Invariant

section Runs

inductive Event (σ : Type) where
  | timerTick (hrNow : UInt64)
  | check (hrNow : UInt64)
  | writeDone (hrNow : UInt64) (world : σ)
  | environment (world : σ)

def step (wl : Workload σ) (max : ℤ) :
    Except Failure (SemiOpen σ) → Event σ → Option (Except Failure (SemiOpen σ))
  | .error _, _ => none
  | .ok s, .timerTick hrNow => if s.timerActive then some (s.onTimerTick wl max hrNow) else none
  | .ok s, .check hrNow => if s.checkActive then some (s.onCheckNextReq wl max hrNow) else none
  | .ok s, .writeDone hrNow world =>
    if wl.inFlight world + 1 = wl.inFlight s.world then
      some ({ s with world }.onWriteDone wl max hrNow)
    else none
  | .ok s, .environment world =>
    if wl.inFlight world ≤ wl.inFlight s.world then some (.ok { s with world }) else none

variable {wl : Workload σ} {max : ℤ}

/-- The states between callbacks. -/
def Good (wl : Workload σ) (max : ℤ) (r : Except Failure (SemiOpen σ)) : Prop :=
  ∃ s, r = .ok s ∧ (AtStart wl s ∨ Between wl max s)

theorem good_step (hmax : 0 ≤ max) {r r' : Except Failure (SemiOpen σ)} {e : Event σ}
    (h : Good wl max r) (hstep : step wl max r e = some r') : Good wl max r' := by
  obtain ⟨s, rfl, hs⟩ := h
  cases e with
  | timerTick hrNow =>
    have hnext : ∃ s', s.onTimerTick wl max hrNow = .ok s' ∧ Between wl max s' :=
      hs.elim (fun hs => hs.onTimerTick hmax hrNow) (fun hs => hs.onTimerTick hrNow)
    obtain ⟨s', heq, hs'⟩ := hnext
    by_cases hactive : s.timerActive = true
    · obtain rfl : Except.ok s' = r' := by simpa [step, hactive, heq] using hstep
      exact ⟨s', rfl, Or.inr hs'⟩
    · simp [step, hactive] at hstep
  | check hrNow =>
    by_cases hactive : s.checkActive = true
    · rcases hs with hs | hs
      · rw [hs.eq_start] at hactive
        cases hactive
      · obtain ⟨s', heq, hs'⟩ := hs.onCheckNextReq hrNow
        obtain rfl : Except.ok s' = r' := by simpa [step, hactive, heq] using hstep
        exact ⟨s', rfl, Or.inr hs'⟩
    · simp [step, hactive] at hstep
  | writeDone hrNow world =>
    by_cases hdone : wl.inFlight world + 1 = wl.inFlight s.world
    · rcases hs with hs | hs
      · have hzero := hs.inFlight
        omega
      · obtain ⟨s', heq, hs'⟩ := hs.onWriteDone hrNow hdone
        obtain rfl : Except.ok s' = r' := by simpa [step, hdone, heq] using hstep
        exact ⟨s', rfl, Or.inr hs'⟩
    · simp [step, hdone] at hstep
  | environment world =>
    by_cases hle : wl.inFlight world ≤ wl.inFlight s.world
    · obtain rfl : Except.ok { s with world } = r' := by simpa [step, hle] using hstep
      refine ⟨_, rfl, hs.imp (fun hs => ⟨?_, ?_⟩) fun hs => hs.setWorld hle⟩
      · rw [hs.eq_start]
        rfl
      · have hzero := hs.inFlight
        simp only
        omega
    · simp [step, hle] at hstep

/--
In every run the assertions hold and the callbacks return, the number of writes in progress
never leaves its bounds, and between callbacks the timer runs or the queue is full, until
the generator is torn down.
-/
theorem run_safe (wl : Workload σ) (max : ℕ) {world : σ} (hworld : wl.inFlight world = 0)
    (hrScheduledTime : UInt64) {events : List (Event σ)} {r : Except Failure (SemiOpen σ)}
    (hrun : Runs.exec (step wl max) (.ok (start world hrScheduledTime)) events = some r) :
    ∃ s, r = .ok s ∧ (∀ v ∈ s.wipValues, 0 ≤ v ∧ v ≤ max) ∧
      0 ≤ s.numWipWrite ∧ s.numWipWrite ≤ max ∧
      (s.tearingDown = false → s.timerActive = true ∨ s.numWipWrite = max) := by
  have hmax : (0 : ℤ) ≤ max := Int.natCast_nonneg max
  have hgood : Good wl max r := Runs.exec_invariant (fun _ _ _ h hstep => good_step hmax h hstep)
    ⟨_, rfl, Or.inl ⟨rfl, hworld⟩⟩ hrun
  obtain ⟨s, rfl, hs | hs⟩ := hgood
  · rw [hs.eq_start]
    refine ⟨_, rfl, fun v hv => ?_, le_rfl, hmax, fun _ => Or.inl rfl⟩
    rw [List.mem_singleton.mp hv]
    exact ⟨le_rfl, hmax⟩
  · have hinFlight := hs.inFlight_le
    refine ⟨s, rfl, hs.values, by omega, hs.le_max, fun hup => ?_⟩
    rcases hs.idle with hdown | hrunning | hfull
    · simp [hup] at hdown
    · exact Or.inl (hs.timer.trans hrunning)
    · exact Or.inr hfull

/-- Requests without end, one after the other at the same delay; the world is the number of
writes in flight. -/
def steadyWorkload (delay : UInt64) : Workload ℕ where
  tryIssueRequest _ n := (.ok, n + 1)
  nextDelay n := (delay, n)
  inFlight n := n
  inFlight_issued _ _ _ := rfl
  inFlight_tornDown _ _ h := by cases h
  inFlight_nextDelay _ := rfl

def steadyEvents : List (Event ℕ) :=
  [.timerTick 0, .writeDone 7000 1, .check 9000, .writeDone 9000 1]

theorem run_safe_steadyWorkload :
    ∃ r, Runs.exec (step (steadyWorkload 1000) (2 : ℕ)) (.ok (start 0 0)) steadyEvents = some r ∧
      ∃ s, r = .ok s ∧ (∀ v ∈ s.wipValues, 0 ≤ v ∧ v ≤ (2 : ℕ)) ∧
        0 ≤ s.numWipWrite ∧ s.numWipWrite ≤ (2 : ℕ) ∧
        (s.tearingDown = false → s.timerActive = true ∨ s.numWipWrite = (2 : ℕ)) := by
  have hsome : (Runs.exec (step (steadyWorkload 1000) (2 : ℕ)) (.ok (start 0 0))
      steadyEvents).isSome = true := by decide
  obtain ⟨r, hr⟩ := Option.isSome_iff_exists.mp hsome
  exact ⟨r, hr, run_safe (steadyWorkload 1000) 2 rfl 0 hr⟩

end Runs

end SemiOpen
end TestLopri
end HeypAgents
