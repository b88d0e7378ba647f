import HeypAgents.EvalLoss.EventLoop
import Mathlib.Data.String.Basic

/-!
# Replaying host logs for the loss detector

The replay hands every event to `evalEventProducer.MaybeAddNext`, which keeps the last
bundle of each host in one slice and from time to time gives `Evaluator.Process` a snapshot.
The evaluator keeps the last four snapshots in a ring and calls the loss detector for the
oldest one when three later ones have arrived.

A snapshot holds a reference to the slice, not its contents.  Slices are therefore modelled
as addresses of a memory, and the contents are read where the code reads them.  The detector
is handed the bundles of the event at which it is called, three snapshots too late; the main
result says for which event sequences this makes no difference.
-/

namespace HeypAgents
namespace EvalLoss

variable {B : Type*}

structure FGAdmissions where
  hipri : ℚ
  lopri : ℚ
deriving DecidableEq, Repr

structure FortioDemandSnapshot where
  unixSec : ℚ
  fgDemand : List (String × ℚ)
deriving DecidableEq, Repr

/-- The data of an event; `other` is any value the producer does not know. -/
inductive Payload (B : Type*) where
  | idInfoBundle (readerID : ℕ) (bundle : B)
  | fortio (snap : FortioDemandSnapshot)
  | eval
  | other
deriving DecidableEq, Repr

abbrev ReplayEvent (B : Type*) := Event ℚ (Payload B)

abbrev Slices (B : Type*) := List (List (Option B))

def Slices.read (mem : Slices B) : Option ℕ → List (Option B)
  | none => []
  | some addr => (mem[addr]?).getD []

structure EvalSnap (B : Type*) where
  unixSec : ℚ := 0
  hostInfos : Option ℕ := none
  fortio : Option FortioDemandSnapshot := none
  history : List (ReplayEvent B) := []

structure LossDetectorArgs (B : Type*) where
  unixSec : ℚ
  hostInfos : List (Option B)
  admissions : List (String × FGAdmissions)
  fgs : List String

structure LossMetrics where
  avg : ℚ
  avgHIPRI : ℚ
  avgLOPRI : ℚ

/-- A line of the output; a score that is not a number is `none`. -/
structure Row where
  unixSec : ℚ
  fg : String
  detectedLoss : Bool
  score : Option ℚ
  loss : LossMetrics

/-- One call of the writer. -/
structure Chunk where
  header : Bool
  rows : List Row

/-- What an evaluator is made with.  `detect` is what the loss detector leaves in its two
output slices, and `write` the error of the writer's calls in order. -/
structure Config (B : Type*) where
  admissions : List (String × FGAdmissions)
  nodup : (admissions.map Prod.fst).Nodup
  capacity : ℚ
  detect : LossDetectorArgs B → ℕ → Bool × Option ℚ
  write : ℕ → Option String

structure Detection (B : Type*) where
  snap : EvalSnap B
  args : LossDetectorArgs B

def numLookaheadSnaps : ℕ := 3

structure Evaluator (B : Type*) where
  fgs : List String := []
  err : Option String := none
  printedHeader : Bool := false
  snaps : Vector (EvalSnap B) 4 := Vector.replicate 4 {}
  snapLen : ℕ := 0
  written : List Chunk := []
  detections : List (Detection B) := []

namespace Evaluator

def pushSnap (e : Evaluator B) (s : EvalSnap B) : Evaluator B :=
  { e with snaps := e.snaps.set (e.snapLen % 4) s (Nat.mod_lt _ (by omega)),
           snapLen := e.snapLen + 1 }

def getSnap (e : Evaluator B) (i : ℕ) : EvalSnap B :=
  have : (e.snapLen + i) % 4 < 4 := Nat.mod_lt _ (by omega)
  e.snaps[(e.snapLen + i) % 4]

def canEval (e : Evaluator B) : Bool := 4 ≤ e.snapLen

def initFGs (cfg : Config B) (e : Evaluator B) : Evaluator B :=
  if e.fgs.length = 0 then
    { e with fgs := (cfg.admissions.map Prod.fst).insertionSort (· ≤ ·) }
  else e

def admitted (cfg : Config B) (demand : List (String × ℚ)) : ℚ × ℚ :=
  demand.foldl (fun total d =>
    let admissions := (cfg.admissions.lookup d.1).getD ⟨0, 0⟩
    let admittedHIPRI := min d.2 admissions.hipri
    let admittedLOPRI := min (d.2 - admittedHIPRI) admissions.lopri
    (total.1 + admittedHIPRI, total.2 + admittedLOPRI)) (0, 0)

/-- The average loss of the snapshots after the evaluated one; `none` where the code
follows a nil pointer. -/
def computeLossOverLookahead (cfg : Config B) (e : Evaluator B) : Option LossMetrics := do
  let losses ← (List.range numLookaheadSnaps).mapM fun i => do
    let fortio ← (e.getSnap (i + 1)).fortio
    let (totalHIPRI, totalLOPRI) := admitted cfg fortio.fgDemand
    let loss := totalHIPRI + totalLOPRI - cfg.capacity
    let lossLOPRI := min loss totalLOPRI
    pure (loss, loss - lossLOPRI, lossLOPRI)
  pure { avg := (losses.map fun l => l.1).sum / numLookaheadSnaps
         avgHIPRI := (losses.map fun l => l.2.1).sum / numLookaheadSnaps
         avgLOPRI := (losses.map fun l => l.2.2).sum / numLookaheadSnaps }

def detectorArgs (cfg : Config B) (mem : Slices B) (e : Evaluator B) : LossDetectorArgs B :=
  let s := e.getSnap 0
  { unixSec := s.unixSec, hostInfos := mem.read s.hostInfos, admissions := cfg.admissions,
    fgs := e.fgs }

def rows (cfg : Config B) (mem : Slices B) (e : Evaluator B) (loss : LossMetrics) : List Row :=
  e.fgs.mapIdx fun i fg =>
    let result := cfg.detect (e.detectorArgs cfg mem) i
    { unixSec := (e.getSnap 0).unixSec, fg := fg, detectedLoss := result.1, score := result.2,
      loss := loss }

/-- `Process`; `none` where the code panics. -/
def process (cfg : Config B) (mem : Slices B) (e : Evaluator B) (s : EvalSnap B) :
    Option (Evaluator B) :=
  if e.err.isSome then some e
  else
    let e := (e.initFGs cfg).pushSnap s
    if !e.canEval then some e
    -- The bounds check on the scores fails if there are no flow groups.
    else if e.fgs.length = 0 then none
    else
      (e.computeLossOverLookahead cfg).map fun loss =>
        { e with
          detections := e.detections ++ [⟨e.getSnap 0, e.detectorArgs cfg mem⟩]
          written := e.written ++ [⟨!e.printedHeader, e.rows cfg mem loss⟩]
          printedHeader := true
          err := cfg.write e.written.length }

end Evaluator

structure EvalEventProducer where
  hostAgentInfos : ℕ
  fortioDemandSnap : Option FortioDemandSnapshot := none
  shouldEval : Bool := true

/-- The memory, the producer with its evaluator, the event loop, and the events handled so
far as a ghost. -/
structure Replay (B : Type*) where
  mem : Slices B
  eval : Evaluator B := {}
  producer : EvalEventProducer
  loop : Loop ℚ (Payload B) := {}
  history : List (ReplayEvent B) := []

/-- `newEvalEventProducer` makes the slice. -/
def newEvalEventProducer (mem : Slices B) (numHostInfos : ℕ) : Replay B :=
  { mem := mem ++ [List.replicate numHostInfos none],
    producer := { hostAgentInfos := mem.length } }

namespace Replay

def sawHostInfosAndFortioDemand (r : Replay B) : Bool :=
  r.producer.fortioDemandSnap.isSome &&
    (r.mem.read (some r.producer.hostAgentInfos)).all Option.isSome

/-- What the event itself changes; `none` where the index of the host is out of range. -/
def observe (r : Replay B) (curEv : ReplayEvent B) : Option (Replay B) :=
  let r := { r with history := r.history ++ [curEv] }
  match curEv.data with
  | .idInfoBundle readerID bundle =>
    if readerID < (r.mem.read (some r.producer.hostAgentInfos)).length then
      some { r with mem := r.mem.modify r.producer.hostAgentInfos (·.set readerID (some bundle)) }
    else none
  | .fortio snap =>
    some { r with producer := { r.producer with fortioDemandSnap := some snap } }
  | .eval => some { r with producer := { r.producer with shouldEval := true } }
  | .other => some r

def evaluate (cfg : Config B) (r : Replay B) (curEv : ReplayEvent B) (hostAndFortioDone : Bool) :
    Option (Replay B) :=
  (r.eval.process cfg r.mem
    { unixSec := curEv.unixSec, hostInfos := some r.producer.hostAgentInfos,
      fortio := r.producer.fortioDemandSnap, history := r.history }).map fun eval =>
    { r with
      eval := eval
      loop := if hostAndFortioDone then r.loop else r.loop.addEv ⟨curEv.unixSec + 5, .eval⟩
      producer := { r.producer with shouldEval := false } }

def maybeAddNext (cfg : Config B) (r : Replay B) (input : ReplayEvent B × Bool) :
    Option (Replay B) :=
  (r.observe input.1).bind fun r' =>
    match input.1.data with
    | .other => some r'
    | _ =>
      if r'.producer.shouldEval && r'.sawHostInfosAndFortioDemand then
        r'.evaluate cfg input.1 input.2
      else some r'

end Replay

section History

def bundleOf (host : ℕ) (ev : ReplayEvent B) : Option B :=
  match ev.data with
  | .idInfoBundle readerID bundle => if readerID = host then some bundle else none
  | _ => none

def fortioOf (ev : ReplayEvent B) : Option FortioDemandSnapshot :=
  match ev.data with
  | .fortio snap => some snap
  | _ => none

/-- For each of `n` hosts its last bundle. -/
def lastBundles (n : ℕ) (evs : List (ReplayEvent B)) : List (Option B) :=
  (List.range n).map fun host => (evs.filterMap (bundleOf host)).getLast?

/-- The latest Fortio demands among the events. -/
def lastFortio (evs : List (ReplayEvent B)) : Option FortioDemandSnapshot :=
  (evs.filterMap fortioOf).getLast?

/-- Fortio and every host have been heard of. -/
def ready (n : ℕ) (evs : List (ReplayEvent B)) : Bool :=
  (lastFortio evs).isSome && (lastBundles n evs).all Option.isSome

/-- A snapshot is due after the last event: the inputs are complete, and either they have
just become so or an evaluation event asks for it. -/
def snapshotDue (n : ℕ) (evs : List (ReplayEvent B)) : Bool :=
  ready n evs && (evs.getLast?.any (fun ev => ev.data matches .eval) || !ready n evs.dropLast)

/-- The histories at which snapshots are due. -/
def snapshots (n : ℕ) (evs : List (ReplayEvent B)) : List (List (ReplayEvent B)) :=
  evs.inits.filter (snapshotDue n)

variable {n : ℕ} {evs : List (ReplayEvent B)} {ev : ReplayEvent B}

theorem snapshots_concat :
    snapshots n (evs ++ [ev]) =
      snapshots n evs ++ if snapshotDue n (evs ++ [ev]) then [evs ++ [ev]] else [] := by
  unfold snapshots
  rw [List.inits_append, List.filter_append]
  congr 1
  cases hdue : snapshotDue n (evs ++ [ev]) <;> simp [hdue]

theorem snapshotDue_concat :
    snapshotDue n (evs ++ [ev]) =
      (ready n (evs ++ [ev]) && ((ev.data matches .eval) || !ready n evs)) := by
  simp [snapshotDue]

theorem lastFortio_concat : lastFortio (evs ++ [ev]) = (fortioOf ev <|> lastFortio evs) := by
  unfold lastFortio
  cases hev : fortioOf ev <;> simp [List.filterMap_append, hev]

theorem lastBundles_concat_of_ne (hev : ∀ host, bundleOf host ev = none) :
    lastBundles n (evs ++ [ev]) = lastBundles n evs := by
  unfold lastBundles
  simp [List.filterMap_append, hev]

theorem lastBundles_concat_bundle {readerID : ℕ} {bundle : B}
    (hev : ev.data = .idInfoBundle readerID bundle) :
    lastBundles n (evs ++ [ev]) = (lastBundles n evs).set readerID (some bundle) := by
  refine List.ext_getElem (by simp [lastBundles]) fun host h₁ h₂ => ?_
  rw [List.getElem_set]
  by_cases hhost : readerID = host <;>
    simp [lastBundles, List.filterMap_append, bundleOf, hev, hhost]

end History

variable {e : Evaluator B}

section Processing

variable {cfg : Config B} {mem : Slices B} {n addr : ℕ} {points : List (List (ReplayEvent B))}

/-- The evaluator has taken the snapshots of `points` up to the first failed write.  It holds
the last four, all with the same slice, and has called the detector for a snapshot with the
bundles at the third snapshot after it. -/
structure Evaluator.Inv (cfg : Config B) (n addr : ℕ) (points : List (List (ReplayEvent B)))
    (e : Evaluator B) : Prop where
  ring : ∀ j, j < e.snapLen → e.snapLen ≤ j + 4 → ∃ snap, e.snaps[j % 4]? = some snap ∧
    points[j]? = some snap.history ∧ snap.hostInfos = some addr
  detections : e.detections.map (fun d => (some d.snap.history, some d.args.hostInfos)) =
    (List.range (e.snapLen - 3)).map fun k =>
      (points[k]?, (points[k + 3]?).map (lastBundles n))
  written : e.written.length = e.snapLen - 3
  writes : ∀ j, j + 4 < e.snapLen → cfg.write j = none
  err : e.err = if 4 ≤ e.snapLen then cfg.write (e.snapLen - 4) else none
  bounded : e.snapLen ≤ points.length
  complete : e.err = none → e.snapLen = points.length

theorem Evaluator.inv_start : Evaluator.Inv cfg n addr [] ({} : Evaluator B) where
  ring j hj := absurd hj (Nat.not_lt_zero j)
  detections := rfl
  written := rfl
  writes _ hj := absurd hj (Nat.not_lt_zero _)
  err := rfl
  bounded := le_rfl
  complete _ := rfl

variable {s : EvalSnap B}

theorem Evaluator.process_cases {e e' : Evaluator B} (herr : e.err = none)
    (h : e.process cfg mem s = some e') :
    e'.snapLen = e.snapLen + 1 ∧ e'.snaps = (e.pushSnap s).snaps ∧
      ((e.snapLen + 1 < 4 ∧ e'.err = none ∧ e'.written = e.written ∧ e'.detections = e.detections) ∨
        (4 ≤ e.snapLen + 1 ∧ e'.err = cfg.write e.written.length ∧
          e'.written.length = e.written.length + 1 ∧
          ∃ args : LossDetectorArgs B,
            args.hostInfos = mem.read ((e.pushSnap s).getSnap 0).hostInfos ∧
            e'.detections = e.detections ++ [⟨(e.pushSnap s).getSnap 0, args⟩])) := by
  have hinit : e.initFGs cfg = { e with fgs := (e.initFGs cfg).fgs } := by
    unfold Evaluator.initFGs
    split_ifs <;> rfl
  generalize (e.initFGs cfg).fgs = fgs at hinit
  simp only [Evaluator.process, herr, Option.isSome_none, Bool.false_eq_true, if_false,
    Bool.not_eq_true', hinit] at h
  split_ifs at h with hcan hfgs
  · cases h
    have hlen : ¬ 4 ≤ e.snapLen + 1 := of_decide_eq_false hcan
    exact ⟨rfl, rfl, .inl ⟨by omega, rfl, rfl, rfl⟩⟩
  · obtain ⟨loss, -, rfl⟩ := Option.map_eq_some_iff.mp h
    have hlen : 4 ≤ e.snapLen + 1 := of_decide_eq_true (Bool.of_not_eq_false hcan)
    refine ⟨rfl, rfl, .inr ⟨hlen, rfl, by simp [Evaluator.pushSnap], _, ?_, rfl⟩⟩
    rfl

theorem Evaluator.Inv.detections_append (h : e.Inv cfg n addr points)
    (hist : List (ReplayEvent B)) :
    e.detections.map (fun d => (some d.snap.history, some d.args.hostInfos)) =
      (List.range (e.snapLen - 3)).map fun k =>
        ((points ++ [hist])[k]?, ((points ++ [hist])[k + 3]?).map (lastBundles n)) := by
  rw [h.detections]
  refine List.map_congr_left fun k hk => ?_
  have hk' := List.mem_range.mp hk
  have hbound := h.bounded
  rw [List.getElem?_append_left (by omega), List.getElem?_append_left (by omega)]

theorem Evaluator.Inv.ring_append (h : e.Inv cfg n addr points)
    (hist : List (ReplayEvent B)) {j : ℕ} (hj : j < e.snapLen) (hlast : e.snapLen ≤ j + 4) :
    ∃ snap, e.snaps[j % 4]? = some snap ∧ (points ++ [hist])[j]? = some snap.history ∧
      snap.hostInfos = some addr := by
  obtain ⟨snap, hsnap, hpoint, hinfos⟩ := h.ring j hj hlast
  exact ⟨snap, hsnap, by rw [List.getElem?_append_left (hj.trans_le h.bounded), hpoint], hinfos⟩

theorem Evaluator.Inv.failed (h : e.Inv cfg n addr points)
    (herr : e.err ≠ none) (hist : List (ReplayEvent B)) :
    e.Inv cfg n addr (points ++ [hist]) where
  ring _ := h.ring_append hist
  detections := h.detections_append hist
  written := h.written
  writes := h.writes
  err := h.err
  bounded := by
    rw [List.length_append]
    exact Nat.le_add_right_of_le h.bounded
  complete hnone := absurd hnone herr

theorem Evaluator.Inv.ring_push (h : e.Inv cfg n addr points)
    (hlen : e.snapLen = points.length) (hs : s.hostInfos = some addr) {j : ℕ}
    (hj : j < e.snapLen + 1) (hlast : e.snapLen + 1 ≤ j + 4) :
    ∃ snap, (e.pushSnap s).snaps[j % 4]? = some snap ∧
      (points ++ [s.history])[j]? = some snap.history ∧ snap.hostInfos = some addr := by
  simp only [Evaluator.pushSnap, Vector.getElem?_set]
  rcases Nat.lt_succ_iff_lt_or_eq.mp hj with hold | rfl
  · rw [if_neg (by omega)]
    exact h.ring_append s.history hold (by omega)
  · rw [if_pos rfl]
    exact ⟨s, by simp, by rw [hlen, List.getElem?_concat_length], hs⟩

theorem Evaluator.Inv.getSnap_zero (h : e.Inv cfg n addr points)
    (hlen : e.snapLen = points.length) (hs : s.hostInfos = some addr)
    (hfull : 4 ≤ e.snapLen + 1) :
    (points ++ [s.history])[e.snapLen - 3]? = some ((e.pushSnap s).getSnap 0).history ∧
      ((e.pushSnap s).getSnap 0).hostInfos = some addr := by
  obtain ⟨snap, hsnap, hpoint, hinfos⟩ :=
    h.ring_push hlen hs (j := e.snapLen - 3) (by omega) (by omega)
  have hslot : (e.snapLen - 3) % 4 = ((e.pushSnap s).snapLen + 0) % 4 := by
    simp only [Evaluator.pushSnap]
    omega
  have hmod : ((e.pushSnap s).snapLen + 0) % 4 < 4 := Nat.mod_lt _ (by omega)
  rw [hslot, Vector.getElem?_eq_getElem hmod] at hsnap
  obtain rfl : (e.pushSnap s).getSnap 0 = snap := Option.some.inj hsnap
  exact ⟨hpoint, hinfos⟩

/-- The evaluator keeps its invariant when it is handed a snapshot. -/
theorem Evaluator.Inv.process {e e' : Evaluator B} (h : e.Inv cfg n addr points)
    (hs : s.hostInfos = some addr) (hmem : mem[addr]? = some (lastBundles n s.history))
    (hrun : e.process cfg mem s = some e') : e'.Inv cfg n addr (points ++ [s.history]) := by
  by_cases herr : e.err = none
  · have hlen := h.complete herr
    have hlen' : (points ++ [s.history]).length = e.snapLen + 1 := by simp [hlen]
    obtain ⟨hsnapLen, hsnaps, hcase⟩ := Evaluator.process_cases herr hrun
    have hring : ∀ j, j < e'.snapLen → e'.snapLen ≤ j + 4 → ∃ snap, e'.snaps[j % 4]? = some snap ∧
        (points ++ [s.history])[j]? = some snap.history ∧ snap.hostInfos = some addr := by
      rw [hsnapLen, hsnaps]
      exact fun j => h.ring_push hlen hs
    have hbounded : e'.snapLen = (points ++ [s.history]).length := hsnapLen.trans hlen'.symm
    rcases hcase with ⟨hshort, herr', hwritten, hdet⟩ | ⟨hfull, herr', hwritten, args, hargs, hdet⟩
    · refine ⟨hring, ?_, ?_, ?_, ?_, hbounded.le, fun _ => hbounded⟩
      · rw [hdet, h.detections_append s.history, hsnapLen]
        congr 2
        omega
      · rw [hwritten, h.written]
        omega
      · intro j hj
        omega
      · rw [herr', if_neg (by omega)]
    · refine ⟨hring, ?_, ?_, ?_, ?_, hbounded.le, fun _ => hbounded⟩
      · obtain ⟨hpoint, hinfos⟩ := h.getSnap_zero hlen hs hfull
        have hlater : (points ++ [s.history])[e.snapLen - 3 + 3]? = some s.history := by
          rw [Nat.sub_add_cancel (by omega), hlen, List.getElem?_concat_length]
        have hcount : e'.snapLen - 3 = e.snapLen - 3 + 1 := by omega
        rw [hdet, hcount, List.range_succ, List.map_append, List.map_append,
          h.detections_append s.history]
        simp [hpoint, hlater, hargs, hinfos, Slices.read, hmem]
      · rw [hwritten, h.written]
        omega
      · intro j hj
        rcases Nat.lt_or_ge (j + 4) e.snapLen with hold | hnew
        · exact h.writes j hold
        · obtain rfl : j = e.snapLen - 4 := by omega
          have hlastErr := h.err
          rw [if_pos (by omega), herr] at hlastErr
          exact hlastErr.symm
      · rw [herr', if_pos (by omega), h.written]
        congr 1
        omega
  · have hsame : e' = e := by
      simp only [Evaluator.process] at hrun
      rw [if_pos (Option.isSome_iff_ne_none.mpr herr)] at hrun
      exact (Option.some.inj hrun).symm
    rw [hsame]
    exact h.failed herr s.history

end Processing

section Replaying

variable {cfg : Config B} {n : ℕ}

theorem ready_concat {evs : List (ReplayEvent B)} (ev : ReplayEvent B) (h : ready n evs = true) :
    ready n (evs ++ [ev]) = true := by
  obtain ⟨hfortio, hhosts⟩ := Bool.and_eq_true_iff.mp h
  refine Bool.and_eq_true_iff.mpr ⟨?_, ?_⟩
  · rw [lastFortio_concat]
    cases fortioOf ev <;> simp [hfortio]
  · cases hdata : ev.data with
    | idInfoBundle readerID bundle =>
      rw [lastBundles_concat_bundle hdata, List.all_eq_true]
      intro b hb
      rcases List.mem_or_eq_of_mem_set hb with hold | rfl
      · exact List.all_eq_true.mp hhosts b hold
      · rfl
    | _ =>
      rw [lastBundles_concat_of_ne fun host => by simp [bundleOf, hdata]]
      exact hhosts

structure Replay.Inv (cfg : Config B) (n : ℕ) (r : Replay B) : Prop where
  mem : r.mem[r.producer.hostAgentInfos]? = some (lastBundles n r.history)
  fortio : r.producer.fortioDemandSnap = lastFortio r.history
  shouldEval : r.producer.shouldEval = !ready n r.history
  eval : r.eval.Inv cfg n r.producer.hostAgentInfos (snapshots n r.history)

theorem inv_newEvalEventProducer (mem : Slices B) : (newEvalEventProducer mem n).Inv cfg n where
  mem := by
    have hnone : lastBundles n ([] : List (ReplayEvent B)) = List.replicate n none := by
      simp [lastBundles]
    simp [newEvalEventProducer, hnone]
  fortio := rfl
  shouldEval := rfl
  eval := Evaluator.inv_start

theorem Replay.Inv.saw {r : Replay B}
    (hmem : r.mem[r.producer.hostAgentInfos]? = some (lastBundles n r.history))
    (hfortio : r.producer.fortioDemandSnap = lastFortio r.history) :
    r.sawHostInfosAndFortioDemand = ready n r.history := by
  simp [Replay.sawHostInfosAndFortioDemand, ready, Slices.read, hmem, hfortio]

theorem Replay.Inv.observe {r r' : Replay B} (h : r.Inv cfg n) {ev : ReplayEvent B}
    (hobs : r.observe ev = some r') :
    r'.history = r.history ++ [ev] ∧
      r'.mem[r'.producer.hostAgentInfos]? = some (lastBundles n r'.history) ∧
      r'.producer.fortioDemandSnap = lastFortio r'.history ∧
      r'.producer.shouldEval = ((ev.data matches .eval) || !ready n r.history) ∧
      r'.eval = r.eval ∧ r'.producer.hostAgentInfos = r.producer.hostAgentInfos := by
  cases hdata : ev.data with
  | idInfoBundle readerID bundle =>
    simp only [Replay.observe, hdata] at hobs
    split_ifs at hobs
    cases hobs
    refine ⟨rfl, ?_, ?_, by simp [h.shouldEval], rfl, rfl⟩
    · simp [h.mem, lastBundles_concat_bundle hdata]
    · simp [h.fortio, lastFortio_concat, fortioOf, hdata]
  | fortio snap =>
    simp only [Replay.observe, hdata, Option.some.injEq] at hobs
    subst hobs
    have hsame : ∀ host, bundleOf host ev = none := fun host => by simp [bundleOf, hdata]
    refine ⟨rfl, ?_, ?_, by simp [h.shouldEval], rfl, rfl⟩
    · simp [h.mem, lastBundles_concat_of_ne hsame]
    · simp [lastFortio_concat, fortioOf, hdata]
  | eval =>
    simp only [Replay.observe, hdata, Option.some.injEq] at hobs
    subst hobs
    have hsame : ∀ host, bundleOf host ev = none := fun host => by simp [bundleOf, hdata]
    refine ⟨rfl, ?_, ?_, by simp, rfl, rfl⟩
    · simp [h.mem, lastBundles_concat_of_ne hsame]
    · simp [h.fortio, lastFortio_concat, fortioOf, hdata]
  | other =>
    simp only [Replay.observe, hdata, Option.some.injEq] at hobs
    subst hobs
    have hsame : ∀ host, bundleOf host ev = none := fun host => by simp [bundleOf, hdata]
    refine ⟨rfl, ?_, ?_, by simp [h.shouldEval], rfl, rfl⟩
    · simp [h.mem, lastBundles_concat_of_ne hsame]
    · simp [h.fortio, lastFortio_concat, fortioOf, hdata]

theorem Replay.Inv.maybeAddNext_eq {r r' : Replay B} (h : r.Inv cfg n)
    {input : ReplayEvent B × Bool} (hobs : r.observe input.1 = some r') :
    r.maybeAddNext cfg input =
      if snapshotDue n r'.history then r'.evaluate cfg input.1 input.2 else some r' := by
  obtain ⟨hhistory, hmem, hfortio, hshould, -, -⟩ := h.observe hobs
  have hdue : (r'.producer.shouldEval && r'.sawHostInfosAndFortioDemand) =
      snapshotDue n r'.history := by
    rw [Replay.Inv.saw hmem hfortio, hshould, hhistory, snapshotDue_concat, Bool.and_comm]
  rw [Replay.maybeAddNext, hobs, Option.bind_some]
  split
  · rename_i hdata
    have hbundles : lastBundles n (r.history ++ [input.1]) = lastBundles n r.history :=
      lastBundles_concat_of_ne fun host => by simp [bundleOf, hdata]
    have hnot : snapshotDue n r'.history = false := by
      simp [hhistory, snapshotDue_concat, hdata, ready, hbundles, lastFortio_concat, fortioOf]
    rw [if_neg (by simp [hnot])]
  · rw [hdue]

/-- An event keeps the invariant. -/
theorem Replay.Inv.step {r t : Replay B} (h : r.Inv cfg n) {input : ReplayEvent B × Bool}
    (hstep : r.maybeAddNext cfg input = some t) :
    t.Inv cfg n ∧ t.history = r.history ++ [input.1] := by
  cases hobs : r.observe input.1 with
  | none => simp [Replay.maybeAddNext, hobs] at hstep
  | some r' =>
    obtain ⟨hhistory, hmem, hfortio, hshould, heval, haddr⟩ := h.observe hobs
    rw [h.maybeAddNext_eq hobs] at hstep
    have hsnaps : snapshots n r'.history = snapshots n r.history ++
        if snapshotDue n r'.history then [r'.history] else [] := by
      rw [hhistory, snapshots_concat]
    split_ifs at hstep hsnaps with hdue
    · obtain ⟨eval, hprocess, rfl⟩ := Option.map_eq_some_iff.mp hstep
      have hready : ready n r'.history = true := (Bool.and_eq_true_iff.mp hdue).1
      refine ⟨⟨hmem, hfortio, by simp [hready], ?_⟩, hhistory⟩
      rw [hsnaps]
      have hold := h.eval
      rw [← heval, ← haddr] at hold
      exact hold.process rfl hmem hprocess
    · cases hstep
      refine ⟨⟨hmem, hfortio, ?_, ?_⟩, hhistory⟩
      · rw [hshould, hhistory]
        rw [hhistory, snapshotDue_concat] at hdue
        cases hready : ready n (r.history ++ [input.1]) with
        | true => simpa [hready] using hdue
        | false =>
          have hbefore : ready n r.history = false := by
            by_contra hne
            simp [ready_concat input.1 (Bool.of_not_eq_false hne)] at hready
          simp [hbefore]
      · rw [hsnaps, List.append_nil, heval, haddr]
        exact h.eval

/-- A whole replay keeps the invariant. -/
theorem Replay.Inv.exec {r t : Replay B} (h : r.Inv cfg n) {inputs : List (ReplayEvent B × Bool)}
    (hrun : Runs.exec (Replay.maybeAddNext cfg) r inputs = some t) :
    t.Inv cfg n ∧ t.history = r.history ++ inputs.map Prod.fst := by
  induction inputs generalizing r with
  | nil =>
    cases hrun
    exact ⟨h, by simp⟩
  | cons input inputs ih =>
    obtain ⟨r', hstep, hrest⟩ := Runs.exec_cons_eq_some.mp hrun
    obtain ⟨hr', hhistory⟩ := h.step hstep
    obtain ⟨ht, hall⟩ := ih hr' hrest
    exact ⟨ht, by simp [hall, hhistory]⟩

theorem Evaluator.Inv.lt_iff {addr : ℕ} {points : List (List (ReplayEvent B))}
    (h : e.Inv cfg n addr points) {k : ℕ} :
    k < e.snapLen - 3 ↔ k + 3 < points.length ∧ ∀ j < k, cfg.write j = none := by
  have hbounded := h.bounded
  constructor
  · intro hk
    exact ⟨by omega, fun j hj => h.writes j (by omega)⟩
  · rintro ⟨hk, hwrites⟩
    by_cases herr : e.err = none
    · have hlen := h.complete herr
      omega
    · have hlast := h.err
      split_ifs at hlast with hfull
      · by_contra hlate
        exact herr (hlast.trans (hwrites _ (by omega)))
      · exact absurd hlast herr

theorem Evaluator.Inv.mem_detections {addr : ℕ}
    {points : List (List (ReplayEvent B))} (h : e.Inv cfg n addr points)
    {P : List (ReplayEvent B) → List (Option B) → Prop} :
    (∀ d ∈ e.detections, P d.snap.history d.args.hostInfos) ↔
      ∀ k < e.snapLen - 3, ∀ early ∈ points[k]?, ∀ late ∈ points[k + 3]?,
        P early (lastBundles n late) := by
  have hmap : (∀ d ∈ e.detections, P d.snap.history d.args.hostInfos) ↔
      ∀ x ∈ e.detections.map (fun d => (some d.snap.history, some d.args.hostInfos)),
        ∀ hist ∈ x.1, ∀ infos ∈ x.2, P hist infos := by
    simp
  rw [hmap, h.detections]
  simp

/--
The bundles handed to the loss detector are those at the snapshot it is called for exactly
if no host has sent another bundle by the time of the third snapshot after it, for all
snapshots up to the first failed write.
-/
theorem detector_hostInfos_iff (cfg : Config B) (mem : Slices B) (n : ℕ)
    (inputs : List (ReplayEvent B × Bool)) {r : Replay B}
    (hrun : Runs.exec (Replay.maybeAddNext cfg) (newEvalEventProducer mem n) inputs = some r) :
    (∀ d ∈ r.eval.detections, d.args.hostInfos = lastBundles n d.snap.history) ↔
      ∀ k, (∀ j < k, cfg.write j = none) →
        ∀ early ∈ (snapshots n (inputs.map Prod.fst))[k]?,
        ∀ late ∈ (snapshots n (inputs.map Prod.fst))[k + 3]?,
          lastBundles n late = lastBundles n early := by
  obtain ⟨hinv, hhistory⟩ := (inv_newEvalEventProducer mem).exec hrun
  have hpoints := hinv.eval
  rw [hhistory] at hpoints
  rw [hpoints.mem_detections (P := fun hist infos => infos = lastBundles n hist)]
  change (∀ k < _, ∀ early ∈ (snapshots n (inputs.map Prod.fst))[k]?, _) ↔ _
  refine forall_congr' fun k => ?_
  rw [hpoints.lt_iff]
  constructor
  · intro h hwrites early hearly late hlate
    obtain ⟨hk, -⟩ := List.getElem?_eq_some_iff.mp hlate
    exact h ⟨hk, hwrites⟩ early hearly late hlate
  · intro h hk
    exact h hk.2

def oneHostConfig : Config ℕ where
  admissions := [("fg", ⟨10, 5⟩)]
  nodup := List.nodup_singleton _
  capacity := 12
  detect _ _ := (false, none)
  write _ := none

/-- The host sends its bundle once. -/
theorem detector_hostInfos_iff_quiet_host :
    ∃ r, Runs.exec (Replay.maybeAddNext oneHostConfig) (newEvalEventProducer [] 1)
        [(⟨1, .idInfoBundle 0 7⟩, false), (⟨1, .fortio ⟨1, [("fg", 14)]⟩⟩, false),
          (⟨6, .eval⟩, false), (⟨11, .eval⟩, false), (⟨16, .eval⟩, true)] = some r ∧
      ∀ d ∈ r.eval.detections, d.args.hostInfos = lastBundles 1 d.snap.history := by
  have hsome : (Runs.exec (Replay.maybeAddNext oneHostConfig) (newEvalEventProducer [] 1)
      [(⟨1, .idInfoBundle 0 7⟩, false), (⟨1, .fortio ⟨1, [("fg", 14)]⟩⟩, false),
        (⟨6, .eval⟩, false), (⟨11, .eval⟩, false), (⟨16, .eval⟩, true)]).isSome := by
    decide +kernel
  obtain ⟨r, hrun⟩ := Option.isSome_iff_exists.mp hsome
  refine ⟨r, hrun, (detector_hostInfos_iff _ _ _ _ hrun).mpr fun k _ early hearly late hlate => ?_⟩
  obtain ⟨hk, -⟩ := List.getElem?_eq_some_iff.mp hlate
  have hlen : k + 3 < 4 := hk.trans_eq (by decide +kernel)
  obtain rfl : k = 0 := by omega
  cases hearly
  cases hlate
  rfl

/-- The host sends another bundle a second after the first snapshot was taken at 1; the
detector is called for that snapshot at 16, and sees the later bundle. -/
theorem detector_sees_later_bundle :
    ∃ r ∈ Runs.exec (Replay.maybeAddNext oneHostConfig) (newEvalEventProducer [] 1)
        [(⟨1, .idInfoBundle 0 7⟩, false), (⟨1, .fortio ⟨1, [("fg", 14)]⟩⟩, false),
          (⟨2, .idInfoBundle 0 8⟩, false), (⟨6, .eval⟩, false), (⟨11, .eval⟩, false),
          (⟨16, .eval⟩, true)],
      ∃ d ∈ r.eval.detections, d.args.unixSec = 1 ∧ d.args.hostInfos = [some 8] ∧
        lastBundles 1 d.snap.history = [some 7] := by
  decide +kernel

end Replaying

end EvalLoss
end HeypAgents
