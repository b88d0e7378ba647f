import Mathlib.Data.List.Induction
import Mathlib.Tactic.Linarith

/-!
# Convergence of a feedback simulation

`MultiIterState` collects the iterations of a simulated feedback controller.  An
iteration that changes nothing marks the run as converged, a later change takes the mark
back, and the run stops once it was stable for long enough.  The final record is cut off
at the iteration where the stable run starts; a run that is stable from its first
iteration on makes the code index an empty slice.
-/

namespace HeypAgents
namespace FeedbackSim

structure ScenarioRec where
  downgradeFracInc : ℚ
  numNewlyHipri : ℤ
  numNewlyLopri : ℤ

structure MultiIterRec where
  itersToConverge : ℤ := 0
  numDowngraded : ℤ := 0
  numUpgraded : ℤ := 0
  converged : Bool := false
  numOscillations : ℕ := 0
  finalOverage : ℚ := 0
  finalShortage : ℚ := 0
  intermediateOverage : List ℚ := []
  intermediateShortage : List ℚ := []

structure MultiIterState where
  n : ℤ
  itersStableToConverge : ℤ
  i : ℤ := 0
  record : MultiIterRec := {}
  downgradeFracIncs : List ℚ := []
  fixedRec : Bool := false

/-- The arguments of one call of `RecordIter`. -/
structure Iter where
  this : ScenarioRec
  overage : ℚ
  shortage : ℚ

/-- `CountFlips` after its first loop: `prevSign` is set for a negative last increment. -/
def countFlipsFrom : Bool → List ℚ → ℕ
  | _, [] => 0
  | prevSign, inc :: incs =>
    if inc = 0 then countFlipsFrom prevSign incs
    else
      let sign : Bool := decide (inc < 0)
      (if sign ≠ prevSign then 1 else 0) + countFlipsFrom sign incs

def countFlips (incs : List ℚ) : ℕ :=
  match incs.dropWhile (fun inc => decide (inc = 0)) with
  | [] => 0
  | inc :: incs => countFlipsFrom (decide (inc < 0)) incs

/-- An index out of range panics, which is `none`. -/
def index (xs : List ℚ) (i : ℤ) : Option ℚ :=
  if 0 ≤ i then xs[i.toNat]? else none

/-- The slice `xs[:i]`. -/
def sliceTo (xs : List ℚ) (i : ℤ) : Option (List ℚ) :=
  if 0 ≤ i ∧ i ≤ xs.length then some (xs.take i.toNat) else none

namespace MultiIterState

def newMultiIterState (n itersStableToConverge : ℤ) : MultiIterState where
  n := n
  itersStableToConverge := itersStableToConverge
  record := { itersToConverge := -1 }

def done (s : MultiIterState) : Bool := decide (s.n ≤ s.i)

/-- The update of the mark for one more increment; `i` already counts it. -/
def trackConvergence (s : MultiIterState) (inc : ℚ) : MultiIterState :=
  if inc = 0 then
    let s :=
      if !s.record.converged then
        { s with record := { s.record with itersToConverge := s.i - 1, converged := true } }
      else s
    if s.itersStableToConverge ≤ s.i - s.record.itersToConverge then { s with i := s.n } else s
  else if s.record.converged then
    { s with record := { s.record with itersToConverge := -1, converged := false } }
  else s

def recordIter (s : MultiIterState) (iter : Iter) : MultiIterState :=
  if s.n ≤ s.i then s
  else
    let s := { s with
      i := s.i + 1
      record := { s.record with
        intermediateOverage := s.record.intermediateOverage ++ [iter.overage]
        intermediateShortage := s.record.intermediateShortage ++ [iter.shortage] }
      downgradeFracIncs := s.downgradeFracIncs ++ [iter.this.downgradeFracInc] }
    let s := s.trackConvergence iter.this.downgradeFracInc
    { s with record := { s.record with
        numUpgraded := s.record.numUpgraded + iter.this.numNewlyHipri
        numDowngraded := s.record.numDowngraded + iter.this.numNewlyLopri } }

/-- The part of `GetRec` for a converged run. -/
def fixConverged (record : MultiIterRec) (incs : List ℚ) : Option MultiIterRec := do
  let record :=
    if record.itersToConverge ≤ 0 then
      { record with
        finalOverage := 0
        finalShortage := 0
        intermediateOverage := []
        intermediateShortage := []
        numOscillations := 0 }
    else record
  -- the branch above does not return: its slices are indexed as well
  let finalOverage ← index record.intermediateOverage (record.itersToConverge - 1)
  let finalShortage ← index record.intermediateShortage (record.itersToConverge - 1)
  let overages ← sliceTo record.intermediateOverage (record.itersToConverge - 1)
  let shortages ← sliceTo record.intermediateShortage (record.itersToConverge - 1)
  let incs ← sliceTo incs record.itersToConverge
  pure { record with
    finalOverage := finalOverage
    finalShortage := finalShortage
    intermediateOverage := overages
    intermediateShortage := shortages
    numOscillations := countFlips incs }

/-- The part of `GetRec` for a run that did not converge. -/
def fixUnconverged (record : MultiIterRec) (n : ℤ) (incs : List ℚ) : Option MultiIterRec := do
  let finalOverage ← index record.intermediateOverage (n - 1)
  let finalShortage ← index record.intermediateShortage (n - 1)
  pure { record with
    finalOverage := finalOverage
    finalShortage := finalShortage
    numOscillations := countFlips incs }

/-- The first test of `GetRec`, whose sum wraps around: a mark that is not stable for long
enough is taken back. -/
def dropUnstable (s : MultiIterState) : MultiIterRec :=
  if s.n < (s.record.itersToConverge + s.itersStableToConverge).bmod (2 ^ 64) then
    { s.record with itersToConverge := -1, converged := false }
  else s.record

/-- The record that the first call of `GetRec` fixes. -/
def fixRec (s : MultiIterState) : Option MultiIterRec :=
  if s.dropUnstable.converged then fixConverged s.dropUnstable s.downgradeFracIncs
  else if 0 < s.n then fixUnconverged s.dropUnstable s.n s.downgradeFracIncs
  else some s.dropUnstable

/-- The record of the run, and the state that keeps it; a panic is `none`. -/
def getRec (s : MultiIterState) : Option (MultiIterRec × MultiIterState) :=
  if s.fixedRec then some (s.record, s)
  else s.fixRec.map fun record => (record, { s with record := record, fixedRec := true })

def recordIters (n itersStableToConverge : ℤ) (iters : List Iter) : MultiIterState :=
  iters.foldl recordIter (newMultiIterState n itersStableToConverge)

end MultiIterState

/-! ### The run of zeros at the end of the increments -/

/-- The increments end with a run of zeros that starts at index `k`. -/
structure ZeroRunFrom (incs : List ℚ) (k : ℕ) : Prop where
  lt_length : k < incs.length
  eq_zero : ∀ inc ∈ incs.drop k, inc = 0
  start : ∀ j, j + 1 = k → incs[j]? ≠ some 0

namespace ZeroRunFrom

theorem getElem?_eq_zero {incs : List ℚ} {k j : ℕ} (hrun : ZeroRunFrom incs k)
    (hle : k ≤ j) (hlt : j < incs.length) : incs[j]? = some 0 := by
  have hmem : incs[j] ∈ incs.drop k :=
    List.mem_drop_iff_getElem.2 ⟨j - k, by omega, by simp [Nat.add_sub_cancel' hle]⟩
  rw [List.getElem?_eq_getElem hlt, hrun.eq_zero _ hmem]

theorem le {incs : List ℚ} {k l : ℕ} (hk : ZeroRunFrom incs k) (hl : ZeroRunFrom incs l) :
    l ≤ k := by
  by_contra hlt
  exact hl.start (l - 1) (by omega)
    (hk.getElem?_eq_zero (by omega) (by have := hl.lt_length; omega))

theorem unique {incs : List ℚ} {k l : ℕ} (hk : ZeroRunFrom incs k)
    (hl : ZeroRunFrom incs l) : k = l :=
  le_antisymm (hl.le hk) (hk.le hl)

theorem concat_zero {incs : List ℚ} {k : ℕ} (hrun : ZeroRunFrom incs k) :
    ZeroRunFrom (incs ++ [0]) k where
  lt_length := by
    have := hrun.lt_length
    simp only [List.length_append, List.length_singleton]
    omega
  eq_zero := by
    intro inc hinc
    rw [List.drop_append_of_le_length hrun.lt_length.le] at hinc
    rcases List.mem_append.1 hinc with hinc | hinc
    · exact hrun.eq_zero inc hinc
    · exact List.mem_singleton.1 hinc
  start := by
    intro j hj
    rw [List.getElem?_append_left (by have := hrun.lt_length; omega)]
    exact hrun.start j hj

theorem of_concat {incs : List ℚ} (hlast : incs.getLast? ≠ some 0) :
    ZeroRunFrom (incs ++ [0]) incs.length where
  lt_length := by simp
  eq_zero := by simp
  start := by
    intro j hj
    rw [List.getElem?_append_left (by omega)]
    rwa [List.getLast?_eq_getElem?, ← hj, Nat.add_sub_cancel] at hlast

theorem getLast?_eq {incs : List ℚ} {k : ℕ} (hrun : ZeroRunFrom incs k) :
    incs.getLast? = some 0 := by
  have := hrun.lt_length
  rw [List.getLast?_eq_getElem?]
  exact hrun.getElem?_eq_zero (by omega) (by omega)

theorem zero_iff {incs : List ℚ} (hne : incs ≠ []) :
    ZeroRunFrom incs 0 ↔ ∀ inc ∈ incs, inc = 0 := by
  constructor
  · intro hrun
    simpa using hrun.eq_zero
  · intro hzero
    exact ⟨List.length_pos_iff.2 hne, by simpa using hzero, by simp⟩

end ZeroRunFrom

/-! ### The invariant of a run -/

namespace MultiIterState

/-- The mark says that the increments end with a run of zeros from `k` on. -/
def Marked (incs : List ℚ) (record : MultiIterRec) (k : ℕ) : Prop :=
  record.converged = true ∧ record.itersToConverge = k ∧ ZeroRunFrom incs k

def Unmarked (incs : List ℚ) (record : MultiIterRec) : Prop :=
  record.converged = false ∧ record.itersToConverge = -1 ∧ incs.getLast? ≠ some 0

/-- What the state keeps of the calls so far. -/
structure Collected (n s : ℤ) (incs : List ℚ) (state : MultiIterState) : Prop where
  n_eq : state.n = n
  stable_eq : state.itersStableToConverge = s
  incs_eq : state.downgradeFracIncs = incs
  length_overage : state.record.intermediateOverage.length = incs.length
  length_shortage : state.record.intermediateShortage.length = incs.length
  fixedRec_eq : state.fixedRec = false

/-- The run was not stopped early: its last zeros are fewer than `s`. -/
structure Running (n s : ℤ) (incs : List ℚ) (state : MultiIterState) : Prop
    extends Collected n s incs state where
  i_eq : state.i = incs.length
  mark : Unmarked incs state.record ∨ ∃ k, Marked incs state.record k ∧ (incs.length : ℤ) < k + s

/-- The run was stopped since its last zeros are at least `s`. -/
structure Stopped (n s : ℤ) (incs : List ℚ) (state : MultiIterState) : Prop
    extends Collected n s incs state where
  i_eq : state.i = n
  length_le : (incs.length : ℤ) ≤ n
  mark : ∃ k, Marked incs state.record k ∧ (k + s : ℤ) ≤ incs.length

section Step

variable {n s : ℤ} {incs : List ℚ} {state : MultiIterState}

theorem running_new (n s : ℤ) : Running n s [] (newMultiIterState n s) where
  n_eq := rfl
  stable_eq := rfl
  incs_eq := rfl
  length_overage := rfl
  length_shortage := rfl
  fixedRec_eq := rfl
  i_eq := rfl
  mark := Or.inl ⟨rfl, rfl, by simp⟩

def stableSince (state : MultiIterState) : ℤ :=
  if state.record.converged then state.record.itersToConverge else state.i - 1

theorem trackConvergence_zero (state : MultiIterState) :
    state.trackConvergence 0 = { state with
      i := if state.itersStableToConverge ≤ state.i - state.stableSince then state.n else state.i
      record := { state.record with
        itersToConverge := state.stableSince
        converged := true } } := by
  obtain ⟨n, s, i, ⟨iters, down, up, converged, _⟩, _, _⟩ := state
  unfold trackConvergence stableSince
  cases converged <;> simp only [Bool.not_false, Bool.not_true, Bool.false_eq_true, if_true,
    if_false] <;> split_ifs <;> rfl

theorem trackConvergence_of_ne_zero (state : MultiIterState) {inc : ℚ} (hne : inc ≠ 0) :
    state.trackConvergence inc = { state with
      record := { state.record with
        itersToConverge := if state.record.converged then -1 else state.record.itersToConverge
        converged := false } } := by
  obtain ⟨n, s, i, ⟨iters, down, up, converged, _⟩, _, _⟩ := state
  unfold trackConvergence
  cases converged <;> simp [hne]

theorem Collected.recordIter (hcollected : Collected n s incs state)
    (hlt : state.i < state.n) (iter : Iter) :
    Collected n s (incs ++ [iter.this.downgradeFracInc]) (state.recordIter iter) := by
  obtain ⟨hn, hs, hincs, hoverage, hshortage, hfixed⟩ := hcollected
  unfold MultiIterState.recordIter
  rw [if_neg (by omega)]
  by_cases hzero : iter.this.downgradeFracInc = 0
  · simp only [hzero, trackConvergence_zero]
    constructor <;> simp [*]
  · simp only [trackConvergence_of_ne_zero _ hzero]
    constructor <;> simp [*]

theorem Running.recordIter_of_zero (hrunning : Running n s incs state) (hlt : state.i < n)
    {iter : Iter} (hzero : iter.this.downgradeFracInc = 0) :
    Running n s (incs ++ [iter.this.downgradeFracInc]) (state.recordIter iter) ∨
      Stopped n s (incs ++ [iter.this.downgradeFracInc]) (state.recordIter iter) := by
  have hlt' : state.i < state.n := by rw [hrunning.n_eq]; exact hlt
  have hcollected := hrunning.toCollected.recordIter hlt' iter
  -- the run of zeros is the one before, or it starts with this increment
  obtain ⟨k, hk, hrun⟩ : ∃ k : ℕ, (if state.record.converged then state.record.itersToConverge
      else state.i) = k ∧ ZeroRunFrom (incs ++ [iter.this.downgradeFracInc]) k := by
    rcases hrunning.mark with ⟨hconverged, -, hlast⟩ | ⟨k, ⟨hconverged, hk, hrun⟩, -⟩
    · refine ⟨incs.length, by simp [hconverged, hrunning.i_eq], ?_⟩
      rw [hzero]
      exact ZeroRunFrom.of_concat hlast
    · refine ⟨k, by simp [hconverged, hk], ?_⟩
      rw [hzero]
      exact hrun.concat_zero
  have hmark : Marked (incs ++ [iter.this.downgradeFracInc]) (state.recordIter iter).record k := by
    refine ⟨?_, ?_, hrun⟩
    all_goals
      unfold recordIter
      rw [if_neg (by omega), hzero]
      simp only [trackConvergence_zero, stableSince, add_sub_cancel_right]
    exact hk
  have hi : (state.recordIter iter).i = if s ≤ state.i + 1 - k then n else state.i + 1 := by
    unfold recordIter
    rw [if_neg (by omega), hzero]
    simp only [trackConvergence_zero, stableSince, add_sub_cancel_right, hk, hrunning.stable_eq,
      hrunning.n_eq]
  have hlength : ((incs ++ [iter.this.downgradeFracInc]).length : ℤ) = state.i + 1 := by
    simp [hrunning.i_eq]
  by_cases hstop : s ≤ state.i + 1 - k
  · right
    rw [if_pos hstop] at hi
    exact ⟨hcollected, hi, by omega, k, hmark, by omega⟩
  · left
    rw [if_neg hstop] at hi
    exact ⟨hcollected, by omega, Or.inr ⟨k, hmark, by omega⟩⟩

theorem Running.recordIter_of_ne_zero (hrunning : Running n s incs state) (hlt : state.i < n)
    {iter : Iter} (hne : iter.this.downgradeFracInc ≠ 0) :
    Running n s (incs ++ [iter.this.downgradeFracInc]) (state.recordIter iter) := by
  have hlt' : state.i < state.n := by rw [hrunning.n_eq]; exact hlt
  have hiters : (if state.record.converged then -1 else state.record.itersToConverge) = -1 := by
    rcases hrunning.mark with ⟨-, hiters, -⟩ | ⟨k, ⟨hconverged, -, -⟩, -⟩
    · simp [hiters]
    · simp [hconverged]
  refine ⟨hrunning.toCollected.recordIter hlt' iter, ?_, Or.inl ⟨?_, ?_, by simpa using hne⟩⟩
  all_goals
    unfold recordIter
    rw [if_neg (by omega)]
    simp only [trackConvergence_of_ne_zero _ hne]
  · simp [hrunning.i_eq]
  · exact hiters

theorem Running.recordIter (hrunning : Running n s incs state) (hlt : state.i < n) (iter : Iter) :
    Running n s (incs ++ [iter.this.downgradeFracInc]) (state.recordIter iter) ∨
      Stopped n s (incs ++ [iter.this.downgradeFracInc]) (state.recordIter iter) := by
  by_cases hzero : iter.this.downgradeFracInc = 0
  · exact hrunning.recordIter_of_zero hlt hzero
  · exact Or.inl (hrunning.recordIter_of_ne_zero hlt hzero)

end Step

/-! ### Runs until the state is done -/

def increments (iters : List Iter) : List ℚ := iters.map fun iter => iter.this.downgradeFracInc

def RunUntilDone (n s : ℤ) (iters : List Iter) : Prop :=
  (recordIters n s iters).done = true ∧
    ∀ m < iters.length, (recordIters n s (iters.take m)).done = false

section Runs

variable {n s : ℤ} {iters : List Iter}

theorem Running.take_succ {m : ℕ} (hm : m < iters.length)
    (hrunning : Running n s (increments (iters.take m)) (recordIters n s (iters.take m)))
    (hdone : (recordIters n s (iters.take m)).done = false) :
    Running n s (increments (iters.take (m + 1))) (recordIters n s (iters.take (m + 1))) ∨
      Stopped n s (increments (iters.take (m + 1))) (recordIters n s (iters.take (m + 1))) := by
  have hlt : (recordIters n s (iters.take m)).i < n := by
    rw [done, decide_eq_false_iff_not, hrunning.n_eq] at hdone
    omega
  have hstep := hrunning.recordIter hlt iters[m]
  rw [List.take_succ_eq_append_getElem hm]
  simpa only [increments, recordIters, List.map_append, List.map_cons, List.map_nil,
    List.foldl_append, List.foldl_cons, List.foldl_nil] using hstep

theorem RunUntilDone.running_take (hrun : RunUntilDone n s iters) {m : ℕ} (hm : m < iters.length) :
    Running n s (increments (iters.take m)) (recordIters n s (iters.take m)) := by
  induction m with
  | zero => simpa [increments, recordIters] using running_new n s
  | succ m ih =>
    have hm' : m < iters.length := by omega
    rcases (ih hm').take_succ hm' (hrun.2 m hm') with hrunning | hstopped
    · exact hrunning
    · -- a stopped run is done
      have hdone := hrun.2 (m + 1) hm
      rw [done, decide_eq_false_iff_not, hstopped.n_eq, hstopped.i_eq] at hdone
      exact absurd le_rfl hdone

theorem RunUntilDone.running_or_stopped (hn : 1 ≤ n) (hrun : RunUntilDone n s iters) :
    (Running n s (increments iters) (recordIters n s iters) ∧ ((increments iters).length : ℤ) = n) ∨
      Stopped n s (increments iters) (recordIters n s iters) := by
  have hdone := hrun.1
  rw [done, decide_eq_true_iff] at hdone
  obtain ⟨m, hm⟩ : ∃ m, iters.length = m + 1 := by
    refine Nat.exists_eq_succ_of_ne_zero fun hzero => ?_
    rw [List.length_eq_zero_iff.1 hzero] at hdone
    simp only [recordIters, newMultiIterState, List.foldl_nil] at hdone
    omega
  have hm' : m < iters.length := by omega
  have hprev := hrun.running_take hm'
  have hlt := hrun.2 m hm'
  rw [done, decide_eq_false_iff_not, hprev.n_eq, hprev.i_eq] at hlt
  have hlength : (increments (iters.take m)).length = m := by
    simp [increments, hm'.le]
  have hlast := hprev.take_succ hm' (hrun.2 m hm')
  rw [← hm, List.take_length] at hlast
  rcases hlast with hrunning | hstopped
  · left
    refine ⟨hrunning, ?_⟩
    rw [hrunning.n_eq, hrunning.i_eq] at hdone
    have hlength' : (increments iters).length = m + 1 := by simp [increments, hm]
    omega
  · exact Or.inr hstopped

end Runs

/-! ### The final record -/

theorem index_of_lt {xs : List ℚ} {i : ℤ} (hle : 0 ≤ i) (hlt : i < xs.length) :
    ∃ x, index xs i = some x := by
  rw [index, if_pos hle]
  exact ⟨_, List.getElem?_eq_getElem (by omega)⟩

theorem sliceTo_of_le {xs : List ℚ} {i : ℤ} (hle : 0 ≤ i) (hle' : i ≤ xs.length) :
    sliceTo xs i = some (xs.take i.toNat) :=
  if_pos ⟨hle, hle'⟩

/-- A record with the mark of `record`. -/
def SameMark (record final : MultiIterRec) : Prop :=
  final.converged = record.converged ∧ final.itersToConverge = record.itersToConverge

theorem fixConverged_of_pos {record : MultiIterRec} {incs : List ℚ}
    (hpos : 1 ≤ record.itersToConverge) (hle : record.itersToConverge ≤ incs.length)
    (hoverage : record.intermediateOverage.length = incs.length)
    (hshortage : record.intermediateShortage.length = incs.length) :
    ∃ final, fixConverged record incs = some final ∧ SameMark record final := by
  obtain ⟨overage, hoverage'⟩ : ∃ x, index record.intermediateOverage
      (record.itersToConverge - 1) = some x := index_of_lt (by omega) (by omega)
  obtain ⟨shortage, hshortage'⟩ : ∃ x, index record.intermediateShortage
      (record.itersToConverge - 1) = some x := index_of_lt (by omega) (by omega)
  have hslice : ∀ xs : List ℚ, xs.length = incs.length → sliceTo xs (record.itersToConverge - 1) =
      some (xs.take (record.itersToConverge - 1).toNat) :=
    fun xs hxs => sliceTo_of_le (by omega) (by omega)
  have hincs : sliceTo incs record.itersToConverge =
      some (incs.take record.itersToConverge.toNat) := sliceTo_of_le (by omega) hle
  unfold fixConverged
  rw [if_neg (by omega)]
  simp only [hoverage', hshortage', hslice _ hoverage, hslice _ hshortage, hincs]
  exact ⟨_, rfl, rfl, rfl⟩

theorem fixConverged_of_nonpos {record : MultiIterRec} {incs : List ℚ}
    (hnonpos : record.itersToConverge ≤ 0) : fixConverged record incs = none := by
  unfold fixConverged
  rw [if_pos hnonpos]
  simp [index]

theorem fixUnconverged_of_length {record : MultiIterRec} {incs : List ℚ} {n : ℤ} (hn : 1 ≤ n)
    (hoverage : record.intermediateOverage.length = n)
    (hshortage : record.intermediateShortage.length = n) :
    ∃ final, fixUnconverged record n incs = some final ∧ SameMark record final := by
  obtain ⟨overage, hoverage'⟩ : ∃ x, index record.intermediateOverage (n - 1) = some x :=
    index_of_lt (by omega) (by omega)
  obtain ⟨shortage, hshortage'⟩ : ∃ x, index record.intermediateShortage (n - 1) = some x :=
    index_of_lt (by omega) (by omega)
  simp only [fixUnconverged, hoverage', hshortage']
  exact ⟨_, rfl, rfl, rfl⟩

section GetRec

variable {n s : ℤ} {incs : List ℚ} {state : MultiIterState} {k : ℕ}

theorem dropUnstable_of_le (hcollected : Collected n s incs state)
    (hle : (state.record.itersToConverge + s).bmod (2 ^ 64) ≤ n) :
    state.dropUnstable = state.record := by
  rw [dropUnstable, hcollected.stable_eq, hcollected.n_eq, if_neg (by omega)]

theorem fixRec_of_marked (hcollected : Collected n s incs state)
    (hmark : Marked incs state.record k) (hle : ((k : ℤ) + s).bmod (2 ^ 64) ≤ n) (hpos : 1 ≤ k) :
    ∃ final, state.fixRec = some final ∧ final.converged = true ∧ final.itersToConverge = k := by
  obtain ⟨hconverged, hk, hrun⟩ := hmark
  have hlt := hrun.lt_length
  obtain ⟨final, hfinal, hsame⟩ : ∃ final, fixConverged state.record incs = some final ∧
      SameMark state.record final :=
    fixConverged_of_pos (by omega) (by omega) hcollected.length_overage hcollected.length_shortage
  refine ⟨final, ?_, hsame.1.trans hconverged, hsame.2.trans hk⟩
  rw [fixRec, dropUnstable_of_le hcollected (by rwa [hk]), if_pos hconverged,
    hcollected.incs_eq, hfinal]

theorem fixRec_of_marked_zero (hcollected : Collected n s incs state)
    (hmark : Marked incs state.record 0) (hle : s.bmod (2 ^ 64) ≤ n) : state.fixRec = none := by
  obtain ⟨hconverged, hk, -⟩ := hmark
  rw [fixRec, dropUnstable_of_le hcollected (by simpa [hk] using hle), if_pos hconverged,
    fixConverged_of_nonpos (by simp [hk])]

theorem fixRec_of_unmarked (hn : 1 ≤ n) (hcollected : Collected n s incs state)
    (hlength : (incs.length : ℤ) = n)
    (hmark : Unmarked incs state.record ∨ n < (state.record.itersToConverge + s).bmod (2 ^ 64)) :
    ∃ final, state.fixRec = some final ∧ final.converged = false ∧ final.itersToConverge = -1 := by
  obtain ⟨hconverged, hiters, hoverage, hshortage⟩ :
      state.dropUnstable.converged = false ∧ state.dropUnstable.itersToConverge = -1 ∧
      state.dropUnstable.intermediateOverage = state.record.intermediateOverage ∧
      state.dropUnstable.intermediateShortage = state.record.intermediateShortage := by
    rw [dropUnstable, hcollected.stable_eq, hcollected.n_eq]
    split_ifs with htest
    · exact ⟨rfl, rfl, rfl, rfl⟩
    · obtain ⟨hconverged, hiters, -⟩ := hmark.resolve_right htest
      exact ⟨hconverged, hiters, rfl, rfl⟩
  obtain ⟨final, hfinal, hsame⟩ : ∃ final, fixUnconverged state.dropUnstable n incs = some final ∧
      SameMark state.dropUnstable final :=
    fixUnconverged_of_length hn (by rw [hoverage, hcollected.length_overage, hlength])
      (by rw [hshortage, hcollected.length_shortage, hlength])
  refine ⟨final, ?_, hsame.1.trans hconverged, hsame.2.trans hiters⟩
  rw [fixRec, hconverged, if_neg (by simp), hcollected.n_eq, if_pos (by omega),
    hcollected.incs_eq, hfinal]

end GetRec

/-- The last zeros are at least `s`, and start at index `k`. -/
def EndsWithZeros (s : ℤ) (incs : List ℚ) (k : ℕ) : Prop := ZeroRunFrom incs k ∧ s ≤ incs.length - k

/-- `GetRec` returns, and its record says where the last zeros start if they are enough. -/
def ReportsConvergence (s : ℤ) (incs : List ℚ) (state : MultiIterState) : Prop :=
  ∃ final after, state.getRec = some (final, after) ∧
    (∀ k : ℕ, final.converged = true ∧ final.itersToConverge = k ↔ EndsWithZeros s incs k) ∧
    ((¬ ∃ k, EndsWithZeros s incs k) → final.converged = false ∧ final.itersToConverge = -1)

section Report

variable {n s : ℤ} {incs : List ℚ} {state : MultiIterState}

theorem reportsConvergence_iff_fixRec (hcollected : Collected n s incs state) :
    ReportsConvergence s incs state ↔ ∃ final, state.fixRec = some final ∧
      (∀ k : ℕ, final.converged = true ∧ final.itersToConverge = k ↔ EndsWithZeros s incs k) ∧
      ((¬ ∃ k, EndsWithZeros s incs k) → final.converged = false ∧ final.itersToConverge = -1) := by
  simp [ReportsConvergence, getRec, hcollected.fixedRec_eq]

theorem Stopped.reports_iff (hs : 1 ≤ s) (hn : n < 2 ^ 63) (hstopped : Stopped n s incs state) :
    ReportsConvergence s incs state ↔ ¬ ZeroRunFrom incs 0 := by
  rw [reportsConvergence_iff_fixRec hstopped.toCollected]
  obtain ⟨k, hmark, hle⟩ := hstopped.mark
  have hlength := hstopped.length_le
  have hbmod : ((k : ℤ) + s).bmod (2 ^ 64) ≤ n := by
    rw [Int.bmod_eq_of_le (by omega) (by omega)]
    omega
  have hrun := hmark.2.2
  by_cases hzero : k = 0
  · subst hzero
    have hnone := fixRec_of_marked_zero hstopped.toCollected hmark (by simpa using hbmod)
    simp [hnone, hrun]
  · obtain ⟨final, hfinal, hconverged, hiters⟩ :=
      fixRec_of_marked hstopped.toCollected hmark hbmod (by omega)
    have hne : ¬ ZeroRunFrom incs 0 := fun hrun' => hzero (hrun.unique hrun')
    have hends : EndsWithZeros s incs k := ⟨hrun, by omega⟩
    refine iff_of_true ⟨final, hfinal, fun l => ?_, fun hnot => absurd ⟨k, hends⟩ hnot⟩ hne
    constructor
    · rintro ⟨-, hl⟩
      obtain rfl : k = l := by omega
      exact hends
    · intro hl
      obtain rfl := hrun.unique hl.1
      exact ⟨hconverged, hiters⟩

theorem Running.not_endsWithZeros (hrunning : Running n s incs state) (k : ℕ) :
    ¬ EndsWithZeros s incs k := by
  rintro ⟨hrun, hle⟩
  rcases hrunning.mark with ⟨-, -, hlast⟩ | ⟨l, ⟨-, -, hrun'⟩, hlt⟩
  · exact hlast hrun.getLast?_eq
  · obtain rfl := hrun.unique hrun'
    omega

theorem Running.reportsConvergence_of_unmarked (hn : 1 ≤ n) (hrunning : Running n s incs state)
    (hlength : (incs.length : ℤ) = n)
    (hmark : Unmarked incs state.record ∨ n < (state.record.itersToConverge + s).bmod (2 ^ 64)) :
    ReportsConvergence s incs state := by
  obtain ⟨final, hfinal, hconverged, hiters⟩ :=
    fixRec_of_unmarked hn hrunning.toCollected hlength hmark
  rw [reportsConvergence_iff_fixRec hrunning.toCollected]
  refine ⟨final, hfinal, fun k => iff_of_false ?_ (hrunning.not_endsWithZeros k),
    fun _ => ⟨hconverged, hiters⟩⟩
  simp [hconverged]

theorem Running.reports_iff (hn : 1 ≤ n) (hs : 1 ≤ s) (hn' : n < 2 ^ 63)
    (hs' : s < 2 ^ 63) (hrunning : Running n s incs state) (hlength : (incs.length : ℤ) = n) :
    ReportsConvergence s incs state ↔ ∀ k : ℕ, ZeroRunFrom incs k → (k + s : ℤ) < 2 ^ 63 := by
  rcases hrunning.mark with hunmarked | ⟨k, hmark, hlt⟩
  · refine iff_of_true (hrunning.reportsConvergence_of_unmarked hn hlength (Or.inl hunmarked))
      fun k hrun => absurd hrun.getLast?_eq hunmarked.2.2
  obtain ⟨-, hk, hrun⟩ := id hmark
  have hltlength := hrun.lt_length
  by_cases hsum : (k + s : ℤ) < 2 ^ 63
  · have hbmod : n < (state.record.itersToConverge + s).bmod (2 ^ 64) := by
      rw [hk, Int.bmod_eq_of_le (by omega) (by omega)]
      omega
    refine iff_of_true (hrunning.reportsConvergence_of_unmarked hn hlength (Or.inr hbmod))
      fun l hrun' => ?_
    obtain rfl := hrun.unique hrun'
    exact hsum
  · -- the sum is negative, so that the mark stays
    have hbmod : ((k : ℤ) + s).bmod (2 ^ 64) ≤ n := by
      rw [Int.bmod_def]
      split_ifs <;> omega
    refine iff_of_false ?_ fun hall => hsum (hall k hrun)
    rw [reportsConvergence_iff_fixRec hrunning.toCollected]
    rintro ⟨final, hfinal, hreport, -⟩
    obtain ⟨final', hfinal', hmark'⟩ := fixRec_of_marked hrunning.toCollected hmark hbmod (by omega)
    obtain rfl : final = final' := Option.some_inj.1 (hfinal.symm.trans hfinal')
    exact hrunning.not_endsWithZeros k ((hreport k).1 hmark')

end Report

/--
A run is reported right unless it is stopped after zeros only, or the start of its last
zeros and `s` add up to more than an `int` holds.
-/
theorem RunUntilDone.reportsConvergence_iff {n s : ℤ} (hn : 1 ≤ n) (hs : 1 ≤ s)
    (hn' : n < 2 ^ 63) (hs' : s < 2 ^ 63) {iters : List Iter} (hrun : RunUntilDone n s iters) :
    ReportsConvergence s (increments iters) (recordIters n s iters) ↔
      ((∃ inc ∈ increments iters, inc ≠ 0) ∨ n < s) ∧
        ∀ k : ℕ, ZeroRunFrom (increments iters) k → (k + s : ℤ) < 2 ^ 63 := by
  rcases hrun.running_or_stopped hn with ⟨hrunning, hlength⟩ | hstopped
  · rw [hrunning.reports_iff hn hs hn' hs' hlength]
    refine ⟨fun hsum => ⟨?_, hsum⟩, And.right⟩
    by_contra hzero
    push Not at hzero
    have hne : increments iters ≠ [] := by
      rintro hnil
      rw [hnil, List.length_nil] at hlength
      omega
    have hends : EndsWithZeros s (increments iters) 0 :=
      ⟨(ZeroRunFrom.zero_iff hne).2 hzero.1, by simp only [Nat.cast_zero]; omega⟩
    exact hrunning.not_endsWithZeros 0 hends
  · rw [hstopped.reports_iff hs hn']
    obtain ⟨k, ⟨-, -, hk⟩, hle⟩ := hstopped.mark
    have hlength := hstopped.length_le
    have hne : increments iters ≠ [] := List.length_pos_iff.1 (by have := hk.lt_length; omega)
    have hsum : ∀ l : ℕ, ZeroRunFrom (increments iters) l → (l + s : ℤ) < 2 ^ 63 := by
      intro l hl
      obtain rfl := hk.unique hl
      omega
    rw [ZeroRunFrom.zero_iff hne]
    constructor
    · intro hnot
      push Not at hnot
      exact ⟨Or.inl hnot, hsum⟩
    · rintro ⟨hinc | hlt, -⟩ hzero
      · obtain ⟨inc, hmem, hinc⟩ := hinc
        exact hinc (hzero inc hmem)
      · omega

/-- A change and then a stable iteration, of which one is enough. -/
theorem reportsConvergence_one_change :
    RunUntilDone 4 1 [⟨⟨1 / 2, 0, 3⟩, 5, 0⟩, ⟨⟨0, 0, 0⟩, 1, 0⟩] ∧
      ReportsConvergence 1 (increments [⟨⟨1 / 2, 0, 3⟩, 5, 0⟩, ⟨⟨0, 0, 0⟩, 1, 0⟩])
        (recordIters 4 1 [⟨⟨1 / 2, 0, 3⟩, 5, 0⟩, ⟨⟨0, 0, 0⟩, 1, 0⟩]) := by
  have hrun : RunUntilDone 4 1 [⟨⟨1 / 2, 0, 3⟩, 5, 0⟩, ⟨⟨0, 0, 0⟩, 1, 0⟩] := by
    unfold RunUntilDone
    decide +kernel
  refine ⟨hrun, (RunUntilDone.reportsConvergence_iff (by omega) (by omega) (by omega) (by omega)
    hrun).2 ⟨Or.inl ⟨1 / 2, by simp [increments], by norm_num⟩, fun k hk => ?_⟩⟩
  have hlt : k < 2 := hk.lt_length
  omega

/-- A run that is stable from its first iteration on makes `GetRec` panic. -/
theorem not_reportsConvergence_stable_start :
    RunUntilDone 4 1 [⟨⟨0, 0, 0⟩, 1, 0⟩] ∧ EndsWithZeros 1 (increments [⟨⟨0, 0, 0⟩, 1, 0⟩]) 0 ∧
      (recordIters 4 1 [⟨⟨0, 0, 0⟩, 1, 0⟩]).getRec = none ∧
      ¬ ReportsConvergence 1 (increments [⟨⟨0, 0, 0⟩, 1, 0⟩])
        (recordIters 4 1 [⟨⟨0, 0, 0⟩, 1, 0⟩]) := by
  have hnone : (recordIters 4 1 [⟨⟨0, 0, 0⟩, 1, 0⟩]).getRec = none := by
    rw [← Option.isNone_iff_eq_none]
    decide +kernel
  refine ⟨?_, ⟨(ZeroRunFrom.zero_iff (by simp [increments])).2 (by simp [increments]),
    by simp [increments]⟩, hnone, ?_⟩
  · unfold RunUntilDone
    decide +kernel
  · rintro ⟨final, after, hsome, -⟩
    rw [hnone] at hsome
    contradiction

end MultiIterState
end FeedbackSim
end HeypAgents
