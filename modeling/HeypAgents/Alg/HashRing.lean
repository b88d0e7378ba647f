import HeypAgents.Lib.CircularWindow

/-!
# The hash ring of the downgrade selector

Embedding of `heyp/alg/unordered-ids.h` and `heyp/alg/downgrade/hash-ring.h`.
A `HashRing` selects a fraction of the 64-bit id space as one circular range
that begins at `start`.  `UpdateFrac` moves either the end of the range (when
the fraction grows) or its start (when it shrinks) and reports the ids that
entered or left.

* `uint64_t` and `absl::uint128` values are natural numbers; every operation
  that can wrap is reduced modulo `2 ^ 64` or `2 ^ 128` where the source wraps.
* `double` fractions are exact rationals.  Rounding is modelled where the
  source asks for it, in `FracToRing`.
* `ABSL_ASSERT` is compiled out and has no effect here.
-/

namespace HeypAgents

structure IdRange where
  lo : ℕ := 1
  hi : ℕ := 0
deriving DecidableEq, Repr

namespace IdRange

def contains (r : IdRange) (id : ℕ) : Bool := decide (r.lo ≤ id) && decide (id ≤ r.hi)

def empty (r : IdRange) : Bool := decide (r.hi < r.lo)

@[simp] theorem contains_iff (r : IdRange) (id : ℕ) :
    r.contains id = true ↔ r.lo ≤ id ∧ id ≤ r.hi := by
  simp [contains]

theorem contains_eq_false_of_empty {r : IdRange} (h : r.empty = true) (id : ℕ) :
    r.contains id = false := by
  simp only [empty, decide_eq_true_eq] at h
  rw [Bool.eq_false_iff, ne_eq, contains_iff]
  omega

end IdRange

structure UnorderedIds where
  ranges : List IdRange := []
  points : List ℕ := []
deriving DecidableEq, Repr

structure RingRanges where
  a : IdRange := {}
  b : IdRange := {}
deriving DecidableEq, Repr

def RingRanges.contains (r : RingRanges) (id : ℕ) : Bool := r.a.contains id || r.b.contains id

theorem RingRanges.contains_iff (r : RingRanges) (id : ℕ) :
    r.contains id = true ↔ (r.a.lo ≤ id ∧ id ≤ r.a.hi) ∨ (r.b.lo ≤ id ∧ id ≤ r.b.hi) := by
  simp [RingRanges.contains]

inductive RangeDiffType where
  | kAdd
  | kDel
deriving DecidableEq, Repr

structure RangeDiff where
  diff : RingRanges := {}
  type : RangeDiffType := .kAdd
deriving DecidableEq, Repr

def maxId : ℕ := 2 ^ 64 - 1

def uint128Low64 (x : ℕ) : ℕ := x % 2 ^ 64

def uint128High64 (x : ℕ) : ℕ := x / 2 ^ 64 % 2 ^ 64

def uint128Add (x y : ℕ) : ℕ := (x + y) % 2 ^ 128

def uint128Sub (x y : ℕ) : ℕ := (x + (2 ^ 128 - y)) % 2 ^ 128

/-- C's `round`: nearest integer, halfway cases away from zero. -/
def roundHalfAway (x : ℚ) : ℤ :=
  if 0 ≤ x then ⌊x + 1 / 2⌋ else ⌈x - 1 / 2⌉

/-- The two fields `start_` and `frac_`, with their initial values. -/
structure HashRing where
  start : ℕ := 0
  frac : ℚ := 0
deriving DecidableEq, Repr

namespace HashRing

def kNumChunks : ℕ := 2 ^ 32

def kChunkSize : ℕ := kNumChunks

/-- Ids covered by a fraction, in whole chunks. -/
def fracToRing (frac : ℚ) : ℕ :=
  let matchedChunks := (roundHalfAway (frac * kNumChunks)).toNat % 2 ^ 64
  if matchedChunks = 0 then 0
  else matchedChunks * kChunkSize % 2 ^ 128

def computeRangeDiff (oldStart : ℕ) (oldFrac : ℚ) (newStart : ℕ) (newFrac : ℚ) : RangeDiff :=
  if oldFrac = newFrac then {}
  else
    -- For zero chunks the subtraction wraps around to `2 ^ 128 - 1`.
    let oldEnd := uint128Add oldStart (uint128Sub (fracToRing oldFrac) 1)
    let newEnd := uint128Add newStart (uint128Sub (fracToRing newFrac) 1)
    if oldFrac < newFrac then
      let newEndLo := uint128Low64 newEnd
      let oldEndP1 := uint128Add oldEnd 1
      let oldEndP1Lo := uint128Low64 oldEndP1
      let newEndHi := uint128High64 newEnd
      let oldEndP1Hi := uint128High64 oldEndP1
      if newEndHi ≠ 0 ∧ oldEndP1Hi = 0 then
        { diff := { a := ⟨0, newEndLo⟩, b := ⟨oldEndP1Lo, maxId⟩ }
          type := .kAdd }
      else
        { diff := { a := ⟨oldEndP1Lo, newEndLo⟩ }
          type := .kAdd }
    else if oldStart < newStart then
      { diff := { a := ⟨oldStart, newStart - 1⟩ }
        type := .kDel }
    else if newStart = 0 then
      { diff := { a := ⟨oldStart, maxId⟩ }
        type := .kDel }
    else
      { diff := { a := ⟨0, newStart - 1⟩, b := ⟨oldStart, maxId⟩ }
        type := .kDel }

/-- The clamping at the head of `UpdateFrac`. -/
def clampFrac (frac : ℚ) : ℚ :=
  if frac < 0 then 0
  else if 1 < frac then 1
  else frac

def updateFrac (ring : HashRing) (frac : ℚ) : HashRing × RangeDiff :=
  let frac := clampFrac frac
  let start :=
    if frac < ring.frac then
      (ring.start + uint128Low64 (fracToRing (ring.frac - frac))) % 2 ^ 64
    else
      ring.start
  (⟨start, frac⟩, computeRangeDiff ring.start ring.frac start frac)

def add (ring : HashRing) (fracDiff : ℚ) : HashRing × RangeDiff :=
  ring.updateFrac (ring.frac + fracDiff)

def sub (ring : HashRing) (fracDiff : ℚ) : HashRing × RangeDiff :=
  ring.updateFrac (ring.frac - fracDiff)

def matchingRanges (ring : HashRing) : RingRanges :=
  if ring.frac = 0 then {}
  else
    let ringEnd := uint128Sub (uint128Add ring.start (fracToRing ring.frac)) 1
    let endLow := uint128Low64 ringEnd
    if uint128High64 ringEnd ≠ 0 then
      { a := ⟨0, endLow⟩, b := ⟨ring.start, maxId⟩ }
    else
      { a := ⟨ring.start, endLow⟩ }

/-- The id is in the set that the ring selects. -/
def Matches (ring : HashRing) (id : ℕ) : Prop := ring.matchingRanges.contains id = true
deriving Decidable

/-- A call of one of the three public mutators. -/
inductive Call where
  | add (fracDiff : ℚ)
  | sub (fracDiff : ℚ)
  | updateFrac (frac : ℚ)
deriving DecidableEq, Repr

/-- The argument with which a call reaches `UpdateFrac`. -/
def Call.target (ring : HashRing) : Call → ℚ
  | .add fracDiff => ring.frac + fracDiff
  | .sub fracDiff => ring.frac - fracDiff
  | .updateFrac frac => frac

def call (ring : HashRing) : Call → HashRing × RangeDiff
  | .add fracDiff => ring.add fracDiff
  | .sub fracDiff => ring.sub fracDiff
  | .updateFrac frac => ring.updateFrac frac

theorem call_eq_updateFrac (ring : HashRing) (c : Call) :
    ring.call c = ring.updateFrac (c.target ring) := by
  cases c <;> rfl

def run (calls : List Call) : HashRing × List RangeDiff :=
  calls.foldl (fun st c => ((st.1.call c).1, st.2 ++ [(st.1.call c).2])) ({}, [])

theorem run_concat (calls : List Call) (c : Call) :
    run (calls ++ [c]) =
      (((run calls).1.call c).1, (run calls).2 ++ [((run calls).1.call c).2]) := by
  simp [run, List.foldl_append]

end HashRing

def RangeDiff.Reports (d : RangeDiff) (id : ℕ) : Prop := d.diff.contains id = true
deriving Decidable

end HeypAgents
