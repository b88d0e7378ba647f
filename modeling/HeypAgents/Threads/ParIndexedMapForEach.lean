import HeypAgents.Lib.CountingLoop
import HeypAgents.Threads.ParIndexedMapCopy

/-!
# Iterating over the map with sequential ids

`ForEach` visits the ids of a range span by span.  It computes the first and the last
span with divisions that round toward zero, where the last id of an empty range may be
`-1`, and it counts the ids apart from the places of the entries.

The function that is called may change the value and what it has captured.  The loops
do what calls of `OnID` for the ids of the range do, one after the other.
-/

namespace HeypAgents
namespace ParIndexedMap

open CountingLoop Runs

section ForEach

variable {Key Value Env : Type}

/-- What the loops of `ForEach` change; `env` is what the function has captured. -/
structure Visit (Key Value Env : Type) where
  map : ParIndexedMap Key Value
  curId : ℤ
  env : Env

variable (func : ℤ → Value → Env → Value × Env)

/-- The body of the inner loop. -/
def visitEntry (s : SpanPtr) (ei : ℤ) (v : Visit Key Value Env) :
    Except Failure (Visit Key Value Env) :=
  if ei < 0 then .error .outOfRange
  else
    match s with
    | .span address =>
      (v.map.deref s ei.toNat).map fun val =>
        { map :=
            { v.map with
              heap := v.map.heap.modify address fun span =>
                span.modify ei.toNat fun val => (func v.curId val v.env).1 }
          curId := v.curId + 1
          env := (func v.curId val v.env).2 }
    | _ => .error .strayPointer

def startSpan (start : ℤ) : ℤ := start.tdiv kSpanSize

def endSpan (stop : ℤ) : ℤ := (stop - 1).tdiv kSpanSize

def firstEntry (start si : ℤ) : ℤ :=
  if si = startSpan start then start.tmod kSpanSize else 0

def eiStop (stop si : ℤ) : ℤ :=
  if si = endSpan stop then (stop - 1).tmod kSpanSize + 1 else kSpanSize

/-- The body of the outer loop. -/
def visitSpan (start stop si : ℤ) (v : Visit Key Value Env) :
    Except Failure (Visit Key Value Env) :=
  (v.map.load si).bind fun s =>
    forLoop (visitEntry func s) (firstEntry start si) (eiStop stop si) v

def forEach (m : ParIndexedMap Key Value) (start stop : ℤ) (env : Env) :
    Except Failure (ParIndexedMap Key Value × Env) :=
  if start < 0 then .error (.assertFailed "")
  else if m.len < stop then .error (.assertFailed "")
  else
    (forLoop (visitSpan func start stop) (startSpan start) (endSpan stop + 1) ⟨m, start, env⟩).map
      fun v => (v.map, v.env)

/-- A call of `OnID` with a function that changes what it has captured. -/
def onIdWith (id : ℤ) (s : ParIndexedMap Key Value × Env) :
    Except Failure (ParIndexedMap Key Value × Env) :=
  (s.1.valueAt id).bind fun val =>
    (s.1.onId id fun val => (func id val s.2).1).map fun m => (m, (func id val s.2).2)

end ForEach

section Places

variable {start stop si : ℤ}

def firstId (start stop si : ℤ) : ℤ := max start (min stop (si * kSpanSize))

theorem firstId_startSpan (hstart : 0 ≤ start) (stop : ℤ) :
    firstId start stop (startSpan start) = start := by
  unfold firstId startSpan kSpanSize
  rw [Int.tdiv_eq_ediv_of_nonneg hstart]
  omega

theorem firstId_endSpan (hstart : 0 ≤ start) (hle : start ≤ stop) :
    firstId start stop (endSpan stop + 1) = stop := by
  unfold firstId endSpan kSpanSize
  rcases eq_or_lt_of_le (hstart.trans hle) with rfl | hpos
  · have hzero : start = 0 := le_antisymm hle hstart
    subst hzero
    rfl
  · rw [Int.tdiv_eq_ediv_of_nonneg (by omega)]
    omega

theorem startSpan_le (hstart : 0 ≤ start) (hle : start ≤ stop) :
    startSpan start ≤ endSpan stop + 1 := by
  unfold startSpan endSpan kSpanSize
  rw [Int.tdiv_eq_ediv_of_nonneg hstart]
  rcases eq_or_lt_of_le (hstart.trans hle) with rfl | hpos
  · have hzero : start = 0 := le_antisymm hle hstart
    subst hzero
    decide
  · rw [Int.tdiv_eq_ediv_of_nonneg (by omega)]
    omega

theorem add_firstEntry (hstart : 0 ≤ start) (hle : start ≤ stop) (hlo : startSpan start ≤ si)
    (hhi : si ≤ endSpan stop) : si * kSpanSize + firstEntry start si = firstId start stop si := by
  rw [firstEntry]
  split_ifs with hsi
  · rw [hsi, firstId_startSpan hstart]
    exact Int.tdiv_mul_add_tmod start kSpanSize
  · unfold startSpan endSpan kSpanSize at *
    unfold firstId kSpanSize
    rw [Int.tdiv_eq_ediv_of_nonneg hstart] at hlo hsi
    rcases eq_or_lt_of_le (hstart.trans hle) with rfl | hpos
    · simp at hhi
      omega
    · rw [Int.tdiv_eq_ediv_of_nonneg (by omega)] at hhi
      omega

theorem add_eiStop (hstart : 0 ≤ start) (hle : start ≤ stop) (hlo : startSpan start ≤ si)
    (hhi : si ≤ endSpan stop) : si * kSpanSize + eiStop stop si = firstId start stop (si + 1) := by
  rw [eiStop]
  split_ifs with hsi
  · rw [hsi, firstId_endSpan hstart hle, ← add_assoc]
    have hdiv : endSpan stop * kSpanSize + (stop - 1).tmod kSpanSize = stop - 1 :=
      Int.tdiv_mul_add_tmod (stop - 1) kSpanSize
    omega
  · unfold startSpan endSpan kSpanSize at *
    unfold firstId kSpanSize
    rw [Int.tdiv_eq_ediv_of_nonneg hstart] at hlo
    rcases eq_or_lt_of_le (hstart.trans hle) with rfl | hpos
    · simp at hhi hsi
      omega
    · rw [Int.tdiv_eq_ediv_of_nonneg (by omega)] at hhi hsi
      omega

theorem firstId_le_succ (start stop si : ℤ) : firstId start stop si ≤ firstId start stop (si + 1) := by
  unfold firstId kSpanSize
  omega

theorem firstEntry_nonneg (hstart : 0 ≤ start) : 0 ≤ firstEntry start si := by
  rw [firstEntry]
  split_ifs
  · exact Int.tmod_nonneg _ hstart
  · exact le_refl _

theorem eiStop_le (stop si : ℤ) : eiStop stop si ≤ kSpanSize := by
  rw [eiStop]
  split_ifs
  · have hlt : (stop - 1).tmod kSpanSize < kSpanSize := Int.tmod_lt_of_pos _ (by decide)
    omega
  · exact le_refl _

end Places

section Visits

variable {Key Value Env : Type} {m : ParIndexedMap Key Value} {uncleared : ℕ → SpanPtr}
  {order : List Key}

/-- An entry is visited as `OnID` visits the one of the current id. -/
theorem Indexed.visitEntry (h : Indexed uncleared order m)
    (func : ℤ → Value → Env → Value × Env) {j ei id : ℕ} (hei : ei < kSpanSize)
    (hplace : id = j * kSpanSize + ei) (hid : id < m.len) (env : Env) :
    ∃ m' env', ParIndexedMap.visitEntry func (.span j) ei ⟨m, id, env⟩ =
        .ok ⟨m', (id : ℤ) + 1, env'⟩ ∧
      onIdWith func id (m, env) = .ok (m', env') ∧ Indexed uncleared order m' := by
  have hj : id / kSpanSize = j := by
    unfold kSpanSize at *
    omega
  have hmod : id % kSpanSize = ei := by
    unfold kSpanSize at *
    omega
  obtain ⟨span, val, hspan, hval, hvalue⟩ := h.exists_valueAt hid
  have hcall : (m.onId id fun val => (func id val env).1) = .ok
      { m with heap := m.heap.modify j fun span => span.modify ei fun val => (func id val env).1 } := by
    rw [ParIndexedMap.onId, h.entry_eq hid, hj, hmod]
    rfl
  have hderef : m.deref (.span j) ei = .ok val := by
    rw [hj] at hspan
    rw [hmod] at hval
    simp [deref, hspan, hval]
  refine ⟨_, (func id val env).2, ?_, ?_, h.onId hcall⟩
  · rw [ParIndexedMap.visitEntry, if_neg (by omega)]
    simp only [Int.toNat_natCast, hderef]
    rfl
  · rw [onIdWith, hvalue]
    simp only [Except.bind, hcall]
    rfl

/-- The loops have reached an id, and calls of `OnID` have led to the same state. -/
structure Visiting (uncleared : ℕ → SpanPtr) (order : List Key) (id : ℤ)
    (v : Visit Key Value Env) (s : ParIndexedMap Key Value × Env) : Prop where
  same : s = (v.map, v.env)
  curId : v.curId = id
  indexed : Indexed uncleared order v.map

variable {v : Visit Key Value Env} {s : ParIndexedMap Key Value × Env} {start stop si : ℤ}

theorem Indexed.load_eq (h : Indexed uncleared order m) (hstop : 0 ≤ stop)
    (hlen : stop ≤ m.len) {j : ℕ} (hj : j ≤ endSpan stop) : m.load j = .ok (m.spans j) := by
  rw [load_natCast, if_pos]
  rcases eq_or_lt_of_le hstop with rfl | hpos
  · have hzero : j = 0 := by
      have hend : endSpan 0 = 0 := rfl
      omega
    subst hzero
    decide
  · refine lt_kNumSpans h.fits.1 ?_
    unfold endSpan kSpanSize at hj
    rw [Int.tdiv_eq_ediv_of_nonneg (by omega)] at hj
    unfold numSpans kSpanSize
    omega

/-- A span is visited by one iteration of the outer loop. -/
theorem Visiting.visitSpan (func : ℤ → Value → Env → Value × Env) (hstart : 0 ≤ start)
    (hle : start ≤ stop) (hlen : stop ≤ order.length) (hlo : startSpan start ≤ si)
    (hhi : si ≤ endSpan stop) (h : Visiting uncleared order (firstId start stop si) v s) :
    ∃ v' s', ParIndexedMap.visitSpan func start stop si v = .ok v' ∧
      forLoop (onIdWith func) (firstId start stop si) (firstId start stop (si + 1)) s = .ok s' ∧
      Visiting uncleared order (firstId start stop (si + 1)) v' s' := by
  have hspan : 0 ≤ startSpan start := Int.tdiv_nonneg hstart (by decide)
  obtain ⟨j, rfl⟩ := Int.eq_ofNat_of_zero_le (hspan.trans hlo)
  have hfirst := add_firstEntry hstart hle hlo hhi
  have hstop := add_eiStop hstart hle hlo hhi
  have hmono := firstId_le_succ start stop j
  have hload : v.map.load j = .ok (v.map.spans j) := by
    refine h.indexed.load_eq (hstart.trans hle) ?_ hhi
    rw [h.indexed.len]
    exact hlen
  have hbound : firstId start stop (j + 1) ≤ stop := max_le hle (min_le_left _ _)
  rw [ParIndexedMap.visitSpan, hload, ← hfirst, ← hstop]
  rw [← hfirst] at h
  refine (exists_forLoop_blocks (fun ei => Visiting uncleared order (j * kSpanSize + ei))
    (fun ei => j * kSpanSize + ei) (fun ei _ _ => by omega) ?_ (by omega) h).2
  intro ei v₁ s₁ hei hei' h₁
  have hnonneg := (firstEntry_nonneg hstart).trans hei
  have hsize := hei'.trans_le (eiStop_le stop j)
  obtain ⟨e, rfl⟩ := Int.eq_ofNat_of_zero_le hnonneg
  obtain ⟨map, curId, env⟩ := v₁
  obtain ⟨rfl, rfl, hindexed⟩ := h₁
  have hid : j * kSpanSize + e < map.len := by
    rw [hindexed.len]
    omega
  have hinUse : v.map.spans j = .span j := by
    have hj : (j * kSpanSize + e) / kSpanSize = j := by
      unfold kSpanSize at *
      omega
    refine h.indexed.inUse j ?_
    rw [h.indexed.len, ← hindexed.len]
    exact hj ▸ div_lt_numSpans hid
  obtain ⟨m', env', hvisit, hcall, h'⟩ := hindexed.visitEntry func (by omega) rfl hid env
  push_cast at hvisit hcall
  rw [hinUse]
  refine ⟨_, (m', env'), hvisit, ?_, rfl, by ring, h'⟩
  exact (forLoop_succ (by ring)).trans hcall

/-- `ForEach` does what calls of `OnID` for the ids of the range do. -/
theorem Indexed.forEach (h : Indexed uncleared order m) (func : ℤ → Value → Env → Value × Env)
    (hstart : 0 ≤ start) (hle : start ≤ stop) (hstop : stop ≤ m.numIds) (env : Env) :
    ∃ s, m.forEach func start stop env = .ok s ∧
      forLoop (onIdWith func) start stop (m, env) = .ok s := by
  rw [numIds] at hstop
  have hlen : stop ≤ order.length := by
    rwa [← h.len]
  have hfirst := firstId_startSpan hstart stop
  have h₀ : Visiting uncleared order (firstId start stop (startSpan start)) ⟨m, start, env⟩
      (m, env) := ⟨rfl, hfirst.symm, h⟩
  obtain ⟨-, v, s, hvisits, hcalls, rfl, -, -⟩ :=
    exists_forLoop_blocks (fun si => Visiting uncleared order (firstId start stop si))
      (firstId start stop) (fun si _ _ => firstId_le_succ start stop si)
      (fun si v s hlo hhi h => h.visitSpan func hstart hle hlen hlo (by omega))
      (startSpan_le hstart hle) h₀
  rw [hfirst, firstId_endSpan hstart hle] at hcalls
  refine ⟨_, ?_, hcalls⟩
  rw [ParIndexedMap.forEach, if_neg (by omega), if_neg (not_lt.mpr hstop), hvisits]
  rfl

variable [DecidableEq Key] [Inhabited Value]

/--
On every map that calls of `GetID` and `OnID` have produced, `ForEach` returns, and it has
called the function once for each id of the range in ascending order, as calls of `OnID` do.
-/
theorem forEach_eq_foldlM_onId (calls : List (Call Key Value))
    (hrun : exec call (create uncleared) calls = some m)
    (func : ℤ → Value → Env → Value × Env) (hstart : 0 ≤ start) (hle : start ≤ stop)
    (hstop : stop ≤ m.numIds) (env : Env) :
    ∃ s, m.forEach func start stop env = .ok s ∧
      (Int.range start stop).foldlM (fun s id => onIdWith func id s) (m, env) = .ok s := by
  obtain ⟨order, h⟩ := indexed_run hrun
  obtain ⟨s, hforEach, hcalls⟩ := h.forEach func hstart hle hstop env
  exact ⟨s, hforEach, by rw [← forLoop_eq_foldlM, hcalls]⟩

/-- The function notes the ids, of which the last is in a second span. -/
theorem forEach_two_spans :
    ∃ m : ParIndexedMap ℕ ℕ, exec call (create fun _ => .null) (filled 1001) = some m ∧
      ∃ s, m.forEach (fun id val ids => (val + 1, ids ++ [id])) 998 1001 [] = .ok s ∧
        (Int.range 998 1001).foldlM
          (fun s id => onIdWith (fun id val ids => (val + 1, ids ++ [id])) id s) (m, []) =
            .ok s := by
  obtain ⟨m, hrun, hlen, -⟩ := exists_filled (n := 1001) (by decide) (by decide)
  refine ⟨m, hrun, forEach_eq_foldlM_onId (filled 1001) hrun _ (by decide) (by decide) ?_ []⟩
  rw [numIds, hlen]
  decide

end Visits

end ParIndexedMap
end HeypAgents
