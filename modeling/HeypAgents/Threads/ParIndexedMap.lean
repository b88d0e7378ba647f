import HeypAgents.Lib.Runs

/-!
# The map with sequential ids

`ParIndexedMap` gives every key an id, and keeps the values in spans that are allocated
when the ids reach them.  The table of spans has a fixed size.  A span is a list of the
heap of the map, and a pointer to it is its position there; the pointers that the
constructor does not clear are arbitrary.

An entry is found by splitting its id into the number of its span and its place in it.
Calls of `GetID` are serialized by a lock, so a run is a list of calls.
-/

namespace HeypAgents

inductive SpanPtr where
  | null
  | span (address : ℕ)
  | stray (bits : ℕ)
deriving DecidableEq, Repr

structure ParIndexedMap (Key Value : Type) where
  spans : ℕ → SpanPtr
  heap : List (List Value) := []
  len : ℕ := 0
  idMap : Key → Option ℕ := fun _ => none

namespace ParIndexedMap

structure GetResult where
  id : ℤ := -1
  justCreated : Bool := true
deriving DecidableEq, Repr

def kMaxEntries : ℕ := 10000000

def kSpanSize : ℕ := 1000

def kNumSpans : ℕ := kMaxEntries / kSpanSize

/-- How a call can go wrong. -/
inductive Failure where
  | assertFailed (mesg : String)
  | outOfRange
  | strayPointer
deriving DecidableEq, Repr

/-- The table after the constructor, which clears `kSpanSize` of its entries. -/
def clearedSpans (uncleared : ℕ → SpanPtr) (j : ℕ) : SpanPtr :=
  if j < kSpanSize then .null else uncleared j

def numSpans (len : ℕ) : ℕ := (len + kSpanSize - 1) / kSpanSize

section Calls

variable {Key Value : Type}

def create (uncleared : ℕ → SpanPtr) : ParIndexedMap Key Value where
  spans := clearedSpans uncleared

/-- The values of a new span. -/
def newSpan (Value : Type) [Inhabited Value] : List Value := List.replicate kSpanSize default

variable (m : ParIndexedMap Key Value)

/-- An entry of the table. -/
def load (j : ℤ) : Except Failure SpanPtr :=
  if 0 ≤ j ∧ j < kNumSpans then .ok (m.spans j.toNat) else .error .outOfRange

def storeSpan (j : ℕ) (span : List Value) : ParIndexedMap Key Value :=
  { m with
    spans := Function.update m.spans j (.span m.heap.length)
    heap := m.heap ++ [span] }

def addEntry [Inhabited Value] : Except Failure (ℕ × ParIndexedMap Key Value) :=
  if m.len % kSpanSize = 0 then
    match m.load (m.len / kSpanSize : ℕ) with
    | .error e => .error e
    | .ok .null =>
      .ok (m.len, { m.storeSpan (m.len / kSpanSize) (newSpan Value) with len := m.len + 1 })
    | .ok _ => .error (.assertFailed ("id = " ++ toString m.len))
  else .ok (m.len, { m with len := m.len + 1 })

def getId [DecidableEq Key] [Inhabited Value] (key : Key) :
    Except Failure (GetResult × ParIndexedMap Key Value) :=
  match m.idMap key with
  | some id => .ok (⟨id, false⟩, m)
  | none =>
    m.addEntry.map fun (id, m') =>
      (⟨id, true⟩, { m' with idMap := Function.update m'.idMap key (some id) })

def numIds : ℤ := m.len

/-- The address of the entry that `OnID` works on: its span and its place there. -/
def entry (id : ℤ) : Except Failure (ℕ × ℕ) :=
  if m.len ≤ id then .error (.assertFailed "")
  else
    match m.load (id.tdiv kSpanSize) with
    | .error e => .error e
    | .ok .null => .error (.assertFailed "")
    | .ok (.stray _) => .error .strayPointer
    | .ok (.span address) =>
      -- the comparison with the size is one of unsigned numbers
      if 0 ≤ id.tmod kSpanSize then .ok (address, (id.tmod kSpanSize).toNat)
      else .error (.assertFailed "")

def onId (id : ℤ) (func : Value → Value) : Except Failure (ParIndexedMap Key Value) :=
  (m.entry id).map fun (address, ei) =>
    { m with heap := m.heap.modify address fun span => span.modify ei func }

def deref (ptr : SpanPtr) (ei : ℕ) : Except Failure Value :=
  match ptr with
  | .span address =>
    match m.heap[address]?.bind fun span => span[ei]? with
    | some val => .ok val
    | none => .error .strayPointer
  | _ => .error .strayPointer

/-- The value that `OnID` finds. -/
def valueAt (id : ℤ) : Except Failure Value :=
  (m.entry id).bind fun (address, ei) => m.deref (.span address) ei

end Calls

section Spans

variable {n j : ℕ}

theorem numSpans_succ (n : ℕ) : numSpans (n + 1) = n / kSpanSize + 1 := by
  unfold numSpans kSpanSize
  omega

theorem numSpans_eq (n : ℕ) :
    numSpans n = if n % kSpanSize = 0 then n / kSpanSize else n / kSpanSize + 1 := by
  unfold numSpans kSpanSize
  split_ifs <;> omega

theorem div_lt_numSpans {id : ℕ} (h : id < n) : id / kSpanSize < numSpans n := by
  unfold numSpans kSpanSize
  omega

theorem lt_kNumSpans (hroom : n ≤ kMaxEntries) (hj : j < numSpans n) : j < kNumSpans := by
  unfold numSpans kSpanSize at hj
  unfold kMaxEntries at hroom
  unfold kNumSpans kMaxEntries kSpanSize
  omega

/-- There is room for `n` ids, and the pointers to their spans are null at first. -/
def Fits (uncleared : ℕ → SpanPtr) (n : ℕ) : Prop :=
  n ≤ kMaxEntries ∧ ∀ j < numSpans n, clearedSpans uncleared j = .null

variable {uncleared : ℕ → SpanPtr}

theorem fits_zero : Fits uncleared 0 :=
  ⟨Nat.zero_le _, fun j hj => absurd hj (by simp [numSpans, kSpanSize])⟩

theorem fits_succ_iff :
    Fits uncleared (n + 1) ↔ Fits uncleared n ∧ (n % kSpanSize = 0 →
      n / kSpanSize < kNumSpans ∧ clearedSpans uncleared (n / kSpanSize) = .null) := by
  constructor
  · rintro ⟨hroom, hnull⟩
    rw [numSpans_succ] at hnull
    refine ⟨⟨by omega, fun j hj => hnull j ?_⟩, fun _ => ⟨?_, hnull _ (Nat.lt_succ_self _)⟩⟩
    · rw [numSpans_eq] at hj
      split_ifs at hj <;> omega
    · unfold kNumSpans kMaxEntries kSpanSize at *
      omega
  · rintro ⟨⟨hroom, hnull⟩, hnext⟩
    by_cases hfull : n % kSpanSize = 0
    · obtain ⟨hlt, hnull'⟩ := hnext hfull
      refine ⟨?_, fun j hj => ?_⟩
      · unfold kNumSpans kMaxEntries kSpanSize at *
        omega
      · rw [numSpans_succ] at hj
        rcases Nat.lt_succ_iff_lt_or_eq.mp hj with hj | rfl
        · exact hnull j (by rwa [numSpans_eq, if_pos hfull])
        · exact hnull'
    · refine ⟨?_, fun j hj => hnull j ?_⟩
      · unfold kMaxEntries kSpanSize at *
        omega
      · rwa [numSpans_eq, if_neg hfull, ← numSpans_succ]

theorem Fits.mono {n' : ℕ} (h : Fits uncleared n') (hle : n ≤ n') : Fits uncleared n := by
  refine ⟨hle.trans h.1, fun j hj => h.2 j (hj.trans_le ?_)⟩
  exact Nat.div_le_div_right (by omega)

theorem fits_iff :
    Fits uncleared n ↔ n ≤ kMaxEntries ∧
      ∀ j, kSpanSize ≤ j → j < numSpans n → uncleared j = .null := by
  refine and_congr_right fun _ => forall_congr' fun j => ?_
  rw [clearedSpans]
  split_ifs with hj
  · simp [Nat.not_le.mpr hj]
  · simp [Nat.not_lt.mp hj]

end Spans

section Indexed

variable {Key Value : Type} {m : ParIndexedMap Key Value} {key : Key}
  {uncleared : ℕ → SpanPtr} {order : List Key}

/-- The next entry has a place. -/
def Room (m : ParIndexedMap Key Value) : Prop :=
  m.len % kSpanSize = 0 → m.len / kSpanSize < kNumSpans ∧ m.spans (m.len / kSpanSize) = .null

/--
The ids are the positions of the keys in the order of their first use, and the spans in
use are the ones that were allocated for them.
-/
structure Indexed
    (uncleared : ℕ → SpanPtr) (order : List Key) (m : ParIndexedMap Key Value) : Prop where
  nodup : order.Nodup
  len : m.len = order.length
  idMap : ∀ key id, m.idMap key = some id ↔ order[id]? = some key
  heap : m.heap.length = numSpans m.len
  sizes : ∀ span ∈ m.heap, span.length = kSpanSize
  inUse : ∀ j < numSpans m.len, m.spans j = .span j
  unused : ∀ j, numSpans m.len ≤ j → m.spans j = clearedSpans uncleared j
  fits : Fits uncleared m.len

theorem indexed_create : Indexed uncleared [] (create uncleared : ParIndexedMap Key Value) where
  nodup := List.nodup_nil
  len := rfl
  idMap := by simp [create]
  heap := by simp [create, numSpans, kSpanSize]
  sizes := fun _ h => absurd h List.not_mem_nil
  inUse := fun j hj => absurd hj (by simp [create, numSpans, kSpanSize])
  unused := fun _ _ => rfl
  fits := fits_zero

theorem load_natCast (m : ParIndexedMap Key Value) (j : ℕ) :
    m.load j = if j < kNumSpans then .ok (m.spans j) else .error .outOfRange := by
  simp [load]

theorem entry_of_inUse {id : ℕ} (hroom : m.len ≤ kMaxEntries)
    (hinUse : m.spans (id / kSpanSize) = .span (id / kSpanSize)) (hid : id < m.len) :
    m.entry id = .ok (id / kSpanSize, id % kSpanSize) := by
  have hspan : id / kSpanSize < kNumSpans := lt_kNumSpans hroom (div_lt_numSpans hid)
  have hdiv : (id : ℤ).tdiv kSpanSize = (id / kSpanSize : ℕ) := rfl
  have hmod : (id : ℤ).tmod kSpanSize = (id % kSpanSize : ℕ) := rfl
  rw [entry, if_neg (by omega), hdiv, hmod, load_natCast, if_pos hspan, hinUse]
  simp only [Int.natCast_nonneg, if_true, Int.toNat_natCast]

theorem valueAt_of_inUse {id : ℕ} (hroom : m.len ≤ kMaxEntries)
    (hinUse : m.spans (id / kSpanSize) = .span (id / kSpanSize)) (hid : id < m.len) :
    m.valueAt id = m.deref (.span (id / kSpanSize)) (id % kSpanSize) := by
  rw [valueAt, entry_of_inUse hroom hinUse hid]
  rfl

namespace Indexed

theorem idMap_eq_none_iff (h : Indexed uncleared order m) : m.idMap key = none ↔ key ∉ order := by
  rw [Option.eq_none_iff_forall_ne_some, List.mem_iff_getElem?, not_exists]
  exact forall_congr' fun id => not_congr (h.idMap key id)

theorem room_iff (h : Indexed uncleared order m) : m.Room ↔ Fits uncleared (m.len + 1) := by
  rw [fits_succ_iff, and_iff_right h.fits, Room]
  refine forall_congr' fun hfull => ?_
  rw [h.unused]
  rw [numSpans_eq, if_pos hfull]

theorem entry_eq (h : Indexed uncleared order m) {id : ℕ} (hid : id < m.len) :
    m.entry id = .ok (id / kSpanSize, id % kSpanSize) :=
  entry_of_inUse h.fits.1 (h.inUse _ (div_lt_numSpans hid)) hid

end Indexed

variable [DecidableEq Key] [Inhabited Value]

/-- The map with one more entry. -/
def added (m : ParIndexedMap Key Value) (key : Key) : ParIndexedMap Key Value :=
  { (if m.len % kSpanSize = 0 then m.storeSpan (m.len / kSpanSize) (newSpan Value) else m) with
    len := m.len + 1
    idMap := Function.update m.idMap key (some m.len) }

theorem getId_of_room (hnew : m.idMap key = none) (hroom : m.Room) :
    m.getId key = .ok (⟨m.len, true⟩, m.added key) := by
  rw [getId, hnew, addEntry, added]
  split_ifs with hfull
  · obtain ⟨hlt, hnull⟩ := hroom hfull
    rw [load_natCast, if_pos hlt, hnull]
    rfl
  · rfl

theorem getId_of_not_room (hnew : m.idMap key = none) (hroom : ¬ m.Room) :
    ∃ e, m.getId key = .error e := by
  obtain ⟨hfull, hblocked⟩ := Classical.not_imp.mp hroom
  rw [getId, hnew, addEntry, if_pos hfull, load_natCast]
  split_ifs with hlt
  · cases hptr : m.spans (m.len / kSpanSize) with
    | null => exact absurd ⟨hlt, hptr⟩ hblocked
    | span address => exact ⟨_, rfl⟩
    | stray bits => exact ⟨_, rfl⟩
  · exact ⟨_, rfl⟩

namespace Indexed

theorem spans_added (h : Indexed uncleared order m) (key : Key) :
    (m.added key).heap.length = numSpans (m.len + 1) ∧
      (∀ span ∈ (m.added key).heap, span.length = kSpanSize) ∧
      (∀ j < numSpans (m.len + 1), (m.added key).spans j = .span j) ∧
      ∀ j, numSpans (m.len + 1) ≤ j → (m.added key).spans j = clearedSpans uncleared j := by
  have hheap := h.heap
  have hinUse := h.inUse
  have hunused := h.unused
  rw [numSpans_succ]
  rw [numSpans_eq] at hheap hinUse hunused
  unfold ParIndexedMap.added
  by_cases hfull : m.len % kSpanSize = 0
  · simp only [if_pos hfull] at hheap hinUse hunused ⊢
    refine ⟨?_, ?_, fun j hj => ?_, fun j hj => ?_⟩
    · simp [storeSpan, hheap]
    · simp only [storeSpan, List.mem_append, List.mem_singleton]
      rintro span (hspan | rfl)
      · exact h.sizes span hspan
      · exact List.length_replicate
    · simp only [storeSpan, Function.update_apply, hheap]
      split_ifs with hlast
      · rw [hlast]
      · exact hinUse j (by omega)
    · simp only [storeSpan, Function.update_apply]
      rw [if_neg (by omega)]
      exact hunused j (by omega)
  · simp only [if_neg hfull] at hheap hinUse hunused ⊢
    exact ⟨hheap, h.sizes, hinUse, hunused⟩

/-- One more key keeps the map indexed. -/
theorem added (h : Indexed uncleared order m) (hroom : m.Room) (hnew : key ∉ order) :
    Indexed uncleared (order ++ [key]) (m.added key) := by
  obtain ⟨hheap, hsizes, hinUse, hunused⟩ := h.spans_added key
  refine ⟨?_, ?_, fun key' id => ?_, hheap, hsizes, hinUse, hunused, h.room_iff.mp hroom⟩
  · rw [← List.concat_eq_append]
    exact h.nodup.concat hnew
  · rw [List.length_append, List.length_singleton, ← h.len]
    rfl
  · have hmap : (m.added key).idMap key' = if key' = key then some m.len else m.idMap key' :=
      Function.update_apply _ _ _ _
    rw [hmap, h.len, List.getElem?_append]
    split_ifs with hkey hlt hlt
    · subst hkey
      refine iff_of_false (fun hid => ?_) fun hold => hnew (List.mem_of_getElem? hold)
      cases hid
      exact absurd hlt (lt_irrefl _)
    · subst hkey
      rw [List.getElem?_singleton, Option.some.injEq]
      constructor
      · rintro rfl
        rw [if_pos (Nat.sub_self _)]
      · intro hid
        by_contra hne
        rw [if_neg (by omega)] at hid
        cases hid
    · exact h.idMap key' id
    · rw [h.idMap key' id, List.getElem?_eq_none (not_lt.mp hlt), List.getElem?_singleton]
      simp [Ne.symm hkey]

end Indexed

end Indexed

section Answers

variable {Key Value : Type} {uncleared : ℕ → SpanPtr} {order : List Key} {key : Key}
  {s s' : ParIndexedMap Key Value × List (Key × GetResult)}

structure Answered (uncleared : ℕ → SpanPtr) (order : List Key)
    (s : ParIndexedMap Key Value × List (Key × GetResult)) : Prop where
  indexed : Indexed uncleared order s.1
  mem_order : ∀ key, key ∈ order ↔ key ∈ s.2.map Prod.fst
  ids : ∀ c ∈ s.2, ∃ id : ℕ, c.2.id = id ∧ order[id]? = some c.1
  firstUse : ∀ before c after, s.2 = before ++ c :: after →
    (c.2.justCreated = true ↔ c.1 ∉ before.map Prod.fst)

theorem answered_create :
    Answered uncleared [] ((create uncleared, []) : ParIndexedMap Key Value × _) where
  indexed := indexed_create
  mem_order := fun _ => Iff.rfl
  ids := fun _ h => absurd h List.not_mem_nil
  firstUse := fun before c after h => by simp at h

theorem Answered.firstUse_concat (h : Answered uncleared order s) {r : GetResult}
    (hr : r.justCreated = true ↔ key ∉ order) :
    ∀ before c after, s.2 ++ [(key, r)] = before ++ c :: after →
      (c.2.justCreated = true ↔ c.1 ∉ before.map Prod.fst) := by
  intro before c after hsplit
  rcases List.eq_nil_or_concat after with rfl | ⟨after, last, rfl⟩
  · obtain ⟨rfl, hlast⟩ := List.append_inj' hsplit rfl
    obtain rfl := List.head_eq_of_cons_eq hlast
    rw [hr, h.mem_order]
  · rw [List.concat_eq_append, ← List.cons_append, ← List.append_assoc] at hsplit
    exact h.firstUse before c after (List.append_inj' hsplit rfl).1

theorem Answered.len_eq [DecidableEq Key] (h : Answered uncleared order s) :
    s.1.len = (s.2.map Prod.fst).toFinset.card := by
  rw [h.indexed.len, ← List.toFinset_card_of_nodup h.indexed.nodup]
  congr 1
  ext key
  simp only [List.mem_toFinset, h.mem_order]

variable [DecidableEq Key] [Inhabited Value]

/-- A call of `GetID`, with the answers so far. -/
def answer (s : ParIndexedMap Key Value × List (Key × GetResult)) (key : Key) :
    Option (ParIndexedMap Key Value × List (Key × GetResult)) :=
  (s.1.getId key).toOption.map fun (r, m) => (m, s.2 ++ [(key, r)])

namespace Answered

theorem answer_of_mem (h : Answered uncleared order s) (hkey : key ∈ order) :
    ∃ s', answer s key = some s' ∧ s'.2.map Prod.fst = s.2.map Prod.fst ++ [key] ∧
      Answered uncleared order s' := by
  obtain ⟨id, hid⟩ := List.mem_iff_getElem?.mp hkey
  have hmap := (h.indexed.idMap key id).mpr hid
  refine ⟨(s.1, s.2 ++ [(key, ⟨id, false⟩)]), ?_, by simp, h.indexed, ?_, ?_, ?_⟩
  · rw [answer, getId, hmap]
    rfl
  · intro key'
    rw [List.map_append, List.mem_append, ← h.mem_order]
    refine (or_iff_left_of_imp fun hlast => ?_).symm
    obtain rfl := List.mem_singleton.mp hlast
    exact hkey
  · intro c hc
    rcases List.mem_append.mp hc with hc | hc
    · exact h.ids c hc
    · obtain rfl := List.mem_singleton.mp hc
      exact ⟨id, rfl, hid⟩
  · exact h.firstUse_concat (iff_of_false Bool.false_ne_true (not_not.mpr hkey))

theorem answer_of_room (h : Answered uncleared order s) (hkey : key ∉ order) (hroom : s.1.Room) :
    ∃ s', answer s key = some s' ∧ s'.2.map Prod.fst = s.2.map Prod.fst ++ [key] ∧
      Answered uncleared (order ++ [key]) s' := by
  have hnew := h.indexed.idMap_eq_none_iff.mpr hkey
  refine ⟨(s.1.added key, s.2 ++ [(key, ⟨s.1.len, true⟩)]), ?_, by simp,
    h.indexed.added hroom hkey, ?_, ?_, ?_⟩
  · rw [answer, getId_of_room hnew hroom]
    rfl
  · intro key'
    rw [List.map_append, List.mem_append, List.mem_append, h.mem_order]
    rfl
  · intro c hc
    rcases List.mem_append.mp hc with hc | hc
    · obtain ⟨id, hid, horder⟩ := h.ids c hc
      refine ⟨id, hid, ?_⟩
      rw [List.getElem?_append_left (List.getElem?_eq_some_iff.mp horder).1, horder]
    · obtain rfl := List.mem_singleton.mp hc
      refine ⟨s.1.len, rfl, ?_⟩
      rw [h.indexed.len]
      simp
  · exact h.firstUse_concat (iff_of_true rfl hkey)

theorem answer_of_not_room (h : Answered uncleared order s) (hkey : key ∉ order)
    (hroom : ¬ s.1.Room) : answer s key = none := by
  obtain ⟨e, he⟩ := getId_of_not_room (h.indexed.idMap_eq_none_iff.mpr hkey) hroom
  rw [answer, he]
  rfl

/-- One call keeps the answers as they should be. -/
theorem step (h : Answered uncleared order s) (hstep : answer s key = some s') :
    s'.2.map Prod.fst = s.2.map Prod.fst ++ [key] ∧ ∃ order', Answered uncleared order' s' := by
  by_cases hkey : key ∈ order
  · obtain ⟨s'', hs'', hlog, h'⟩ := h.answer_of_mem hkey
    obtain rfl := Option.some.inj (hstep.symm.trans hs'')
    exact ⟨hlog, order, h'⟩
  · by_cases hroom : s.1.Room
    · obtain ⟨s'', hs'', hlog, h'⟩ := h.answer_of_room hkey hroom
      obtain rfl := Option.some.inj (hstep.symm.trans hs'')
      exact ⟨hlog, order ++ [key], h'⟩
    · rw [h.answer_of_not_room hkey hroom] at hstep
      cases hstep

theorem isSome_answer_iff (h : Answered uncleared order s) :
    (answer s key).isSome ↔ Fits uncleared (s.2.map Prod.fst ++ [key]).toFinset.card := by
  have hinsert : (s.2.map Prod.fst ++ [key]).toFinset = insert key (s.2.map Prod.fst).toFinset := by
    rw [List.toFinset_append, Finset.union_comm]
    rfl
  have hmem : key ∈ order ↔ key ∈ (s.2.map Prod.fst).toFinset := by
    rw [h.mem_order, List.mem_toFinset]
  rw [hinsert]
  by_cases hkey : key ∈ order
  · obtain ⟨s', hs', -⟩ := h.answer_of_mem hkey
    rw [hs', Finset.insert_eq_self.mpr (hmem.mp hkey), ← h.len_eq]
    exact iff_of_true rfl h.indexed.fits
  · rw [Finset.card_insert_of_notMem (hmem.not.mp hkey), ← h.len_eq, ← h.indexed.room_iff]
    by_cases hroom : s.1.Room
    · obtain ⟨s', hs', -⟩ := h.answer_of_room hkey hroom
      rw [hs']
      exact iff_of_true rfl hroom
    · rw [h.answer_of_not_room hkey hroom]
      exact iff_of_false Bool.false_ne_true hroom

end Answered

open Runs

theorem answered_run {keys : List Key} (hrun : exec answer (create uncleared, []) keys = some s) :
    s.2.map Prod.fst = keys ∧ ∃ order, Answered uncleared order s := by
  induction keys using List.reverseRecOn generalizing s with
  | nil =>
    cases hrun
    exact ⟨rfl, [], answered_create⟩
  | append_singleton keys key ih =>
    obtain ⟨s₀, hrun₀, hstep⟩ := exec_concat_eq_some.mp hrun
    obtain ⟨rfl, order, h⟩ := ih hrun₀
    exact h.step hstep

/-- A run ends iff there is room for all the different keys. -/
theorem isSome_run_iff (uncleared : ℕ → SpanPtr) (keys : List Key) :
    (exec answer ((create uncleared, []) : ParIndexedMap Key Value × _) keys).isSome ↔
      Fits uncleared keys.toFinset.card := by
  induction keys using List.reverseRecOn with
  | nil => exact iff_of_true rfl fits_zero
  | append_singleton keys key ih =>
    rw [exec_append]
    cases hrun : exec answer ((create uncleared, []) : ParIndexedMap Key Value × _) keys with
    | none =>
      rw [hrun] at ih
      refine iff_of_false Bool.false_ne_true fun h => Bool.false_ne_true (ih.mpr (h.mono ?_))
      refine Finset.card_le_card fun key hkey => ?_
      rw [List.mem_toFinset] at hkey ⊢
      exact List.mem_append_left _ hkey
    | some s =>
      obtain ⟨rfl, order, h⟩ := answered_run hrun
      rw [← h.isSome_answer_iff]
      simp [exec]

end Answers

section Addressing

open Runs

variable {Key Value : Type}

/--
Keys and ids correspond, the ids are those below `NumIDs()`, a key is reported as created
on its first use, and every id has an entry of its own in an allocated span. An answer
with a negative id hands out none.
-/
structure Addressed (m : ParIndexedMap Key Value) (log : List (Key × GetResult)) : Prop where
  same : ∀ c ∈ log, ∀ d ∈ log, c.1 = d.1 → c.2.id = d.2.id
  different : ∀ c ∈ log, ∀ d ∈ log, 0 ≤ c.2.id → c.2.id = d.2.id → c.1 = d.1
  ids : ∀ id : ℤ, (0 ≤ id ∧ ∃ c ∈ log, c.2.id = id) ↔ 0 ≤ id ∧ id < m.numIds
  created : ∀ before c after, log = before ++ c :: after → 0 ≤ c.2.id →
    (c.2.justCreated = true ↔ c.1 ∉ before.map Prod.fst)
  entries : ∀ id, 0 ≤ id → id < m.numIds → ∃ address ei, m.entry id = .ok (address, ei) ∧
    (∃ span, m.heap[address]? = some span ∧ ei < span.length) ∧
    ∀ id', 0 ≤ id' → id' < m.numIds → m.entry id' = .ok (address, ei) → id' = id

variable {uncleared : ℕ → SpanPtr} {order : List Key}

theorem Indexed.entries {m : ParIndexedMap Key Value} (h : Indexed uncleared order m) {id : ℤ}
    (hpos : 0 ≤ id) (hid : id < m.numIds) :
    ∃ address ei, m.entry id = .ok (address, ei) ∧
      (∃ span, m.heap[address]? = some span ∧ ei < span.length) ∧
      ∀ id', 0 ≤ id' → id' < m.numIds → m.entry id' = .ok (address, ei) → id' = id := by
  lift id to ℕ using hpos
  rw [numIds, Int.ofNat_lt] at hid
  refine ⟨_, _, h.entry_eq hid, ?_, fun id' hpos' hid' hentry => ?_⟩
  · have hspan : id / kSpanSize < m.heap.length := by
      rw [h.heap]
      exact div_lt_numSpans hid
    refine ⟨m.heap[id / kSpanSize], List.getElem?_eq_getElem hspan, ?_⟩
    rw [h.sizes _ (List.getElem_mem hspan)]
    exact Nat.mod_lt _ (by decide)
  · lift id' to ℕ using hpos'
    rw [numIds, Int.ofNat_lt] at hid'
    rw [h.entry_eq hid'] at hentry
    obtain ⟨hdiv, hmod⟩ := Prod.mk.inj (Except.ok.inj hentry)
    rw [← Nat.div_add_mod id' kSpanSize, hdiv, hmod, Nat.div_add_mod]

theorem Answered.addressed {s : ParIndexedMap Key Value × List (Key × GetResult)}
    (h : Answered uncleared order s) : Addressed s.1 s.2 where
  same := by
    intro c hc d hd hkey
    obtain ⟨id, hid, horder⟩ := h.ids c hc
    obtain ⟨id', hid', horder'⟩ := h.ids d hd
    rw [← h.indexed.idMap] at horder horder'
    rw [hkey, horder'] at horder
    rw [hid, hid', Option.some.inj horder]
  different := by
    intro c hc d hd _ heq
    obtain ⟨id, hid, horder⟩ := h.ids c hc
    obtain ⟨id', hid', horder'⟩ := h.ids d hd
    obtain rfl : id = id' := Int.ofNat_inj.mp (hid.symm.trans (heq.trans hid'))
    exact Option.some.inj (horder.symm.trans horder')
  ids := by
    refine fun id => and_congr_right fun hpos => ?_
    rw [numIds, h.indexed.len]
    constructor
    · rintro ⟨c, hc, rfl⟩
      obtain ⟨id, hid, horder⟩ := h.ids c hc
      rw [hid, Int.ofNat_lt]
      exact (List.getElem?_eq_some_iff.mp horder).1
    · intro hlt
      lift id to ℕ using hpos
      rw [Int.ofNat_lt] at hlt
      have hkey := (h.mem_order _).mp (List.getElem_mem hlt)
      obtain ⟨c, hc, hfst⟩ := List.mem_map.mp hkey
      obtain ⟨id', hid', horder'⟩ := h.ids c hc
      rw [hfst, ← h.indexed.idMap] at horder'
      have horder := (h.indexed.idMap order[id] id).mpr (List.getElem?_eq_getElem hlt)
      rw [horder] at horder'
      exact ⟨c, hc, by rw [hid', Option.some.inj horder']⟩
  created := fun before c after hsplit _ => h.firstUse before c after hsplit
  entries := fun _ hpos hid => h.indexed.entries hpos hid

variable [DecidableEq Key] [Inhabited Value]

/-- A full map answers a new key with the id `-1` and stays as it is. -/
def RejectsWhenFull (Value : Type) [Inhabited Value] (uncleared : ℕ → SpanPtr)
    (keys : List Key) : Prop :=
  ∀ calls key, calls ++ [key] <+: keys → ∀ (m : ParIndexedMap Key Value) (log),
    exec answer (create uncleared, []) calls = some (m, log) → m.numIds = kMaxEntries →
      key ∉ calls → ∃ r, m.getId key = .ok (r, m) ∧ r.id = -1

def ServesAll (Value : Type) [Inhabited Value] (uncleared : ℕ → SpanPtr) (keys : List Key) : Prop :=
  (∃ (m : ParIndexedMap Key Value) (log : List (Key × GetResult)),
    exec answer (create uncleared, []) keys = some (m, log) ∧ Addressed m log) ∧
  RejectsWhenFull Value uncleared keys

theorem servesAll_iff_fits (uncleared : ℕ → SpanPtr) (keys : List Key) :
    ServesAll Value uncleared keys ↔ Fits uncleared keys.toFinset.card := by
  rw [← @isSome_run_iff Key Value]
  constructor
  · rintro ⟨⟨m, log, hrun, -⟩, -⟩
    rw [hrun]
    rfl
  · intro hsome
    have hfits := (isSome_run_iff uncleared keys).mp hsome
    obtain ⟨⟨m, log⟩, hrun⟩ := Option.isSome_iff_exists.mp hsome
    obtain ⟨-, order, h⟩ := answered_run hrun
    refine ⟨⟨m, log, hrun, h.addressed⟩, ?_⟩
    -- a full map that meets a new key is too small for the run
    intro calls key hcalls m' log' hrun' hfull hnew
    obtain ⟨hlog, order', h'⟩ := answered_run hrun'
    have hlen : calls.toFinset.card = kMaxEntries := by
      rw [← hlog, ← h'.len_eq]
      exact Int.ofNat_inj.mp hfull
    have hsubset : insert key calls.toFinset ⊆ keys.toFinset := by
      intro key' hkey'
      rw [Finset.mem_insert, List.mem_toFinset] at hkey'
      exact List.mem_toFinset.mpr (hcalls.subset (by simpa [or_comm] using hkey'))
    have hmore := Finset.card_le_card hsubset
    rw [Finset.card_insert_of_notMem (List.mem_toFinset.not.mpr hnew), hlen] at hmore
    exact absurd (hmore.trans hfits.1) (Nat.not_succ_le_self _)

/--
For every run of calls of `GetID`, whatever the table of spans holds where it is not
cleared, the map serves all the keys as described iff there are at most `kMaxEntries`
different ones and the pointers to the spans that they need happen to be null.
-/
theorem servesAll_iff (uncleared : ℕ → SpanPtr) (keys : List Key) :
    ServesAll Value uncleared keys ↔ keys.toFinset.card ≤ kMaxEntries ∧
      ∀ j, kSpanSize ≤ j → j < numSpans keys.toFinset.card → uncleared j = .null := by
  rw [servesAll_iff_fits, fits_iff]

/--
One key too many, although all pointers are null; and a pointer that is not null where
the constructor has not cleared it.
-/
theorem not_servesAll_full_or_uncleared :
    ¬ ServesAll ℕ (fun _ => .null) (List.range (kMaxEntries + 1)) ∧
      ¬ ServesAll ℕ (fun _ => .stray 1) (List.range (kSpanSize * kSpanSize + 1)) := by
  simp only [servesAll_iff_fits, List.toFinset_range, Finset.card_range]
  refine ⟨fun h => absurd h.1 (Nat.not_succ_le_self _), fun h => ?_⟩
  have hnull := h.2 kSpanSize (by rw [numSpans_succ, Nat.mul_div_cancel_left _ (by decide)]; omega)
  rw [clearedSpans, if_neg (lt_irrefl _)] at hnull
  cases hnull

end Addressing

end ParIndexedMap
end HeypAgents
