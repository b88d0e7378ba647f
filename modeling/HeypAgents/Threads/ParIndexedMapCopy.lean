import HeypAgents.Threads.ParIndexedMap

/-!
# Copies of the map with sequential ids

`BestEffortCopy` copies the spans one after the other, and of the last one only the
entries that are in use.  How many these are is computed as `len % kSpanSize`, which is
zero when the last span is full: the copy then has the default value for each of its
entries.
-/

namespace HeypAgents
namespace ParIndexedMap

section Copy

variable {Key Value : Type} [Inhabited Value]

def numEntries (len si : ℕ) : ℕ :=
  if si = numSpans len - 1 then len % kSpanSize else kSpanSize

variable (m : ParIndexedMap Key Value)

def copyEntries (ospan : SpanPtr) : ℕ → Except Failure (List Value)
  | 0 => .ok (newSpan Value)
  | ei + 1 =>
    (copyEntries ospan ei).bind fun cspan =>
      (m.deref ospan ei).map fun val => cspan.set ei val

def copySpans (copy : ParIndexedMap Key Value) : ℕ → Except Failure (ParIndexedMap Key Value)
  | 0 => .ok copy
  | si + 1 =>
    (copySpans copy si).bind fun copy =>
      (m.load si).bind fun ospan =>
        (m.copyEntries ospan (numEntries m.len si)).map fun cspan => copy.storeSpan si cspan

def bestEffortCopy (uncleared : ℕ → SpanPtr) : Except Failure (ParIndexedMap Key Value) :=
  m.copySpans { (create uncleared : ParIndexedMap Key Value) with idMap := m.idMap, len := m.len }
    (numSpans m.len)

end Copy

section Runs

open Runs

variable {Key Value : Type}

/-- A call that changes the map. -/
inductive Call (Key Value : Type) where
  | getId (key : Key)
  | onId (id : ℤ) (func : Value → Value)

def call [DecidableEq Key] [Inhabited Value] (m : ParIndexedMap Key Value) :
    Call Key Value → Option (ParIndexedMap Key Value)
  | .getId key => (m.getId key).toOption.map Prod.snd
  | .onId id func => (m.onId id func).toOption

variable {m m' : ParIndexedMap Key Value} {uncleared : ℕ → SpanPtr} {order : List Key}

theorem Indexed.onId (h : Indexed uncleared order m) {id : ℤ} {func : Value → Value}
    (hcall : m.onId id func = .ok m') : Indexed uncleared order m' := by
  rw [ParIndexedMap.onId] at hcall
  cases hentry : m.entry id with
  | error e =>
    rw [hentry] at hcall
    cases hcall
  | ok place =>
    rw [hentry] at hcall
    cases hcall
    refine ⟨h.nodup, h.len, h.idMap, ?_, fun span hspan => ?_, h.inUse, h.unused, h.fits⟩
    · rw [List.length_modify]
      exact h.heap
    · obtain ⟨j, hj⟩ := List.mem_iff_getElem?.mp hspan
      rw [List.getElem?_modify] at hj
      obtain ⟨old, hold, rfl⟩ := Option.map_eq_some_iff.mp hj
      have hsize := h.sizes old (List.mem_of_getElem? hold)
      split_ifs
      · rwa [List.length_modify]
      · exact hsize

theorem Indexed.exists_valueAt (h : Indexed uncleared order m) {id : ℕ} (hid : id < m.len) :
    ∃ span val, m.heap[id / kSpanSize]? = some span ∧ span[id % kSpanSize]? = some val ∧
      m.valueAt id = .ok val := by
  have hlt : id / kSpanSize < m.heap.length := by
    rw [h.heap]
    exact div_lt_numSpans hid
  have hei : id % kSpanSize < m.heap[id / kSpanSize].length := by
    rw [h.sizes _ (List.getElem_mem hlt)]
    exact Nat.mod_lt _ (by decide)
  refine ⟨_, _, List.getElem?_eq_getElem hlt, List.getElem?_eq_getElem hei, ?_⟩
  rw [valueAt_of_inUse h.fits.1 (h.inUse _ (div_lt_numSpans hid)) hid]
  simp [deref, List.getElem?_eq_getElem hlt, List.getElem?_eq_getElem hei]

/-- `OnID` changes the value of its id and no other one. -/
theorem Indexed.valueAt_onId (h : Indexed uncleared order m) {id : ℕ} (hid : id < m.len)
    (func : Value → Value) :
    ∃ m', m.onId id func = .ok m' ∧ m'.len = m.len ∧ ∀ id' : ℕ, id' < m.len →
      m'.valueAt id' = (m.valueAt id').map fun val => if id' = id then func val else val := by
  have hcall : m.onId id func = .ok
      { m with heap := m.heap.modify (id / kSpanSize) fun span => span.modify (id % kSpanSize) func } := by
    rw [ParIndexedMap.onId, h.entry_eq hid]
    rfl
  refine ⟨_, hcall, rfl, fun id' hid' => ?_⟩
  obtain ⟨span, val, hspan, hval, hvalue⟩ := h.exists_valueAt hid'
  have h' := h.onId hcall
  have hplace : id' = id ↔ id / kSpanSize = id' / kSpanSize ∧ id % kSpanSize = id' % kSpanSize := by
    refine ⟨fun heq => by rw [heq]; exact ⟨rfl, rfl⟩, fun ⟨hdiv, hmod⟩ => ?_⟩
    rw [← Nat.div_add_mod id kSpanSize, hdiv, hmod, Nat.div_add_mod]
  have hspan' : (m.heap.modify (id / kSpanSize) fun span =>
      span.modify (id % kSpanSize) func)[id' / kSpanSize]?.bind (fun span => span[id' % kSpanSize]?) =
        some (if id' = id then func val else val) := by
    simp only [hplace, List.getElem?_modify, hspan, Option.map_eq_map, Option.map_some,
      Option.bind_some]
    split_ifs with hdiv hboth hboth
    · simp [hval, hboth.2]
    · have hmod : id % kSpanSize ≠ id' % kSpanSize := fun hmod => hboth ⟨hdiv, hmod⟩
      simp [hval, hmod]
    · exact absurd hboth.1 hdiv
    · exact hval
  rw [valueAt_of_inUse h'.fits.1 (h'.inUse _ (div_lt_numSpans hid')) hid', hvalue, deref, hspan']
  rfl

variable [DecidableEq Key] [Inhabited Value]

theorem Indexed.getId (h : Indexed uncleared order m) {key : Key} {r : GetResult}
    (hcall : m.getId key = .ok (r, m')) : ∃ order', Indexed uncleared order' m' := by
  cases hkey : m.idMap key with
  | some id =>
    rw [ParIndexedMap.getId, hkey] at hcall
    cases hcall
    exact ⟨order, h⟩
  | none =>
    by_cases hroom : m.Room
    · rw [getId_of_room hkey hroom] at hcall
      cases hcall
      exact ⟨_, h.added hroom (h.idMap_eq_none_iff.mp hkey)⟩
    · obtain ⟨e, he⟩ := getId_of_not_room hkey hroom
      rw [he] at hcall
      cases hcall

theorem Indexed.call (h : Indexed uncleared order m) {c : Call Key Value}
    (hcall : m.call c = some m') : ∃ order', Indexed uncleared order' m' := by
  cases c with
  | getId key =>
    rw [ParIndexedMap.call] at hcall
    cases hget : m.getId key with
    | error e =>
      rw [hget] at hcall
      cases hcall
    | ok answered =>
      rw [hget] at hcall
      cases hcall
      exact h.getId hget
  | onId id func =>
    rw [ParIndexedMap.call] at hcall
    cases hon : m.onId id func with
    | error e =>
      rw [hon] at hcall
      cases hcall
    | ok changed =>
      rw [hon] at hcall
      cases hcall
      exact ⟨order, h.onId hon⟩

/-- Every map that calls produce is indexed. -/
theorem indexed_run {calls : List (Call Key Value)}
    (hrun : exec call (create uncleared) calls = some m) : ∃ order, Indexed uncleared order m := by
  refine @exec_invariant _ _ call (fun m => ∃ order, Indexed uncleared order m) ?_ _ _ _
    ⟨[], indexed_create⟩ hrun
  rintro m c m' ⟨order, h⟩ hstep
  exact h.call hstep

end Runs

section Copied

variable {Key Value : Type} {m : ParIndexedMap Key Value} {uncleared uncleared' : ℕ → SpanPtr}
  {order : List Key} {id : ℕ}

theorem lt_numEntries_iff {len : ℕ} (hid : id < len) :
    id % kSpanSize < numEntries len (id / kSpanSize) ↔
      ¬ (len % kSpanSize = 0 ∧ len ≤ id + kSpanSize) := by
  unfold numEntries numSpans kSpanSize
  split_ifs <;> omega

theorem numEntries_le (len si : ℕ) : numEntries len si ≤ kSpanSize := by
  unfold numEntries
  split_ifs
  · exact (Nat.mod_lt _ (by decide)).le
  · exact le_rfl

variable [Inhabited Value]

theorem copyEntries_eq {address n : ℕ} {span : List Value} (hspan : m.heap[address]? = some span)
    (hn : n ≤ span.length) (hsize : n ≤ kSpanSize) :
    m.copyEntries (.span address) n = .ok (span.take n ++ (newSpan Value).drop n) := by
  induction n with
  | zero => rfl
  | succ n ih =>
    have hval : m.deref (.span address) n = .ok span[n] := by
      simp [deref, hspan, List.getElem?_eq_getElem (show n < span.length by omega)]
    have hnew : n < (newSpan Value).length := by
      rw [newSpan, List.length_replicate]
      omega
    have htake : (span.take n).length = n := List.length_take_of_le (by omega)
    rw [copyEntries, ih (by omega) (by omega), hval]
    -- the entry at `n` is the first one that still has its default value
    simp only [Except.bind, Except.map]
    rw [List.set_append_right _ _ htake.le, htake, Nat.sub_self, List.drop_eq_getElem_cons hnew,
      List.set_cons_zero, ← List.take_concat_get' span n (by omega), List.append_assoc]
    rfl

theorem copySpans_succ {copy copied : ParIndexedMap Key Value} {k : ℕ} {ospan : SpanPtr}
    {cspan : List Value} (hcopied : m.copySpans copy k = .ok copied) (hload : m.load k = .ok ospan)
    (hentries : m.copyEntries ospan (numEntries m.len k) = .ok cspan) :
    m.copySpans copy (k + 1) = .ok (copied.storeSpan k cspan) := by
  have hstep : m.copySpans copy (k + 1) = (m.copySpans copy k).bind fun copy =>
      (m.load k).bind fun ospan =>
        (m.copyEntries ospan (numEntries m.len k)).map fun cspan => copy.storeSpan k cspan := rfl
  rw [hcopied, hload] at hstep
  simp only [Except.bind] at hstep
  rw [hentries] at hstep
  exact hstep

/-- What becomes of a span. -/
def copiedSpan (m : ParIndexedMap Key Value) (si : ℕ) : List Value :=
  (m.heap[si]?.getD []).take (numEntries m.len si) ++ (newSpan Value).drop (numEntries m.len si)

/-- The loop copies the first `k` spans. -/
theorem Indexed.copySpans (h : Indexed uncleared order m) (copy : ParIndexedMap Key Value)
    (hempty : copy.heap = []) {k : ℕ} (hk : k ≤ numSpans m.len) :
    ∃ copied, m.copySpans copy k = .ok copied ∧ copied.idMap = copy.idMap ∧
      copied.len = copy.len ∧ copied.heap = (List.range k).map m.copiedSpan ∧
      ∀ j < k, copied.spans j = .span j := by
  induction k with
  | zero => exact ⟨copy, rfl, rfl, rfl, hempty, fun j hj => absurd hj (Nat.not_lt_zero j)⟩
  | succ k ih =>
    obtain ⟨copied, hcopied, hidMap, hlen, hheap, hspans⟩ := ih (by omega)
    have hlt : k < m.heap.length := by
      rw [h.heap]
      omega
    have hload : m.load k = .ok (.span k) := by
      rw [load_natCast, if_pos (lt_kNumSpans h.fits.1 (by omega)), h.inUse k (by omega)]
    have hspan := List.getElem?_eq_getElem hlt
    have hentries : m.copyEntries (.span k) (numEntries m.len k) = .ok (m.copiedSpan k) := by
      rw [copyEntries_eq hspan, copiedSpan, hspan, Option.getD_some]
      · rw [h.sizes _ (List.getElem_mem hlt)]
        exact numEntries_le _ _
      · exact numEntries_le _ _
    refine ⟨copied.storeSpan k (m.copiedSpan k), ?_, hidMap, hlen, ?_, fun j hj => ?_⟩
    · exact copySpans_succ hcopied hload hentries
    · rw [List.range_succ, List.map_append, ← hheap]
      rfl
    · have hlength : copied.heap.length = k := by simp [hheap]
      rw [storeSpan, hlength]
      simp only [Function.update_apply]
      split_ifs with hlast
      · rw [hlast]
      · exact hspans j (by omega)

theorem Indexed.bestEffortCopy (h : Indexed uncleared order m) (uncleared' : ℕ → SpanPtr) :
    ∃ copy, m.bestEffortCopy uncleared' = .ok copy ∧ copy.idMap = m.idMap ∧ copy.len = m.len ∧
      ∀ id : ℕ, id < m.len → copy.valueAt id =
        if m.len % kSpanSize = 0 ∧ m.len ≤ id + kSpanSize then .ok default else m.valueAt id := by
  obtain ⟨copy, hcopy, hidMap, hlen, hheap, hspans⟩ := h.copySpans
    { (create uncleared' : ParIndexedMap Key Value) with idMap := m.idMap, len := m.len }
    rfl le_rfl
  refine ⟨copy, hcopy, hidMap, hlen, fun id hid => ?_⟩
  have hsi := div_lt_numSpans hid
  have hlt : id / kSpanSize < m.heap.length := h.heap ▸ hsi
  have hei : id % kSpanSize < kSpanSize := Nat.mod_lt _ (by decide)
  have hsize := h.sizes _ (List.getElem_mem hlt)
  replace hlen : copy.len = m.len := hlen
  rw [valueAt_of_inUse (hlen ▸ h.fits.1) (hspans _ hsi) (hlen ▸ hid),
    valueAt_of_inUse h.fits.1 (h.inUse _ hsi) hid]
  have hspan := List.getElem?_eq_getElem hlt
  have hcopied : copy.heap[id / kSpanSize]? = some (m.copiedSpan (id / kSpanSize)) := by
    rw [hheap, List.getElem?_map, List.getElem?_range hsi]
    rfl
  have htake : (m.heap[id / kSpanSize].take (numEntries m.len (id / kSpanSize))).length =
      numEntries m.len (id / kSpanSize) := by
    rw [List.length_take, hsize]
    exact min_eq_left (numEntries_le _ _)
  simp only [deref, hcopied, hspan, Option.bind_some, copiedSpan, Option.getD_some]
  rw [List.getElem?_append, htake]
  by_cases hentry : id % kSpanSize < numEntries m.len (id / kSpanSize)
  · rw [if_pos hentry, if_neg ((lt_numEntries_iff hid).mp hentry), List.getElem?_take_of_lt hentry]
  · have hdropped := not_not.mp ((lt_numEntries_iff hid).not.mp hentry)
    rw [if_neg hentry, if_pos hdropped, List.getElem?_drop, newSpan, List.getElem?_replicate]
    rw [if_pos (by omega)]

end Copied

section SameContents

open Runs

variable {Key Value : Type}

def SameContents (copy m : ParIndexedMap Key Value) : Prop :=
  copy.idMap = m.idMap ∧ copy.numIds = m.numIds ∧
    ∀ id, 0 ≤ id → id < m.numIds → copy.valueAt id = m.valueAt id

variable [Inhabited Value] {m : ParIndexedMap Key Value} {uncleared : ℕ → SpanPtr}
  {order : List Key}

theorem Indexed.sameContents_iff (h : Indexed uncleared order m) (uncleared' : ℕ → SpanPtr) :
    (∃ copy, m.bestEffortCopy uncleared' = .ok copy ∧ SameContents copy m) ↔
      (m.len % kSpanSize = 0 → ∀ id : ℕ, id < m.len → m.len ≤ id + kSpanSize →
        m.valueAt id = .ok default) := by
  obtain ⟨copy, hcopy, hidMap, hlen, hvalues⟩ := h.bestEffortCopy uncleared'
  have hsame : (∃ copy, m.bestEffortCopy uncleared' = .ok copy ∧ SameContents copy m) ↔
      ∀ id : ℕ, id < m.len → copy.valueAt id = m.valueAt id := by
    constructor
    · rintro ⟨copy', hcopy', -, -, hsame⟩ id hid
      obtain rfl : copy = copy' := Except.ok.inj (hcopy.symm.trans hcopy')
      exact hsame id (Int.natCast_nonneg id) (Int.ofNat_lt.mpr hid)
    · refine fun hsame => ⟨copy, hcopy, hidMap, Int.ofNat_inj.mpr hlen, fun id hpos hid => ?_⟩
      lift id to ℕ using hpos
      exact hsame id (Int.ofNat_lt.mp hid)
  rw [hsame]
  constructor
  · intro hsame hfull id hid hlast
    rw [← hsame id hid, hvalues id hid, if_pos ⟨hfull, hlast⟩]
  · intro hdefault id hid
    rw [hvalues id hid]
    split_ifs with hdropped
    · exact (hdefault hdropped.1 id hid hdropped.2).symm
    · rfl

variable [DecidableEq Key]

theorem exec_call_getId (m : ParIndexedMap Key Value) (log : List (Key × GetResult))
    (keys : List Key) :
    exec call m (keys.map .getId) = (exec answer (m, log) keys).map Prod.fst := by
  induction keys generalizing m log with
  | nil => rfl
  | cons key keys ih =>
    rw [List.map_cons, exec, exec, call, answer]
    cases m.getId key with
    | error e => rfl
    | ok answered => exact ih answered.2 (log ++ [(key, answered.1)])

/--
A copy of any map that calls of `GetID` and `OnID` have produced has the same contents iff
the number of ids is no multiple of `kSpanSize`, or the values of the last `kSpanSize` ids
are the default ones.
-/
theorem bestEffortCopy_sameContents_iff (calls : List (Call Key Value))
    (hrun : exec call (create uncleared) calls = some m) (uncleared' : ℕ → SpanPtr) :
    (∃ copy, m.bestEffortCopy uncleared' = .ok copy ∧ SameContents copy m) ↔
      (m.len % kSpanSize = 0 → ∀ id : ℕ, id < m.len → m.len ≤ id + kSpanSize →
        m.valueAt id = .ok default) := by
  obtain ⟨order, h⟩ := indexed_run hrun
  exact h.sameContents_iff uncleared'

/-- The first `n` keys, and 7 as the value of the first id. -/
def filled (n : ℕ) : List (Call ℕ ℕ) :=
  (List.range n).map .getId ++ [.onId (0 : ℕ) fun _ => 7]

theorem exists_filled {n : ℕ} (hpos : 0 < n) (hn : n ≤ kMaxEntries) :
    ∃ m : ParIndexedMap ℕ ℕ, exec call (create fun _ => .null) (filled n) = some m ∧
      m.len = n ∧ m.valueAt (0 : ℕ) = .ok 7 := by
  have hfits : Fits (fun _ => .null) (List.range n).toFinset.card := by
    rw [List.toFinset_range, Finset.card_range, fits_iff]
    exact ⟨hn, fun _ _ _ => rfl⟩
  obtain ⟨s, hrun⟩ := Option.isSome_iff_exists.mp
    ((@isSome_run_iff ℕ ℕ _ _ _ (List.range n)).mpr hfits)
  obtain ⟨hlog, order, h⟩ := answered_run hrun
  have hlen : s.1.len = n := by
    rw [h.len_eq, hlog, List.toFinset_range, Finset.card_range]
  have hzero : 0 < s.1.len := hlen.symm ▸ hpos
  obtain ⟨m, hcall, hlen', hvalues⟩ := h.indexed.valueAt_onId hzero fun _ => 7
  obtain ⟨-, val, -, -, hval⟩ := h.indexed.exists_valueAt hzero
  refine ⟨m, exec_concat_eq_some.mpr ⟨s.1, ?_, ?_⟩, hlen'.trans hlen, ?_⟩
  · rw [exec_call_getId _ [], hrun]
    rfl
  · rw [call, hcall]
    rfl
  · rw [hvalues 0 hzero, hval]
    rfl

/-- A full span and one more id. -/
theorem sameContents_two_spans :
    ∃ m : ParIndexedMap ℕ ℕ, exec call (create fun _ => .null) (filled 1001) = some m ∧
      m.valueAt (0 : ℕ) = .ok 7 ∧
      ∃ copy, m.bestEffortCopy (fun _ => .null) = .ok copy ∧ SameContents copy m := by
  obtain ⟨m, hrun, hlen, hseven⟩ := exists_filled (n := 1001) (by decide) (by decide)
  refine ⟨m, hrun, hseven, (bestEffortCopy_sameContents_iff (filled 1001) hrun _).mpr ?_⟩
  intro hfull
  rw [hlen] at hfull
  exact absurd hfull (by decide)

/-- A span that is full, with a value that is not the default one. -/
theorem not_sameContents_full_span :
    ∃ calls m, exec call (create (fun _ => .null) : ParIndexedMap ℕ ℕ) calls = some m ∧
      ¬ ∃ copy, m.bestEffortCopy (fun _ => .null) = .ok copy ∧ SameContents copy m := by
  obtain ⟨m, hrun, hlen, hseven⟩ := exists_filled (n := kSpanSize) (by decide) (by decide)
  obtain ⟨order, h⟩ := indexed_run hrun
  refine ⟨filled kSpanSize, m, hrun, ?_⟩
  rw [h.sameContents_iff, hlen]
  intro hdefault
  rw [hdefault (Nat.mod_self _) 0 (by decide) (by omega)] at hseven
  cases hseven

end SameContents

end ParIndexedMap
end HeypAgents
