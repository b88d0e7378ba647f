import Mathlib.Algebra.Order.Ring.Int
import Mathlib.Data.List.Chain
import Mathlib.Data.List.Sort
import Mathlib.Data.Rat.Defs

/-!
# Percentiles over sliding windows

`HistCombiner` merges the histograms of overlapping index ranges.  A range is written as
soon as it spans the duration, the next one starts a twentieth of the duration later, and
what is left at the end is written as one more range.

The ranges are the calls of `writeUntil`.  Each starts within the one before it and ends
after it, so together they cover all histograms.
-/

namespace HeypAgents
namespace Proc

variable {H : Type}

structure TimedHist (H : Type) where
  t : ℤ
  h : H
deriving DecidableEq, Repr

structure HistCombiner (H : Type) where
  hists : List (TimedHist H) := []
  dur : ℤ

structure TimeAndPercs where
  t : ℤ
  v : List ℤ
deriving DecidableEq, Repr

structure HdrHistograms (H : Type) where
  new : ℤ → ℤ → ℤ → H
  lowestTrackableValue : H → ℤ
  highestTrackableValue : H → ℤ
  significantFigures : H → ℤ
  merge : H → H → H
  valueAtPercentile : H → ℚ → ℤ

/-- A `sort.Slice` by time; equal times may come in any order. -/
structure SortSlice (H : Type) where
  run : List (TimedHist H) → List (TimedHist H)
  perm : ∀ xs, (run xs).Perm xs
  sorted : ∀ xs, (run xs).Pairwise fun a b => a.t ≤ b.t

def SortSlice.stable : SortSlice H where
  run xs := xs.insertionSort fun a b => a.t ≤ b.t
  perm xs := List.perm_insertionSort _ xs
  sorted xs := by
    have htotal : Std.Total fun a b : TimedHist H => a.t ≤ b.t := ⟨fun a b => le_total a.t b.t⟩
    have htrans : IsTrans (TimedHist H) fun a b => a.t ≤ b.t := ⟨fun _ _ _ => le_trans⟩
    exact List.pairwise_insertionSort _ xs

namespace HistCombiner

def add (c : HistCombiner H) (t : ℤ) (h : H) : HistCombiner H :=
  { c with hists := c.hists ++ [⟨t, h⟩] }

def sealed (sort : SortSlice H) (c : HistCombiner H) : HistCombiner H :=
  { c with hists := sort.run c.hists }

/-- A call `writeUntil(last)`: the values of `i` and `hi` at this time. -/
structure Write (H : Type) where
  first : ℕ
  hi : TimedHist H
  last : ℕ

/-- The variables of `Percentiles`, and the calls of `writeUntil` so far. -/
structure Scan (H : Type) where
  i : ℕ
  hi : TimedHist H
  added : Bool := false
  writes : List (Write H) := []

/-- `for ; i <= j; i++` up to the first time after `minT`; the fuel is the number of
indices left. -/
def advance (hists : List (TimedHist H)) (minT : ℤ) : ℕ → ℕ → Option (ℕ × Option (TimedHist H))
  | 0, i => some (i, none)
  | fuel + 1, i => do
      let x ← hists[i]?
      if minT < x.t then return (i, some x) else advance hists minT fuel (i + 1)

/-- The iteration for the index `j`; `none` if an index is out of range. -/
def scanStep (c : HistCombiner H) (s : Scan H) (j : ℕ) : Option (Scan H) := do
  let hj ← c.hists[j]?
  if hj.t < s.hi.t + c.dur then return { s with added := false }
  let writes := s.writes ++ [⟨s.i, s.hi, j⟩]
  let first ← c.hists[s.i]?
  let minT := first.t + c.dur.tdiv 20
  match ← advance c.hists minT (j + 1 - s.i) s.i with
  | (i, some hi) => return { i, hi, added := true, writes }
  | (i, none) =>
    if s.added then return { s with i, writes }
    else return { i := j, hi := hj, added := true, writes }

/-- The calls of `writeUntil`. -/
def allWrites (c : HistCombiner H) : Option (List (Write H)) :=
  match c.hists with
  | [] => some []
  | hi :: _ => do
      let s ← (List.range c.hists.length).foldlM (scanStep c) { i := 0, hi }
      if !s.added ∧ s.i < c.hists.length then
        return s.writes ++ [⟨s.i, s.hi, c.hists.length - 1⟩]
      else return s.writes

/-- What `writeUntil` appends to the data. -/
def writeUntil (lib : HdrHistograms H) (c : HistCombiner H) (percs : List ℚ) (w : Write H) :
    Option TimeAndPercs := do
  let t := lib.new (lib.lowestTrackableValue w.hi.h) (lib.highestTrackableValue w.hi.h)
    (lib.significantFigures w.hi.h)
  let merged := (List.range' w.first (w.last + 1 - w.first)).foldlM
    (fun t k => c.hists[k]?.map fun x => lib.merge t x.h) t
  let last ← c.hists[w.last]?
  return ⟨last.t, percs.map (lib.valueAtPercentile (← merged))⟩

def percentiles (lib : HdrHistograms H) (c : HistCombiner H) (percs : List ℚ) :
    Option (List TimeAndPercs) := do
  (← c.allWrites).mapM (c.writeUntil lib percs)

/-- Index ranges from 0 on, each of which starts within the one before it and ends after it. -/
inductive Overlapping : List (Write H) → Prop
  | single {w : Write H} (hfirst : w.first = 0) : Overlapping [w]
  | concat {ws : List (Write H)} {w next : Write H} (h : Overlapping (ws ++ [w]))
      (hstart : w.first < next.first) (hwithin : next.first ≤ w.last) (hend : w.last < next.last) :
      Overlapping (ws ++ [w] ++ [next])

variable {ws : List (Write H)} {w : Write H}

theorem Overlapping.covers (h : Overlapping (ws ++ [w]))
    {k : ℕ} (hk : k ≤ w.last) : ∃ v ∈ ws ++ [w], v.first ≤ k ∧ k ≤ v.last := by
  generalize hall : ws ++ [w] = all at h
  induction h generalizing ws w with
  | @single v hfirst =>
    obtain rfl : w = v := by simpa using congrArg List.getLast? hall
    exact ⟨w, List.mem_singleton.mpr rfl, by omega, hk⟩
  | @concat vs v next h hstart hwithin hend ih =>
    obtain rfl : w = next := by simpa using congrArg List.getLast? hall
    rcases le_or_gt k v.last with hold | hnew
    · obtain ⟨u, hu, hbounds⟩ := ih hold rfl
      exact ⟨u, List.mem_append_left _ hu, hbounds⟩
    · exact ⟨w, by simp, by omega, hk⟩

theorem Overlapping.increasing (h : Overlapping ws) :
    ws.Pairwise fun a b => a.first < b.first ∧ a.last < b.last := by
  induction h with
  | single => exact List.pairwise_singleton _ _
  | @concat ws w next h hstart hwithin hend ih =>
    refine List.pairwise_append.mpr ⟨ih, List.pairwise_singleton _ _, ?_⟩
    intro a ha b hb
    obtain rfl := List.mem_singleton.mp hb
    rcases List.mem_append.mp ha with hearlier | hlast
    · have hlt := (List.pairwise_append.mp ih).2.2 a hearlier w (List.mem_singleton.mpr rfl)
      omega
    · obtain rfl := List.mem_singleton.mp hlast
      exact ⟨hstart, hend⟩

theorem Overlapping.chained (h : Overlapping ws) :
    ws.IsChain fun a b => b.first ≤ a.last := by
  induction h with
  | single => exact List.isChain_singleton _
  | @concat ws w next h hstart hwithin hend ih =>
    refine List.isChain_append.mpr ⟨ih, List.isChain_singleton _, ?_⟩
    intro a ha b hb
    obtain rfl : w = a := by simpa using ha
    obtain rfl : next = b := by simpa using hb
    exact hwithin

section Invariant

variable {c : HistCombiner H}

def Spans (c : HistCombiner H) (w : Write H) : Prop :=
  ∃ a b, c.hists[w.first]? = some a ∧ c.hists[w.last]? = some b ∧ a.t + c.dur ≤ b.t

/-- What the last call of `writeUntil` says about the start of the next range after `n`
iterations. -/
inductive Scan.Next (n : ℕ) (s : Scan H) : Prop
  | start (hwrites : s.writes = []) (hi : s.i = 0) (hadded : s.added = false)
  | later {ws : List (Write H)} {w : Write H} (hwrites : s.writes = ws ++ [w])
      (hoverlap : Overlapping (ws ++ [w])) (hstart : w.first < s.i) (hwithin : s.i ≤ w.last)
      (hend : w.last < n) (hadded : s.added = true ↔ w.last + 1 = n)

structure Scan.Inv (c : HistCombiner H) (n : ℕ) (s : Scan H) : Prop where
  hi : c.hists[s.i]? = some s.hi
  next : s.Next n
  spans : ∀ w ∈ s.writes, Spans c w

theorem advance_found {hists : List (TimedHist H)} {minT : ℤ} {fuel i m : ℕ} {y : TimedHist H}
    (him : i ≤ m) (hm : m < i + fuel) (hy : hists[m]? = some y) (hlt : minT < y.t) :
    ∃ i' x, advance hists minT fuel i = some (i', some x) ∧ i ≤ i' ∧ i' ≤ m ∧
      hists[i']? = some x ∧ minT < x.t := by
  induction fuel generalizing i with
  | zero => omega
  | succ fuel ih =>
    obtain ⟨hlen, -⟩ := List.getElem?_eq_some_iff.mp hy
    have hx : hists[i]? = some hists[i] := List.getElem?_eq_getElem (by omega)
    rw [advance, hx]
    by_cases hafter : minT < hists[i].t
    · exact ⟨i, hists[i], by simp [hafter], le_rfl, him, hx, hafter⟩
    · have hne : i ≠ m := by
        rintro rfl
        obtain rfl : hists[i] = y := by simpa [hx] using hy
        exact hafter hlt
      obtain ⟨i', x, heq, hle, hrest⟩ := ih (by omega : i + 1 ≤ m) (by omega)
      exact ⟨i', x, by simpa [hafter] using heq, by omega, hrest⟩

variable {s : Scan H} {n : ℕ}

theorem Scan.Inv.skip (h : s.Inv c n) :
    Scan.Inv c (n + 1) { s with added := false } := by
  refine ⟨h.hi, ?_, h.spans⟩
  cases h.next with
  | start hwrites hi hadded => exact .start hwrites hi rfl
  | later hwrites hoverlap hstart hwithin hend hadded =>
    refine .later hwrites hoverlap hstart hwithin (by omega) ?_
    simp only [Bool.false_eq_true, false_iff]
    omega

theorem Scan.Next.overlapping (h : s.Next n) {last : ℕ}
    (hlast : n ≤ last ∨ (s.added = false ∧ n ≤ last + 1)) :
    Overlapping (s.writes ++ [⟨s.i, s.hi, last⟩]) := by
  cases h with
  | start hwrites hi hadded =>
    rw [hwrites]
    exact .single hi
  | @later ws w hwrites hoverlap hstart hwithin hend hadded =>
    have hlt : w.last < last := by
      rcases hlast with hle | ⟨hfalse, hle⟩
      · omega
      · have hne : w.last + 1 ≠ n := fun h => by simp [hfalse, h] at hadded
        omega
    rw [hwrites]
    exact .concat hoverlap hstart hwithin hlt

/-- An iteration keeps the cached entry and the flag in step with the ranges. -/
theorem Scan.Inv.scanStep (hdur : 0 < c.dur) (h : s.Inv c n)
    (hn : n < c.hists.length) : ∃ s', HistCombiner.scanStep c s n = some s' ∧ s'.Inv c (n + 1) := by
  have hj : c.hists[n]? = some c.hists[n] := List.getElem?_eq_getElem hn
  by_cases hbefore : c.hists[n].t < s.hi.t + c.dur
  · exact ⟨_, by simp [HistCombiner.scanStep, hj, hbefore], h.skip⟩
  · have hin : s.i ≤ n := by
      cases h.next with
      | start _ hi _ => omega
      | later _ _ _ hwithin hend _ => omega
    -- the entry at `n` is late enough, so the search for the next start finds one
    have hminT : c.dur.tdiv 20 < c.dur := by
      rw [Int.tdiv_eq_ediv_of_nonneg hdur.le]
      omega
    obtain ⟨i', x, hfound, hle, hle', hx, hafter⟩ :=
      @advance_found _ c.hists (s.hi.t + c.dur.tdiv 20) (n + 1 - s.i) _ _ _ hin (by omega) hj
        (by omega)
    have hne : s.i ≠ i' := by
      rintro rfl
      obtain rfl : s.hi = x := by simpa [h.hi] using hx
      have := Int.tdiv_nonneg hdur.le (by omega : (0 : ℤ) ≤ 20)
      omega
    refine ⟨⟨i', x, true, s.writes ++ [⟨s.i, s.hi, n⟩]⟩, ?_, hx, ?_, ?_⟩
    · simp [HistCombiner.scanStep, hj, hbefore, h.hi, hfound]
    · exact .later rfl (h.next.overlapping (Or.inl le_rfl)) (by omega : s.i < i') hle'
        n.lt_succ_self (by simp)
    · intro w hw
      rcases List.mem_append.mp hw with hold | hnew
      · exact h.spans w hold
      · obtain rfl := List.mem_singleton.mp hnew
        exact ⟨s.hi, c.hists[n], h.hi, hj, by omega⟩

theorem scan_inv (hdur : 0 < c.dur) {hi : TimedHist H} (hhi : c.hists[0]? = some hi)
    (hn : n ≤ c.hists.length) :
    ∃ s, (List.range n).foldlM (HistCombiner.scanStep c) { i := 0, hi } = some s ∧ s.Inv c n := by
  induction n with
  | zero => exact ⟨_, rfl, hhi, .start rfl rfl rfl, by simp⟩
  | succ n ih =>
    obtain ⟨s, hs, hinv⟩ := ih (by omega)
    obtain ⟨s', hs', hinv'⟩ := hinv.scanStep hdur (by omega)
    refine ⟨s', ?_, hinv'⟩
    rw [List.range_succ, List.foldlM_append, hs]
    simpa using hs'

end Invariant

section Windows

variable {c : HistCombiner H}

/-- The ranges cover all histograms, move forward, overlap and end with the last histogram;
all but the last span the duration. -/
structure CoversAll (c : HistCombiner H) (ws : List (Write H)) : Prop where
  covered : ∀ k < c.hists.length, ∃ w ∈ ws, w.first ≤ k ∧ k ≤ w.last
  increasing : ws.Pairwise fun a b => a.first < b.first ∧ a.last < b.last
  chained : ws.IsChain fun a b => b.first ≤ a.last
  last : ws.getLast?.map Write.last = some (c.hists.length - 1)
  spans : ∀ w ∈ ws.dropLast, Spans c w

theorem Overlapping.coversAll (h : Overlapping (ws ++ [w]))
    (hlast : w.last = c.hists.length - 1) (hspans : ∀ v ∈ ws, Spans c v) :
    CoversAll c (ws ++ [w]) where
  covered k hk := h.covers (by omega)
  increasing := h.increasing
  chained := h.chained
  last := by simp [hlast]
  spans := by simpa using hspans

theorem allWrites_coversAll (hdur : 0 < c.dur) (hne : c.hists ≠ []) :
    ∃ ws, c.allWrites = some ws ∧ CoversAll c ws := by
  obtain ⟨hi, rest, hhists⟩ := List.exists_cons_of_ne_nil hne
  have hhi : c.hists[0]? = some hi := by rw [hhists]; rfl
  obtain ⟨s, hs, hinv⟩ := scan_inv hdur hhi (Nat.le_refl c.hists.length)
  have hpos := List.length_pos_iff.mpr hne
  obtain ⟨hi_lt, -⟩ := List.getElem?_eq_some_iff.mp hinv.hi
  have hwrites : c.allWrites = if !s.added ∧ s.i < c.hists.length then
      some (s.writes ++ [⟨s.i, s.hi, c.hists.length - 1⟩]) else some s.writes := by
    rw [allWrites]
    simp only [hhists] at hs ⊢
    rw [hs]
    rfl
  rw [hwrites]
  by_cases hadded : s.added = true
  · cases hinv.next with
    | start _ _ hfalse => simp [hfalse] at hadded
    | later heq hoverlap hstart hwithin hend hiff =>
      refine ⟨s.writes, if_neg (by simp [hadded]), ?_⟩
      have hlast := hiff.mp hadded
      have hspans := hinv.spans
      rw [heq] at hspans ⊢
      exact hoverlap.coversAll (by omega) fun v hv => hspans v (List.mem_append_left _ hv)
  · refine ⟨_, if_pos ⟨by simpa using hadded, hi_lt⟩, ?_⟩
    have hfalse : s.added = false := by simpa using hadded
    exact (hinv.next.overlapping (Or.inr ⟨hfalse, by omega⟩)).coversAll rfl hinv.spans

theorem mergeAll_isSome (lib : HdrHistograms H) {ks : List ℕ}
    (hks : ∀ k ∈ ks, k < c.hists.length) (t : H) :
    ∃ t', ks.foldlM (fun t k => c.hists[k]?.map fun x => lib.merge t x.h) t = some t' := by
  induction ks generalizing t with
  | nil => exact ⟨t, rfl⟩
  | cons k ks ih =>
    obtain ⟨hk, hrest⟩ := List.forall_mem_cons.mp hks
    obtain ⟨t', ht'⟩ := ih hrest (lib.merge t c.hists[k].h)
    exact ⟨t', by simpa [List.foldlM_cons, List.getElem?_eq_getElem hk] using ht'⟩

theorem writeUntil_isSome (lib : HdrHistograms H) (percs : List ℚ)
    (hlast : w.last < c.hists.length) : ∃ d, c.writeUntil lib percs w = some d := by
  have hks : ∀ k ∈ List.range' w.first (w.last + 1 - w.first), k < c.hists.length := by
    intro k hk
    rw [List.mem_range'_1] at hk
    omega
  obtain ⟨merged, hmerged⟩ := mergeAll_isSome lib hks
    (lib.new (lib.lowestTrackableValue w.hi.h) (lib.highestTrackableValue w.hi.h)
      (lib.significantFigures w.hi.h))
  refine ⟨⟨c.hists[w.last].t, percs.map (lib.valueAtPercentile merged)⟩, ?_⟩
  simp [writeUntil, hmerged, List.getElem?_eq_getElem hlast]

theorem CoversAll.last_lt (h : CoversAll c ws) (hne : c.hists ≠ [])
    (hw : w ∈ ws) : w.last < c.hists.length := by
  have hpos := List.length_pos_iff.mpr hne
  have hlast := h.last
  rcases List.eq_nil_or_concat ws with rfl | ⟨vs, v, rfl⟩
  · simp at hw
  · rw [List.concat_eq_append] at hw hlast
    have hv : v.last = c.hists.length - 1 := by simpa using hlast
    have hincreasing := h.increasing
    rw [List.concat_eq_append] at hincreasing
    rcases List.mem_append.mp hw with hearlier | hend
    · have hlt := (List.pairwise_append.mp hincreasing).2.2 w hearlier v (by simp)
      omega
    · obtain rfl := List.mem_singleton.mp hend
      omega

theorem mapM_isSome {α β : Type} {f : α → Option β} {xs : List α}
    (h : ∀ x ∈ xs, ∃ y, f x = some y) : ∃ ys, xs.mapM f = some ys := by
  induction xs with
  | nil => exact ⟨[], rfl⟩
  | cons x xs ih =>
    obtain ⟨⟨y, hy⟩, hrest⟩ := List.forall_mem_cons.mp h
    obtain ⟨ys, hys⟩ := ih hrest
    exact ⟨y :: ys, by simp [hy, hys]⟩

/--
After `Seal`, `Percentiles` merges index ranges that cover all histograms, move forward,
overlap and, but for the last one, span the duration.
-/
theorem percentiles_coverAll (lib : HdrHistograms H) (sort : SortSlice H) (percs : List ℚ)
    (hdur : 0 < c.dur) (hne : c.hists ≠ []) :
    ∃ ws data, (c.sealed sort).allWrites = some ws ∧ CoversAll (c.sealed sort) ws ∧
      ws.mapM ((c.sealed sort).writeUntil lib percs) = some data ∧
      (c.sealed sort).percentiles lib percs = some data := by
  have hne' : (c.sealed sort).hists ≠ [] := by
    intro hnil
    exact hne (List.nil_perm.mp (hnil ▸ sort.perm c.hists))
  obtain ⟨ws, hws, hcovers⟩ := @allWrites_coversAll _ (c.sealed sort) hdur hne'
  obtain ⟨data, hdata⟩ := mapM_isSome fun w hw =>
    writeUntil_isSome lib percs (hcovers.last_lt hne' hw)
  exact ⟨ws, data, hws, hcovers, hdata, by simp [percentiles, hws, hdata]⟩

def counts : HdrHistograms ℤ where
  new _ _ _ := 0
  lowestTrackableValue _ := 0
  highestTrackableValue _ := 0
  significantFigures _ := 0
  merge a b := a + b
  valueAtPercentile h _ := h

def threeCounts : HistCombiner ℤ := ((add ⟨[], 5⟩ 9 1).add 0 1).add 4 1

theorem percentiles_coverAll_threeCounts :
    ∃ ws data, (threeCounts.sealed .stable).allWrites = some ws ∧
      CoversAll (threeCounts.sealed .stable) ws ∧
      ws.mapM ((threeCounts.sealed .stable).writeUntil counts [50]) = some data ∧
      (threeCounts.sealed .stable).percentiles counts [50] = some data :=
  percentiles_coverAll counts .stable [50] (by decide) (by decide)

end Windows

end HistCombiner
end Proc
end HeypAgents
