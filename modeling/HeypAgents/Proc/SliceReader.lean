import HeypAgents.Proc.TSMerger

/-!
# Merging readers that report the end of their data

A slice reader fills the slice it is given and returns `EOF` together with the entries that
are left when its data ends.  Its buffer refills with a block of 63 records after the carried
one.  If such a block rounds to a single time and the data does not end with it, nothing is
left to return before the last entry, and the merger panics as soon as it gets there.
-/

namespace HeypAgents
namespace Proc

variable {D : Type}

/-- A reader over records; with `eager` it sees the end of its data also when the slice has
just been filled. -/
structure SliceReader (D : Type) where
  data : List (ℤ × D)
  eager : Bool

def SliceReader.read : TSBatchReader (SliceReader D) D := fun r k =>
  (r.data.take k,
    if r.data.length < k ∨ r.eager = true ∧ r.data.length = k then .eof else .ok,
    { r with data := r.data.drop k })

section Rounding

variable {precision : ℤ}

theorem roundTime_eq (hp : 0 < precision) (t : ℤ) :
    roundTime precision t =
      precision * (t / precision + if t % precision + t % precision < precision then 0 else 1) := by
  have hdiv := Int.mul_ediv_add_emod t precision
  simp only [roundTime, if_neg (not_le.mpr hp), mul_add]
  split_ifs <;> omega

theorem roundTime_idem (precision t : ℤ) :
    roundTime precision (roundTime precision t) = roundTime precision t := by
  rcases le_or_gt precision 0 with hp | hp
  · simp [roundTime, hp]
  · rw [roundTime_eq hp t, roundTime, if_neg (not_le.mpr hp), Int.mul_emod_right]
    simp [hp]

theorem roundTime_mono (precision : ℤ) {t u : ℤ} (h : t ≤ u) :
    roundTime precision t ≤ roundTime precision u := by
  rcases le_or_gt precision 0 with hp | hp
  · simpa [roundTime, hp] using h
  · rw [roundTime_eq hp, roundTime_eq hp]
    refine mul_le_mul_of_nonneg_left ?_ hp.le
    have hle : t / precision ≤ u / precision := Int.ediv_le_ediv hp h
    rcases hle.eq_or_lt with heq | hlt
    · have ht := Int.mul_ediv_add_emod t precision
      have hu := Int.mul_ediv_add_emod u precision
      rw [heq] at ht ⊢
      split_ifs <;> omega
    · split_ifs <;> omega

theorem rounded_append (precision : ℤ) (xs ys : List (ℤ × D)) :
    rounded precision (xs ++ ys) = rounded precision xs ++ rounded precision ys :=
  List.map_append

theorem rounded_cons_of_mem {c : ℤ × D} {xs : List (ℤ × D)} (hc : c ∈ rounded precision xs)
    (ys : List (ℤ × D)) : rounded precision (c :: ys) = c :: rounded precision ys := by
  obtain ⟨x, -, rfl⟩ := List.mem_map.mp hc
  simp [rounded, roundTime_idem]

theorem byKey_rounded {xs : List (ℤ × D)} (h : xs.Pairwise fun x y => x.1 ≤ y.1) :
    SortedRuns.ByKey Prod.fst (rounded precision xs) :=
  List.pairwise_map.mpr (h.imp fun hxy => roundTime_mono precision hxy)

end Rounding

section LastPerTime

variable {xs ys first : List (ℤ × D)} {c : ℤ × D}

theorem lastPerTime_append (h : lastPerTime xs = first ++ [c]) (ys : List (ℤ × D)) :
    lastPerTime (xs ++ ys) = first ++ lastPerTime (c :: ys) := by
  cases xs with
  | nil => simp [lastPerTime, SortedRuns.mergeRuns] at h
  | cons x xs => exact SortedRuns.mergeFrom_append ys h

theorem getLast?_filter_lastPerTime (p : ℤ → Bool) (xs : List (ℤ × D)) :
    ((lastPerTime xs).filter fun y => p y.1).getLast? = (xs.filter fun y => p y.1).getLast? := by
  cases xs with
  | nil => rfl
  | cons x xs => exact SortedRuns.getLast?_filter_mergeFrom p x xs

theorem getLast?_of_lastPerTime (h : lastPerTime xs = first ++ [c]) : xs.getLast? = some c := by
  have hlast := getLast?_filter_lastPerTime (fun _ => true) xs
  rw [h, List.filter_true, List.filter_true, List.getLast?_concat] at hlast
  exact hlast.symm

theorem lastPerTime_pairwise (h : SortedRuns.ByKey Prod.fst xs) :
    (lastPerTime xs).Pairwise fun x y => x.1 < y.1 := by
  cases xs with
  | nil => exact List.Pairwise.nil
  | cons x xs =>
    exact List.pairwise_map.mp (SortedRuns.keys_mergeFrom (fun _ _ hkey => hkey) h).1

theorem mem_times_lastPerTime (h : SortedRuns.ByKey Prod.fst xs) (t : ℤ) :
    t ∈ (lastPerTime xs).map Prod.fst ↔ t ∈ xs.map Prod.fst := by
  cases xs with
  | nil => rfl
  | cons x xs => exact (SortedRuns.keys_mergeFrom (fun _ _ hkey => hkey) h).2 t

theorem exists_lastPerTime_eq (x : ℤ × D) (xs : List (ℤ × D)) :
    ∃ first c, lastPerTime (x :: xs) = first ++ [c] :=
  ⟨_, _, (List.dropLast_concat_getLast (SortedRuns.mergeFrom_ne_nil x xs)).symm⟩

theorem exists_times_lastPerTime {P : ℤ → Prop} (h : SortedRuns.ByKey Prod.fst xs) :
    (∃ x ∈ lastPerTime xs, P x.1) ↔ ∃ x ∈ xs, P x.1 := by
  have hmem := mem_times_lastPerTime h
  simp only [List.mem_map] at hmem
  constructor
  · rintro ⟨x, hx, hP⟩
    obtain ⟨y, hy, hyx⟩ := (hmem x.1).mp ⟨x, hx, rfl⟩
    exact ⟨y, hy, hyx ▸ hP⟩
  · rintro ⟨x, hx, hP⟩
    obtain ⟨y, hy, hyx⟩ := (hmem x.1).mpr ⟨x, hx, rfl⟩
    exact ⟨y, hy, hyx ▸ hP⟩

end LastPerTime

section Sorted

variable {x y c : ℤ × D} {xs first : List (ℤ × D)}

theorem head_le (h : SortedRuns.ByKey Prod.fst (x :: xs)) (hy : y ∈ x :: xs) : x.1 ≤ y.1 := by
  rcases List.mem_cons.mp hy with rfl | hy
  · exact le_rfl
  · exact (List.pairwise_cons.mp h).1 y hy

theorem lt_last (h : SortedRuns.ByKey Prod.fst xs) (hxs : lastPerTime xs = first ++ [c])
    (hx : x ∈ first) : x.1 < c.1 := by
  have hpairwise := lastPerTime_pairwise h
  rw [hxs] at hpairwise
  exact (List.pairwise_append.mp hpairwise).2.2 x hx c (List.mem_singleton_self c)

end Sorted

section Collapse

variable {eager : Bool} {ts : List ℤ} {τ : ℤ}

/-- A block of 63 times ends with the time `τ` of the entry carried over to it, and the data
does not end with the block. -/
def Collapses (eager : Bool) (ts : List ℤ) (τ : ℤ) : Prop :=
  ∃ m, 63 * (m + 1) < ts.length ∧ (eager = true → 63 * (m + 1) + 1 < ts.length) ∧
    ts[63 * m]? = some τ ∧ ts[63 * (m + 1)]? = some τ

theorem Collapses.mem (h : Collapses eager ts τ) : τ ∈ ts := by
  obtain ⟨m, -, -, hτ, -⟩ := h
  exact List.mem_of_getElem? hτ

theorem not_collapses_of_short (h : ts.length ≤ 63 ∨ eager = true ∧ ts.length ≤ 64) :
    ¬ Collapses eager ts τ := by
  rintro ⟨m, hlen, heager, -⟩
  rcases h with hshort | ⟨heq, hshort⟩
  · omega
  · have := heager heq
    omega

theorem collapses_iff (hlen : 63 < ts.length) (heager : eager = true → 64 < ts.length) :
    Collapses eager ts τ ↔ ts[0]? = some τ ∧ ts[63]? = some τ ∨ Collapses eager (ts.drop 63) τ := by
  constructor
  · rintro ⟨m, hm, hme, hfirst, hlast⟩
    cases m with
    | zero => exact .inl ⟨hfirst, hlast⟩
    | succ m =>
      refine .inr ⟨m, ?_, fun he => ?_, ?_, ?_⟩
      · rw [List.length_drop]
        omega
      · have := hme he
        rw [List.length_drop]
        omega
      · rw [List.getElem?_drop, ← hfirst]
        congr 1
        omega
      · rw [List.getElem?_drop, ← hlast]
        congr 1
        omega
  · rintro (⟨hfirst, hlast⟩ | ⟨m, hm, hme, hfirst, hlast⟩)
    · exact ⟨0, hlen, heager, hfirst, hlast⟩
    · rw [List.length_drop] at hm
      refine ⟨m + 1, by omega, fun he => ?_, ?_, ?_⟩
      · have := hme he
        rw [List.length_drop] at this
        omega
      · rw [← hfirst, List.getElem?_drop]
        congr 1
        omega
      · rw [← hlast, List.getElem?_drop]
        congr 1
        omega

end Collapse

section Views

variable {precision : ℤ} {eager : Bool} {xs : List (ℤ × D)} {c : ℤ × D}

/-- What is delivered of the rounded records `recs`: everything, or, from the first collapse
on, nothing. -/
def Shows (eager : Bool) (recs rest : List (ℤ × D)) (stuck : Bool) : Prop :=
  stuck = false ∧ rest = lastPerTime recs ∧ (∀ τ, ¬ Collapses eager (recs.map Prod.fst) τ) ∨
  stuck = true ∧ ∃ τ, Collapses eager (recs.map Prod.fst) τ ∧
    (∀ σ, Collapses eager (recs.map Prod.fst) σ → τ ≤ σ) ∧
    rest = (lastPerTime recs).filter fun x => x.1 < τ

theorem shows_of_short {recs : List (ℤ × D)}
    (h : recs.length ≤ 63 ∨ eager = true ∧ recs.length ≤ 64) :
    Shows eager recs (lastPerTime recs) false := by
  refine .inl ⟨rfl, rfl, fun τ => not_collapses_of_short ?_⟩
  rwa [List.length_map]

theorem head_lt_last {block first : List (ℤ × D)} {y : ℤ × D}
    (hsorted : SortedRuns.ByKey Prod.fst (y :: block))
    (hblock : lastPerTime (y :: block) = first ++ [c]) (hne : first ≠ []) : y.1 < c.1 := by
  have hmem := fun t => (mem_times_lastPerTime hsorted t).mp
  rw [hblock] at hmem
  obtain ⟨x, hx⟩ := List.exists_mem_of_ne_nil first hne
  obtain ⟨z, hz, hzx⟩ := List.mem_map.mp
    (hmem x.1 (List.mem_map_of_mem (List.mem_append_left [c] hx)))
  calc y.1 ≤ z.1 := head_le hsorted hz
    _ = x.1 := hzx
    _ < c.1 := lt_last hsorted hblock hx

theorem drop_block {block later first : List (ℤ × D)} (hlen : block.length = 64)
    (hblock : lastPerTime block = first ++ [c]) : (block ++ later).drop 63 = c :: later := by
  have hlast : block.getLast? = some c := getLast?_of_lastPerTime hblock
  rw [List.getLast?_eq_getElem?, hlen] at hlast
  obtain ⟨hlt, hget⟩ := List.getElem?_eq_some_iff.mp hlast
  rw [List.drop_append_of_le_length (by omega), List.drop_eq_getElem_cons hlt, hget,
    List.drop_eq_nil_of_le (by omega)]
  rfl

theorem shows_collapse {block later : List (ℤ × D)}
    (hsorted : SortedRuns.ByKey Prod.fst (block ++ later)) (hlen : block.length = 64)
    (hmore : eager = true → later ≠ []) (hblock : lastPerTime block = [c]) :
    Shows eager (block ++ later) [] true := by
  have hdrop := @drop_block D c _ later [] hlen hblock
  cases block with
  | nil => simp at hlen
  | cons x block =>
    have hhead : x.1 = c.1 := by
      have hmem := (mem_times_lastPerTime (List.pairwise_append.mp hsorted).1 x.1).mpr
        List.mem_cons_self
      rw [hblock] at hmem
      exact List.mem_singleton.mp hmem
    have hle : ∀ y ∈ x :: block ++ later, c.1 ≤ y.1 := fun y hy => hhead ▸ head_le hsorted hy
    refine .inr ⟨rfl, c.1, ⟨0, ?_, fun he => ?_, congrArg some hhead, ?_⟩, fun σ hσ => ?_, ?_⟩
    · rw [List.length_map, List.length_append, hlen]
      omega
    · have hlater := List.length_pos_iff.mpr (hmore he)
      rw [List.length_map, List.length_append, hlen]
      omega
    · rw [← Nat.add_zero (63 * (0 + 1)), ← List.getElem?_drop, ← List.map_drop, hdrop]
      rfl
    · obtain ⟨y, hy, rfl⟩ := List.mem_map.mp hσ.mem
      exact hle y hy
    · refine (List.filter_eq_nil_iff.mpr fun y hy => ?_).symm
      obtain ⟨z, hz, hzy⟩ := List.mem_map.mp
        ((mem_times_lastPerTime hsorted y.1).mp (List.mem_map_of_mem hy))
      simpa [← hzy] using hle z hz

theorem shows_block {block later first rest : List (ℤ × D)} {stuck : Bool}
    (hsorted : SortedRuns.ByKey Prod.fst (block ++ later)) (hlen : block.length = 64)
    (hmore : eager = true → later ≠ []) (hblock : lastPerTime block = first ++ [c])
    (hne : first ≠ []) (h : Shows eager (c :: later) rest stuck) :
    Shows eager (block ++ later) (first ++ rest) stuck := by
  have hsortedBlock : SortedRuns.ByKey Prod.fst block := (List.pairwise_append.mp hsorted).1
  have hdrop := @drop_block D c _ later _ hlen hblock
  have hsplit : ∀ τ, Collapses eager ((block ++ later).map Prod.fst) τ ↔
      Collapses eager ((c :: later).map Prod.fst) τ := by
    intro τ
    have hlater : eager = true → 0 < later.length := fun he => List.length_pos_iff.mpr (hmore he)
    rw [collapses_iff (by simp [hlen]; omega) (by simpa [hlen] using hlater), ← List.map_drop,
      hdrop]
    refine or_iff_right ?_
    rintro ⟨hfirst, hsecond⟩
    rw [← Nat.add_zero 63, ← List.getElem?_drop, ← List.map_drop, hdrop] at hsecond
    cases block with
    | nil => simp at hlen
    | cons y block =>
      have hlt := head_lt_last hsortedBlock hblock hne
      have hy : y.1 = τ := Option.some.inj hfirst
      have hc : c.1 = τ := Option.some.inj hsecond
      omega
  have hrest : SortedRuns.ByKey Prod.fst (c :: later) := hdrop ▸ hsorted.drop
  rcases h with ⟨rfl, rfl, hno⟩ | ⟨rfl, τ, hτ, hmin, rfl⟩
  · exact .inl ⟨rfl, (lastPerTime_append hblock later).symm, fun τ hτ => hno τ ((hsplit τ).mp hτ)⟩
  · refine .inr ⟨rfl, τ, (hsplit τ).mpr hτ, fun σ hσ => hmin σ ((hsplit σ).mp hσ), ?_⟩
    rw [lastPerTime_append hblock, List.filter_append]
    congr 1
    refine (List.filter_eq_self.mpr fun x hx => ?_).symm
    have hcτ : c.1 ≤ τ := by
      obtain ⟨z, hz, rfl⟩ := List.mem_map.mp hτ.mem
      exact head_le hrest hz
    simpa using (lt_last hsortedBlock hblock hx).trans_le hcτ

theorem exists_view_carried (c : ℤ × D) (xs : List (ℤ × D))
    (hsorted : SortedRuns.ByKey Prod.fst (rounded precision (c :: xs))) :
    ∃ rest stuck, View SliceReader.read precision [c] ⟨xs, eager⟩ rest stuck ∧
      Shows eager (rounded precision (c :: xs)) rest stuck := by
  induction hn : xs.length using Nat.strongRecOn generalizing c xs with
  | ind n ih =>
    by_cases hends : xs.length < 63 ∨ eager = true ∧ xs.length = 63
    · have hle : xs.length ≤ 63 := by omega
      have hread : SliceReader.read (⟨xs, eager⟩ : SliceReader D) 63 =
          (xs, .eof, ⟨[], eager⟩) := by
        simp only [SliceReader.read, if_pos hends, List.take_of_length_le hle,
          List.drop_eq_nil_of_le hle]
      refine ⟨_, false, .ends hread, shows_of_short ?_⟩
      rw [rounded, List.length_map, List.length_cons]
      exact hends.imp (fun hlt => by omega) fun heq => ⟨heq.1, by omega⟩
    · have hlen : 63 ≤ xs.length := by omega
      have hread : SliceReader.read (⟨xs, eager⟩ : SliceReader D) 63 =
          (xs.take 63, .ok, ⟨xs.drop 63, eager⟩) := by
        simp only [SliceReader.read, if_neg hends]
      have hsplit : rounded precision (c :: xs) =
          rounded precision (c :: xs.take 63) ++ rounded precision (xs.drop 63) := by
        rw [← rounded_append, List.cons_append, List.take_append_drop]
      have hblockLen : (rounded precision (c :: xs.take 63)).length = 64 := by
        simp [rounded, hlen]
      have hmore : eager = true → rounded precision (xs.drop 63) ≠ [] := by
        intro he hnil
        have hdrop : xs.length ≤ 63 := List.drop_eq_nil_iff.mp (List.map_eq_nil_iff.mp hnil)
        exact hends (.inr ⟨he, by omega⟩)
      obtain ⟨first, c', hblock⟩ : ∃ first c',
          lastPerTime (rounded precision (c :: xs.take 63)) = first ++ [c'] :=
        exists_lastPerTime_eq _ _
      rw [hsplit] at hsorted ⊢
      by_cases hfirst : first = []
      · subst hfirst
        exact ⟨[], true, .stuck hread (congrArg List.length hblock).le,
          shows_collapse hsorted hblockLen hmore hblock⟩
      · have hdrop := @drop_block D c' _ (rounded precision (xs.drop 63)) _ hblockLen hblock
        have hc' : rounded precision (c' :: xs.drop 63) = c' :: rounded precision (xs.drop 63) :=
          rounded_cons_of_mem (List.mem_of_getLast? (getLast?_of_lastPerTime hblock)) _
        obtain ⟨rest, stuck, hview, hshows⟩ := ih (xs.drop 63).length
          (by rw [List.length_drop]; omega) c' (xs.drop 63)
          (by rw [hc', ← hdrop]; exact hsorted.drop) rfl
        rw [hc'] at hshows
        exact ⟨first ++ rest, stuck, .block hread hblock hfirst hview,
          shows_block hsorted hblockLen hmore hblock hfirst hshows⟩

/-- A slice reader has a view, which shows its rounded records. -/
theorem exists_view (r : SliceReader D) (hsorted : r.data.Pairwise fun x y => x.1 ≤ y.1) :
    ∃ rest stuck, View SliceReader.read precision [] r rest stuck ∧
      Shows r.eager (rounded precision r.data) rest stuck := by
  obtain ⟨data, eager⟩ := r
  cases data with
  | nil =>
    have hread : SliceReader.read (⟨[], eager⟩ : SliceReader D) 64 =
        ([], .eof, ⟨[], eager⟩) := rfl
    exact ⟨_, false, .ends hread, shows_of_short (.inl (Nat.zero_le 63))⟩
  | cons x xs =>
    obtain ⟨rest, stuck, hview, hshows⟩ :=
      @exists_view_carried D precision eager x xs (byKey_rounded hsorted)
    refine ⟨rest, stuck, ?_, hshows⟩
    -- the first block is one record longer and has nothing carried over to it
    have hread : ∀ recs status r', SliceReader.read (⟨xs, eager⟩ : SliceReader D) 63 =
        (recs, status, r') →
        SliceReader.read (⟨x :: xs, eager⟩ : SliceReader D) 64 = (x :: recs, status, r') := by
      rintro recs status r' ⟨⟩
      have hlt : xs.length + 1 < 64 ↔ xs.length < 63 := by omega
      simp [SliceReader.read, hlt]
    cases hview with
    | ends h => exact .ends (hread _ _ _ h)
    | stuck h hone => exact .stuck (hread _ _ _ h) hone
    | block h hblock hne hrest => exact .block (hread _ _ _ h) hblock hne hrest

end Views

section Merge

variable {precision : ℤ} {readers : List (SliceReader D)}

structure MergedRows (precision : ℤ) (inputs : List (List (ℤ × D)))
    (rows : List (ℤ × List D)) : Prop where
  increasing : (rows.map Prod.fst).Pairwise (· < ·)
  -- from the first time at which every input has had a record to the last one at which none
  -- is exhausted
  times : ∀ t, t ∈ rows.map Prod.fst ↔
    (∃ data ∈ inputs, ∃ x ∈ data, roundTime precision x.1 = t) ∧
      ∀ data ∈ inputs, (∃ x ∈ data, roundTime precision x.1 ≤ t) ∧
        ∃ x ∈ data, t ≤ roundTime precision x.1
  -- with the last record of every input up to this time
  values : ∀ row ∈ rows, inputs.mapM (fun data =>
    (data.filter fun x => roundTime precision x.1 ≤ row.1).getLast?.map Prod.snd) = some row.2

def SliceReader.times (precision : ℤ) (r : SliceReader D) : List ℤ :=
  r.data.map fun x => roundTime precision x.1

/-- The merge gets to the collapse of `r` at `τ`: every reader without a collapse has a record
later than those of `r` before `τ`. -/
def Reached (precision : ℤ) (readers : List (SliceReader D)) (r : SliceReader D) (τ : ℤ) : Prop :=
  ∀ q ∈ readers, (∀ σ, ¬ Collapses q.eager (q.times precision) σ) →
    ∃ t ∈ q.times precision, ∀ u ∈ r.times precision, u < τ → u < t

/-- Everything a reader has to deliver. -/
def fullStream (precision : ℤ) (r : SliceReader D) : StreamMerge.Stream ℤ D :=
  { entries := lastPerTime (rounded precision r.data), stuck := false }

theorem map_fst_rounded (r : SliceReader D) :
    (rounded precision r.data).map Prod.fst = r.times precision := by
  rw [rounded, List.map_map]
  rfl

theorem fullStream_sorted {r : SliceReader D} (h : r.data.Pairwise fun x y => x.1 ≤ y.1) :
    (fullStream precision r).Sorted :=
  lastPerTime_pairwise (byKey_rounded h)

theorem Shows.cut {r : SliceReader D} {v : StreamMerge.Stream ℤ D} (hlast : v.last = none)
    (h : Shows r.eager (rounded precision r.data) v.entries v.stuck) :
    StreamMerge.Cut (fullStream precision r) v := by
  refine ⟨hlast, ?_⟩
  rcases h with ⟨hstuck, hentries, -⟩ | ⟨hstuck, τ, -, -, hentries⟩
  · exact .inl ⟨hstuck, hentries⟩
  · exact .inr ⟨hstuck, τ, hentries⟩

theorem exists_fullStream {P : ℤ → Prop} {r : SliceReader D}
    (h : r.data.Pairwise fun x y => x.1 ≤ y.1) :
    (∃ x ∈ (fullStream precision r).entries, P x.1) ↔
      ∃ x ∈ r.data, P (roundTime precision x.1) := by
  rw [fullStream, exists_times_lastPerTime (byKey_rounded h)]
  simp only [rounded, List.mem_map, exists_exists_and_eq_and]

theorem mergedRows_of_due {rows : List (ℤ × List D)}
    (hsorted : ∀ r ∈ readers, r.data.Pairwise fun x y => x.1 ≤ y.1)
    (hincreasing : (rows.map Prod.fst).Pairwise (· < ·))
    (htimes : ∀ t, t ∈ rows.map Prod.fst ↔ StreamMerge.Due (readers.map (fullStream precision)) t)
    (hvalues : ∀ row ∈ rows,
      readers.mapM (fun r => (fullStream precision r).valueAt row.1) = some row.2) :
    MergedRows precision (readers.map SliceReader.data) rows := by
  refine ⟨hincreasing, fun t => ?_, fun row hrow => ?_⟩
  · rw [htimes, StreamMerge.due_map]
    simp only [List.mem_map, exists_exists_and_eq_and, forall_exists_index, and_imp,
      forall_apply_eq_imp_iff₂]
    refine and_congr ?_ (forall₂_congr fun r hr => and_congr ?_ ?_)
    · refine exists_congr fun r => and_congr_right fun hr => ?_
      exact @exists_fullStream D precision (· = t) r (hsorted r hr)
    · rw [← @exists_fullStream D precision (· ≤ t) r (hsorted r hr)]
      simp [fullStream]
    · exact @exists_fullStream D precision (t ≤ ·) r (hsorted r hr)
  · rw [← hvalues row hrow, List.mapM_map]
    refine StreamMerge.mapM_congr fun r _ => ?_
    have hlast := getLast?_filter_lastPerTime (fun u => decide (u ≤ row.1))
      (rounded precision r.data)
    rw [StreamMerge.Stream.valueAt, fullStream, hlast, rounded, List.filter_map, List.getLast?_map]
    simp [Function.comp_def]

theorem stuck_iff_reached {view : SliceReader D → StreamMerge.Stream ℤ D}
    (hsorted : ∀ r ∈ readers, r.data.Pairwise fun x y => x.1 ≤ y.1)
    (hview : ∀ r ∈ readers,
      Shows r.eager (rounded precision r.data) (view r).entries (view r).stuck) :
    (∃ s ∈ readers.map view, s.stuck = true ∧
      ∀ q ∈ readers.map view, q.stuck = false → StreamMerge.Outlives q s) ↔
      ∃ r ∈ readers, ∃ τ, Collapses r.eager (r.times precision) τ ∧
        Reached precision readers r τ := by
  have hmem : ∀ r ∈ readers, ∀ t, t ∈ (lastPerTime (rounded precision r.data)).map Prod.fst ↔
      t ∈ r.times precision := by
    intro r hr t
    rw [mem_times_lastPerTime (byKey_rounded (hsorted r hr)), map_fst_rounded]
  simp only [Shows, map_fst_rounded] at hview
  simp only [List.mem_map, exists_exists_and_eq_and, forall_exists_index, and_imp,
    forall_apply_eq_imp_iff₂]
  constructor
  · rintro ⟨r, hr, hstuck, hall⟩
    rcases hview r hr with ⟨hends, -⟩ | ⟨-, τ, hτ, -, hentries⟩
    · exact absurd (hends.symm.trans hstuck) Bool.false_ne_true
    · refine ⟨r, hr, τ, hτ, fun q hq hno => ?_⟩
      rcases hview q hq with ⟨hends, hentriesq, -⟩ | ⟨-, σ, hσ, -⟩
      · obtain ⟨x, hx, hlater⟩ := hall q hq hends
        rw [hentriesq] at hx
        refine ⟨x.1, (hmem q hq x.1).mp (List.mem_map_of_mem hx), fun u hu huτ => ?_⟩
        obtain ⟨y, hy, rfl⟩ := List.mem_map.mp ((hmem r hr u).mpr hu)
        refine hlater y ?_
        rw [hentries]
        exact List.mem_filter.mpr ⟨hy, by simpa using huτ⟩
      · exact absurd hσ (hno σ)
  · rintro ⟨r, hr, τ, hτ, hreached⟩
    rcases hview r hr with ⟨-, -, hno⟩ | ⟨hstuck, τ', -, hmin, hentries⟩
    · exact absurd hτ (hno τ)
    · refine ⟨r, hr, hstuck, fun q hq hends => ?_⟩
      rcases hview q hq with ⟨-, hentriesq, hno⟩ | ⟨hstuckq, -⟩
      · obtain ⟨t, ht, hlater⟩ := hreached q hq hno
        obtain ⟨x, hx, rfl⟩ := List.mem_map.mp ((hmem q hq t).mpr ht)
        refine ⟨x, hentriesq ▸ hx, fun y hy => ?_⟩
        rw [hentries] at hy
        obtain ⟨hy, hyτ⟩ := List.mem_filter.mp hy
        have hyτ' : y.1 < τ' := by simpa using hyτ
        exact hlater y.1 ((hmem r hr y.1).mp (List.mem_map_of_mem hy)) (hyτ'.trans_le (hmin τ hτ))
      · exact absurd (hends.symm.trans hstuckq) Bool.false_ne_true

theorem drain_iff_of_slices {ρ : Type} {read : TSBatchReader ρ D} {rs : List ρ}
    (slice : ρ → SliceReader D) (hsorted : ∀ r ∈ rs.map slice, r.data.Pairwise fun x y => x.1 ≤ y.1)
    (hsame : ∀ r ∈ rs, ∀ rest stuck,
      View SliceReader.read precision [] (slice r) rest stuck →
        View read precision [] r rest stuck) :
    (∃ rows N, (∀ fuel calls, N ≤ fuel → N ≤ calls →
        (newTSMerger rs).drain read precision fuel calls = .ok (rows, none)) ∧
      MergedRows precision ((rs.map slice).map SliceReader.data) rows) ↔
      ∀ r ∈ rs.map slice, ∀ τ, Collapses r.eager (r.times precision) τ →
        ¬ Reached precision (rs.map slice) r τ := by
  have hviews : ∀ r : SliceReader D, ∃ v : StreamMerge.Stream ℤ D, r ∈ rs.map slice →
      v.last = none ∧ View SliceReader.read precision [] r v.entries v.stuck ∧
        Shows r.eager (rounded precision r.data) v.entries v.stuck := by
    intro r
    by_cases hr : r ∈ rs.map slice
    · obtain ⟨rest, stuck, hview, hshows⟩ := @exists_view D precision r (hsorted r hr)
      exact ⟨⟨rest, stuck, none⟩, fun _ => ⟨rfl, hview, hshows⟩⟩
    · exact ⟨⟨[], false, none⟩, fun h => absurd h hr⟩
  choose view hview using hviews
  obtain ⟨rows, stuck, N, hrun, houtcome⟩ :=
    @drain_of_views D ρ read precision rs (fun r => view (slice r)) fun r hr =>
      have hv := hview (slice r) (List.mem_map_of_mem hr)
      ⟨hv.1, hsame r hr _ _ hv.2.1⟩
  rw [← Function.comp_def, ← List.map_map] at hrun
  have hcut : ∀ r ∈ rs.map slice, StreamMerge.Cut (fullStream precision r) (view r) :=
    fun r hr => (hview r hr).2.2.cut (hview r hr).1
  have hfull : ∀ r ∈ rs.map slice, (fullStream precision r).Sorted :=
    fun r hr => fullStream_sorted (hsorted r hr)
  have hstuck : stuck = true ↔ ∃ r ∈ rs.map slice, ∃ τ,
      Collapses r.eager (r.times precision) τ ∧ Reached precision (rs.map slice) r τ := by
    rw [hrun.stuck_iff (List.forall_mem_map.mpr fun r hr =>
      (hfull r hr).sublist (hcut r hr).sublist)]
    exact stuck_iff_reached hsorted fun r hr => (hview r hr).2.2
  constructor
  · rintro ⟨rows', N', hok, -⟩ r hr τ hτ hreached
    have hends : stuck = false := (runsToEnd_iff_of_outcome houtcome).mp ⟨rows', N', hok⟩
    exact Bool.false_ne_true (hends.symm.trans (hstuck.mpr ⟨r, hr, τ, hτ, hreached⟩))
  · intro hno
    have hends : stuck = false := by
      refine Bool.of_not_eq_true fun h => ?_
      obtain ⟨r, hr, τ, hτ, hreached⟩ := hstuck.mp h
      exact hno r hr τ hτ hreached
    subst hends
    obtain ⟨hincreasing, htimes, hvalues⟩ := hrun.rows_of_cut hfull hcut
    exact ⟨rows, N, houtcome, mergedRows_of_due hsorted hincreasing htimes hvalues⟩

/--
The merger puts out the merged rows exactly if it reaches no block that rounds to a single
time; otherwise it panics.
-/
theorem drain_merges_iff (precision : ℤ) (readers : List (SliceReader D))
    (hsorted : ∀ r ∈ readers, r.data.Pairwise fun x y => x.1 ≤ y.1) :
    (∃ rows N, (∀ fuel calls, N ≤ fuel → N ≤ calls →
        (newTSMerger readers).drain SliceReader.read precision fuel calls = .ok (rows, none)) ∧
      MergedRows precision (readers.map SliceReader.data) rows) ↔
      ∀ r ∈ readers, ∀ τ, Collapses r.eager (r.times precision) τ →
        ¬ Reached precision readers r τ := by
  have h := @drain_iff_of_slices D precision _ SliceReader.read readers id
    (by rwa [List.map_id]) fun r _ rest stuck hview => hview
  rwa [List.map_id] at h

def twoSeries : List (SliceReader ℕ) :=
  [⟨[(0, 10), (11, 11), (14, 12), (30, 13)], false⟩, ⟨[(9, 20), (21, 21), (32, 22)], true⟩]

theorem drain_merges_iff_twoSeries :
    ∃ rows N, (∀ fuel calls, N ≤ fuel → N ≤ calls →
        (newTSMerger twoSeries).drain SliceReader.read 10 fuel calls = .ok (rows, none)) ∧
      MergedRows 10 (twoSeries.map SliceReader.data) rows := by
  refine (drain_merges_iff 10 twoSeries (by decide)).mpr fun r hr τ hτ => absurd hτ ?_
  have hshort : ∀ q ∈ twoSeries, (q.times 10).length ≤ 63 := by decide
  exact not_collapses_of_short (.inl (hshort r hr))

def burst : SliceReader ℕ :=
  ⟨(List.range 64).map (fun n => (Int.ofNat n, n)) ++ [(1000, 64)], false⟩

theorem drain_burst_panics : (burst.data.Pairwise fun x y => x.1 ≤ y.1) ∧
    (newTSMerger [burst]).drain SliceReader.read 500 100 100 =
      .error (.panic ("called CurData on last entry but haven't seen EOF, " ++
        "should call ReadIfNeeded first")) := by
  decide +kernel

end Merge

end Proc
end HeypAgents
