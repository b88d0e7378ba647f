import HeypAgents.Alg.HashRingDiff

/-!
# The hash ring is a circular queue

When every fraction is a whole number of chunks, no rounding takes place and
the ring is a queue: growing appends the next ids behind the window and
shrinking drops the oldest ones.  `Tracks` relates a ring to the pair of
counters of `CircularWindow.WindowQueue`; it also says how often each id has
been added and deleted so far, namely as often as the tail and the head counter
have passed it.

The step lemma `tracks_updateFrac` shows that one call of `UpdateFrac` moves one
of the counters, and `tracks_run` extends it to whole runs.
-/

namespace HeypAgents
namespace HashRing

open CircularWindow

def IsChunks (frac : ℚ) : Prop := ∃ k : ℕ, frac = k / 2 ^ 32

theorem isChunks_iff (frac : ℚ) : IsChunks frac ↔ 0 ≤ frac ∧ (frac * 2 ^ 32).den = 1 := by
  constructor
  · rintro ⟨k, rfl⟩
    refine ⟨by positivity, ?_⟩
    rw [div_mul_cancel₀ _ (by norm_num)]
    exact Rat.den_natCast k
  · rintro ⟨hpos, hden⟩
    have hint : frac * 2 ^ 32 = ((frac * 2 ^ 32).num : ℚ) := ((Rat.den_eq_one_iff _).mp hden).symm
    obtain ⟨k, hk⟩ := Int.eq_ofNat_of_zero_le (Rat.num_nonneg.mpr
      (mul_nonneg hpos (by norm_num : (0 : ℚ) ≤ 2 ^ 32)))
    refine ⟨k, ?_⟩
    rw [eq_div_iff (by norm_num), hint, hk]
    rfl

instance : DecidablePred IsChunks := fun frac => decidable_of_iff _ (isChunks_iff frac).symm

/-- Every argument with which the calls reach `UpdateFrac` is a number of chunks. -/
def ChunkAligned (calls : List Call) : Prop :=
  ∀ pre c, pre ++ [c] <+: calls → IsChunks (clampFrac (c.target (run pre).1))

theorem chunkAligned_concat {calls : List Call} {c : Call} (h : ChunkAligned (calls ++ [c])) :
    ChunkAligned calls ∧ IsChunks (clampFrac (c.target (run calls).1)) := by
  constructor
  · intro pre c' hpre
    exact h pre c' (hpre.trans (List.prefix_append calls [c]))
  · exact h calls c (List.prefix_refl _)

section Chunks

variable {x y : ℚ}

theorem fracToRing_sub_of_isChunks (hx : IsChunks x) (hy : IsChunks y) (hxy : x ≤ y) (h1 : y ≤ 1) :
    fracToRing (y - x) = fracToRing y - fracToRing x := by
  obtain ⟨j, rfl⟩ := hx
  obtain ⟨k, rfl⟩ := hy
  have hjk : j ≤ k := by
    rw [div_le_div_iff_of_pos_right (by norm_num)] at hxy
    exact_mod_cast hxy
  have hk : k ≤ 2 ^ 32 := by
    rw [div_le_one (by norm_num)] at h1
    exact_mod_cast h1
  have hsub : (k / 2 ^ 32 - j / 2 ^ 32 : ℚ) = ((k - j : ℕ) : ℚ) / 2 ^ 32 := by
    rw [Nat.cast_sub hjk]
    ring
  rw [fracToRing_chunks (by omega) hsub, fracToRing_chunks hk rfl,
    fracToRing_chunks (by omega : j ≤ 2 ^ 32) rfl, Nat.sub_mul]

theorem fracToRing_cast_of_isChunks (hx : IsChunks x) (h1 : x ≤ 1) :
    (fracToRing x : ℚ) = x * 2 ^ 64 := by
  obtain ⟨k, rfl⟩ := hx
  have hk : k ≤ 2 ^ 32 := by
    rw [div_le_one (by norm_num)] at h1
    exact_mod_cast h1
  rw [fracToRing_chunks hk rfl]
  push_cast
  ring

theorem fracToRing_lt_of_isChunks (hx : IsChunks x) (hy : IsChunks y) (hxy : x < y) (h1 : y ≤ 1) :
    fracToRing x < fracToRing y := by
  have hcast : (fracToRing x : ℚ) < fracToRing y := by
    rw [fracToRing_cast_of_isChunks hx (hxy.le.trans h1), fracToRing_cast_of_isChunks hy h1]
    linarith
  exact_mod_cast hcast

end Chunks

def timesReported (type : RangeDiffType) (diffs : List RangeDiff) (id : ℕ) : ℕ :=
  diffs.countP (fun d => decide (d.type = type) && d.diff.contains id)

@[simp] theorem timesReported_nil (type : RangeDiffType) (id : ℕ) :
    timesReported type [] id = 0 := rfl

theorem timesReported_concat
    (type : RangeDiffType) (diffs : List RangeDiff) (d : RangeDiff) (id : ℕ) :
    timesReported type (diffs ++ [d]) id =
      timesReported type diffs id +
        if d.type = type ∧ d.Reports id then 1 else 0 := by
  unfold timesReported
  rw [List.countP_append, List.countP_singleton]
  congr 1
  exact if_congr (by simp [RangeDiff.Reports]) rfl rfl

/-- The ring and its history of diffs realize the queue `q`. -/
structure Tracks (q : WindowQueue (2 ^ 64)) (ring : HashRing) (diffs : List RangeDiff) :
    Prop where
  start_eq : ring.start = q.head % 2 ^ 64
  size_eq : fracToRing ring.frac = q.size
  frac_chunks : IsChunks ring.frac
  added : ∀ id < 2 ^ 64, timesReported .kAdd diffs id = visits (2 ^ 64) q.tail id
  deleted : ∀ id < 2 ^ 64, timesReported .kDel diffs id = visits (2 ^ 64) q.head id

theorem tracks_default : Tracks WindowQueue.empty {} [] where
  start_eq := rfl
  size_eq := by simp [WindowQueue.empty, WindowQueue.size]
  frac_chunks := ⟨0, by norm_num⟩
  added := by simp [WindowQueue.empty]
  deleted := by simp [WindowQueue.empty]

section Steps

variable {q : WindowQueue (2 ^ 64)} {ring : HashRing} {diffs : List RangeDiff}
variable {new : ℚ}

theorem tracks_grow (h : Tracks q ring diffs) (hw : ring.WellFormed)
    (hnew : IsChunks new) (hlt : ring.frac < new) (h1 : new ≤ 1) :
    ∃ q' : WindowQueue (2 ^ 64), Tracks q' ⟨ring.start, new⟩
      (diffs ++ [computeRangeDiff ring.start ring.frac ring.start new]) := by
  have hmore := fracToRing_lt_of_isChunks h.frac_chunks hnew hlt h1
  have hle := fracToRing_le (hw.frac_nonneg.trans hlt.le) h1
  have hsize := h.size_eq
  have hfit : q.size + (fracToRing new - fracToRing ring.frac) ≤ 2 ^ 64 := by omega
  refine ⟨q.grow _ hfit, h.start_eq, ?_, hnew, ?_, ?_⟩
  · show fracToRing new = _
    rw [WindowQueue.size_grow]
    omega
  · intro id hid
    have htail : (ring.start + fracToRing ring.frac) % 2 ^ 64 = q.tail % 2 ^ 64 := by
      rw [h.start_eq, hsize, q.tail_mod]
    have hreports :
        (computeRangeDiff ring.start ring.frac ring.start new).Reports id ↔
          InWindow (2 ^ 64) (q.tail % 2 ^ 64) (fracToRing new - fracToRing ring.frac) id := by
      rw [reports_grow_iff hw.start_lt hid hw.frac_nonneg hlt h1, htail]
      constructor
      · rintro (hwin | ⟨hz, -⟩ | ⟨heq, -⟩)
        · exact hwin
        · omega
        · omega
      · exact Or.inl
    rw [timesReported_concat, h.added id hid]
    simp only [WindowQueue.grow]
    rw [visits_add hid _ (by omega)]
    congr 1
    exact if_congr (by simp only [computeRangeDiff_type_grow hlt, true_and, hreports]) rfl rfl
  · intro id hid
    rw [timesReported_concat, h.deleted id hid]
    simp [computeRangeDiff_type_grow hlt, WindowQueue.grow]

theorem tracks_shrink (h : Tracks q ring diffs) (hw : ring.WellFormed)
    (hnew : IsChunks new) (hlt : new < ring.frac) :
    ∃ q' : WindowQueue (2 ^ 64), Tracks q'
      ⟨(ring.start + uint128Low64 (fracToRing (ring.frac - new))) % 2 ^ 64, new⟩
      (diffs ++ [computeRangeDiff ring.start ring.frac
        ((ring.start + uint128Low64 (fracToRing (ring.frac - new))) % 2 ^ 64)
        new]) := by
  have hless := fracToRing_lt_of_isChunks hnew h.frac_chunks hlt hw.frac_le_one
  have hle := fracToRing_le hw.frac_nonneg hw.frac_le_one
  have hsub := fracToRing_sub_of_isChunks hnew h.frac_chunks hlt.le hw.frac_le_one
  have hsize := h.size_eq
  rw [hsub]
  have hfit : fracToRing ring.frac - fracToRing new ≤ q.size := by omega
  refine ⟨q.shrink _ hfit, ?_, ?_, hnew, ?_, ?_⟩
  · simp only [WindowQueue.shrink, h.start_eq, uint128Low64]
    omega
  · show fracToRing new = _
    rw [WindowQueue.size_shrink]
    omega
  · intro id hid
    rw [timesReported_concat, h.added id hid]
    simp [computeRangeDiff_type_shrink hlt, WindowQueue.shrink]
  · intro id hid
    have hreports := reports_shrink_iff hw.start_lt hid
      (by omega : fracToRing ring.frac - fracToRing new ≤ 2 ^ 64) hlt
    rw [timesReported_concat, h.deleted id hid]
    simp only [WindowQueue.shrink]
    rw [visits_add hid _ (by omega)]
    congr 1
    refine if_congr ?_ rfl rfl
    rw [computeRangeDiff_type_shrink hlt, hreports, h.start_eq]
    constructor
    · rintro ⟨-, hz | hwin⟩
      · omega
      · exact hwin
    · exact fun hwin => ⟨rfl, Or.inr hwin⟩

theorem tracks_updateFrac (h : Tracks q ring diffs) (hw : ring.WellFormed)
    {f : ℚ} (hf : IsChunks (clampFrac f)) :
    ∃ q' : WindowQueue (2 ^ 64),
      Tracks q' (ring.updateFrac f).1 (diffs ++ [(ring.updateFrac f).2]) := by
  have h1 := clampFrac_le_one f
  unfold updateFrac
  generalize clampFrac f = new at *
  rcases lt_trichotomy ring.frac new with hlt | heq | hgt
  · simp only [hlt.not_gt, if_false]
    exact tracks_grow h hw hf hlt h1
  · subst heq
    simp only [lt_self_iff_false, if_false, computeRangeDiff, if_true]
    refine ⟨q, h.start_eq, h.size_eq, h.frac_chunks, ?_, ?_⟩
    · intro id hid
      rw [timesReported_concat, h.added id hid]
      simp only [RangeDiff.Reports, RingRanges.contains_iff]
      split_ifs <;> omega
    · intro id hid
      rw [timesReported_concat, h.deleted id hid]
      simp
  · simp only [hgt, if_true]
    exact tracks_shrink h hw hf hgt

end Steps

theorem tracks_run (calls : List Call) (h : ChunkAligned calls) :
    ∃ q : WindowQueue (2 ^ 64), Tracks q (run calls).1 (run calls).2 := by
  induction calls using List.reverseRecOn with
  | nil => exact ⟨_, tracks_default⟩
  | append_singleton calls c ih =>
    obtain ⟨hcalls, hc⟩ := chunkAligned_concat h
    obtain ⟨q, hq⟩ := ih hcalls
    rw [run_concat, call_eq_updateFrac]
    exact tracks_updateFrac hq (wellFormed_run calls) hc

theorem matches_iff_of_isChunks {ring : HashRing} (hw : ring.WellFormed) (hc : IsChunks ring.frac)
    {id : ℕ} (hid : id < 2 ^ 64) :
    ring.Matches id ↔ InWindow (2 ^ 64) ring.start (fracToRing ring.frac) id := by
  rw [matches_iff hw hid]
  constructor
  · rintro (hwin | ⟨hne, hz, -⟩)
    · exact hwin
    · have hcast := fracToRing_cast_of_isChunks hc hw.frac_le_one
      rw [hz] at hcast
      have : ring.frac = 0 := by
        push_cast at hcast
        linarith
      exact absurd this hne
  · exact Or.inl

theorem Tracks.matches_iff_holds
    {q : WindowQueue (2 ^ 64)} {ring : HashRing} {diffs : List RangeDiff}
    (h : Tracks q ring diffs) (hw : ring.WellFormed) {id : ℕ} (hid : id < 2 ^ 64) :
    ring.Matches id ↔ q.Holds id := by
  rw [matches_iff_of_isChunks hw h.frac_chunks hid, h.start_eq, h.size_eq, WindowQueue.Holds]

/--
In a run whose fractions are whole numbers of chunks, no id has been added or deleted more
than once more often than another, and the selected ids are the window of `frac * 2 ^ 64`
ids that begins at `start`.
-/
theorem run_roundRobin (calls : List Call) (h : ChunkAligned calls) :
    (∀ type, ∀ x < 2 ^ 64, ∀ y < 2 ^ 64,
        timesReported type (run calls).2 x ≤ timesReported type (run calls).2 y + 1) ∧
      ∃ k : ℕ, (k : ℚ) = (run calls).1.frac * 2 ^ 64 ∧
        ∀ id < 2 ^ 64,
          (run calls).1.Matches id ↔ InWindow (2 ^ 64) (run calls).1.start k id := by
  obtain ⟨q, hq⟩ := tracks_run calls h
  have hw := wellFormed_run calls
  refine ⟨?_, q.size, ?_, ?_⟩
  · intro type x hx y hy
    cases type with
    | kAdd =>
      rw [hq.added x hx, hq.added y hy]
      exact visits_le_succ hx hy _
    | kDel =>
      rw [hq.deleted x hx, hq.deleted y hy]
      exact visits_le_succ hx hy _
  · rw [← hq.size_eq]
    exact fracToRing_cast_of_isChunks hq.frac_chunks hw.frac_le_one
  · intro id hid
    rw [hq.matches_iff_holds hw hid, WindowQueue.Holds, hq.start_eq]

/-- Half of the ring selected, released and selected again. -/
theorem run_roundRobin_half_ring :
    ChunkAligned [.add (1 / 2), .sub (1 / 2), .add (1 / 2)] ∧
      (∀ type, ∀ x < 2 ^ 64, ∀ y < 2 ^ 64,
        timesReported type (run [.add (1 / 2), .sub (1 / 2), .add (1 / 2)]).2 x ≤
          timesReported type (run [.add (1 / 2), .sub (1 / 2), .add (1 / 2)]).2 y + 1) := by
  have haligned : ChunkAligned [.add (1 / 2), .sub (1 / 2), .add (1 / 2)] := by
    intro pre c hpre
    have hlen := hpre.length_le
    rcases pre with _ | ⟨c₁, _ | ⟨c₂, _ | ⟨c₃, rest⟩⟩⟩
    · obtain rfl : c = .add (1 / 2) := by simpa using hpre
      exact ⟨2 ^ 31, by decide +kernel⟩
    · obtain ⟨rfl, rfl⟩ : c₁ = .add (1 / 2) ∧ c = .sub (1 / 2) := by
        simpa using hpre
      exact ⟨0, by decide +kernel⟩
    · obtain ⟨rfl, rfl, rfl⟩ : c₁ = .add (1 / 2) ∧ c₂ = .sub (1 / 2) ∧ c = .add (1 / 2) := by
        simpa using hpre
      exact ⟨2 ^ 31, by decide +kernel⟩
    · simp at hlen
      omega
  exact ⟨haligned, (run_roundRobin _ haligned).1⟩

end HashRing
end HeypAgents
