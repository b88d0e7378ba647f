import HeypAgents.Alg.HashRing

/-!
# When the diff of `UpdateFrac` is exact

`UpdateFrac` computes the ids that enter or leave the ring from the two starts
and the two fractions; `MatchingRanges` computes the selected ids from one start
and one fraction.  This module compares the two.

Both are described as windows of the ring (`matches_iff`, `reports_grow_iff`,
`reports_shrink_iff`).  Three roundings of `FracToRing` are involved, and they
do not add up in general:

* a positive fraction of zero chunks at `start = 0` selects every id, because
  the end of the range is computed as `0 - 1`;
* a growth within one chunk reports every id when the range ends at `MaxId`;
* a shrink by less than half a chunk leaves the start in place and reports
  every id as deleted;
* a shrink for which the rounded fractions do not add up moves the end as well.

`MovesCleanly` excludes exactly these moves, and `run_updateFrac_exactDiff_iff`
states that the diff is exact if and only if it holds.
-/

namespace HeypAgents
namespace HashRing

open CircularWindow

section FracToRing

variable {x y : ℚ}

theorem fracToRing_eq (h0 : 0 ≤ x) (h1 : x ≤ 1) :
    fracToRing x = ⌊x * 2 ^ 32 + 1 / 2⌋.toNat * 2 ^ 32 := by
  have hround : roundHalfAway (x * kNumChunks) = ⌊x * 2 ^ 32 + 1 / 2⌋ := by
    have hnonneg : 0 ≤ x * (kNumChunks : ℚ) := by positivity
    rw [roundHalfAway, if_pos hnonneg]
    norm_num [kNumChunks]
  have hle : ⌊x * 2 ^ 32 + 1 / 2⌋ ≤ 2 ^ 32 := by
    have hfloor : x * 2 ^ 32 + 1 / 2 < ((2 ^ 32 + 1 : ℤ) : ℚ) := by
      push_cast
      linarith
    have := Int.floor_lt.mpr hfloor
    omega
  unfold fracToRing
  rw [hround]
  simp only [kChunkSize, kNumChunks]
  split_ifs <;> omega

@[simp] theorem fracToRing_zero : fracToRing 0 = 0 := by
  rw [fracToRing_eq le_rfl zero_le_one]
  norm_num

theorem fracToRing_mono (h0 : 0 ≤ x) (hxy : x ≤ y) (h1 : y ≤ 1) : fracToRing x ≤ fracToRing y := by
  rw [fracToRing_eq h0 (hxy.trans h1), fracToRing_eq (h0.trans hxy) h1]
  have hfloor : ⌊x * 2 ^ 32 + 1 / 2⌋ ≤ ⌊y * 2 ^ 32 + 1 / 2⌋ := Int.floor_mono (by linarith)
  omega

theorem fracToRing_chunks {k : ℕ} (hk : k ≤ 2 ^ 32) (hx : x = k / 2 ^ 32) :
    fracToRing x = k * 2 ^ 32 := by
  have hk' : (k : ℚ) ≤ 2 ^ 32 := by exact_mod_cast hk
  have h0 : 0 ≤ x := by rw [hx]; positivity
  have h1 : x ≤ 1 := by
    rw [hx, div_le_one (by norm_num)]
    exact hk'
  have hfloor : ⌊x * 2 ^ 32 + 1 / 2⌋ = k := by
    rw [hx, div_mul_cancel₀ _ (by norm_num), Int.floor_eq_iff]
    constructor
    · push_cast
      linarith
    · push_cast
      linarith
  rw [fracToRing_eq h0 h1, hfloor]
  simp

@[simp] theorem fracToRing_one : fracToRing 1 = 2 ^ 64 :=
  fracToRing_chunks (k := 2 ^ 32) le_rfl (by norm_num)

theorem fracToRing_le (h0 : 0 ≤ x) (h1 : x ≤ 1) : fracToRing x ≤ 2 ^ 64 := by
  have := fracToRing_mono h0 h1 le_rfl
  rwa [fracToRing_one] at this

theorem fracToRing_add_le (hx0 : 0 ≤ x) (hy0 : 0 ≤ y) (h1 : x + y ≤ 1)
    (hx : fracToRing x = 0) (hy : fracToRing y = 0) : fracToRing (x + y) ≤ 2 ^ 32 := by
  rw [fracToRing_eq hx0 (by linarith)] at hx
  rw [fracToRing_eq hy0 (by linarith)] at hy
  rw [fracToRing_eq (by positivity) h1]
  have hx' : x * 2 ^ 32 + 1 / 2 < 1 := by
    have : ⌊x * 2 ^ 32 + 1 / 2⌋ < 1 := by omega
    exact_mod_cast Int.floor_lt.mp this
  have hy' : y * 2 ^ 32 + 1 / 2 < 1 := by
    have : ⌊y * 2 ^ 32 + 1 / 2⌋ < 1 := by omega
    exact_mod_cast Int.floor_lt.mp this
  have hsum : ⌊(x + y) * 2 ^ 32 + 1 / 2⌋ < 2 := by
    rw [Int.floor_lt]
    push_cast
    linarith
  omega

end FracToRing

theorem clampFrac_nonneg (f : ℚ) : 0 ≤ clampFrac f := by
  unfold clampFrac
  split_ifs <;> linarith

theorem clampFrac_le_one (f : ℚ) : clampFrac f ≤ 1 := by
  unfold clampFrac
  split_ifs <;> linarith

/-- What every reachable ring satisfies. -/
structure WellFormed (ring : HashRing) : Prop where
  start_lt : ring.start < 2 ^ 64
  frac_nonneg : 0 ≤ ring.frac
  frac_le_one : ring.frac ≤ 1

theorem wellFormed_default : WellFormed {} where
  start_lt := by norm_num
  frac_nonneg := le_rfl
  frac_le_one := zero_le_one

theorem wellFormed_updateFrac {ring : HashRing} (h : ring.WellFormed) (f : ℚ) :
    (ring.updateFrac f).1.WellFormed where
  start_lt := by
    simp only [updateFrac]
    split_ifs
    · exact Nat.mod_lt _ (by norm_num)
    · exact h.start_lt
  frac_nonneg := clampFrac_nonneg f
  frac_le_one := clampFrac_le_one f

section LastIds

/-- The last of `m` ids that begin at `start`, before it wraps; there is none without any ids. -/
def lastId (start m : ℕ) : ℕ :=
  if start + m = 0 then 2 ^ 128 - 1 else start + m - 1

variable {start m : ℕ}

theorem uint128Sub_one {x : ℕ} (hpos : 0 < x) (hx : x ≤ 2 ^ 128) : uint128Sub x 1 = x - 1 := by
  have hwrap : x + (2 ^ 128 - 1) = x - 1 + 2 ^ 128 := by omega
  rw [uint128Sub, hwrap, Nat.add_mod_right, Nat.mod_eq_of_lt (by omega)]

theorem uint128Add_sub_one (hs : start < 2 ^ 64) (hm : m ≤ 2 ^ 64) :
    uint128Add start (uint128Sub m 1) = lastId start m := by
  rcases Nat.eq_zero_or_pos m with rfl | hpos
  · have hnone : uint128Sub 0 1 = 2 ^ 128 - 1 := by norm_num [uint128Sub]
    rw [hnone]
    rcases Nat.eq_zero_or_pos start with rfl | hstart
    · norm_num [uint128Add, lastId]
    · exact (uint128Sub_one hstart (by omega)).trans (if_neg (by omega)).symm
  · rw [uint128Sub_one hpos (by omega), lastId, if_neg (by omega), uint128Add,
      Nat.mod_eq_of_lt (by omega)]
    omega

theorem uint128Sub_add_one (hs : start < 2 ^ 64) (hm : m ≤ 2 ^ 64) :
    uint128Sub (uint128Add start m) 1 = lastId start m := by
  have hadd : uint128Add start m = start + m := Nat.mod_eq_of_lt (by omega)
  rw [hadd, lastId]
  split_ifs with hzero
  · rw [hzero]
    norm_num [uint128Sub]
  · exact uint128Sub_one (by omega) (by omega)

theorem lastId_add_one (hs : start < 2 ^ 64) (hm : m ≤ 2 ^ 64) :
    uint128Add (lastId start m) 1 = start + m := by
  rw [lastId]
  split_ifs with hzero
  · rw [hzero]
    norm_num [uint128Add]
  · rw [uint128Add, Nat.sub_add_cancel (by omega), Nat.mod_eq_of_lt (by omega)]

theorem uint128_of_lt {x : ℕ} (hx : x < 2 ^ 64) : uint128High64 x = 0 ∧ uint128Low64 x = x := by
  rw [uint128High64, uint128Low64, Nat.div_eq_of_lt hx, Nat.mod_eq_of_lt hx]
  exact ⟨rfl, rfl⟩

theorem uint128_of_le {x : ℕ} (hle : 2 ^ 64 ≤ x) (hx : x < 2 * 2 ^ 64) :
    uint128High64 x ≠ 0 ∧ uint128Low64 x = x - 2 ^ 64 := by
  unfold uint128High64 uint128Low64
  omega

theorem uint128_add_cases (hs : start < 2 ^ 64) (hm : m ≤ 2 ^ 64) :
    start + m < 2 ^ 64 ∧ uint128High64 (start + m) = 0 ∧ uint128Low64 (start + m) = start + m ∨
      2 ^ 64 ≤ start + m ∧ uint128High64 (start + m) ≠ 0 ∧
        uint128Low64 (start + m) = start + m - 2 ^ 64 := by
  rcases Nat.lt_or_ge (start + m) (2 ^ 64) with hlt | hge
  · exact .inl ⟨hlt, uint128_of_lt hlt⟩
  · exact .inr ⟨hge, uint128_of_le hge (by omega)⟩

theorem lastId_cases (hs : start < 2 ^ 64) (hm : m ≤ 2 ^ 64) :
    start + m = 0 ∧ uint128High64 (lastId start m) ≠ 0 ∧ uint128Low64 (lastId start m) = maxId ∨
      0 < start + m ∧ start + m ≤ 2 ^ 64 ∧ uint128High64 (lastId start m) = 0 ∧
        uint128Low64 (lastId start m) = start + m - 1 ∨
      2 ^ 64 < start + m ∧ uint128High64 (lastId start m) ≠ 0 ∧
        uint128Low64 (lastId start m) = start + m - 1 - 2 ^ 64 := by
  rcases Nat.eq_zero_or_pos (start + m) with hzero | hpos
  · refine .inl ⟨hzero, ?_⟩
    rw [lastId, if_pos hzero]
    exact ⟨by norm_num [uint128High64], by norm_num [uint128Low64, maxId]⟩
  · rw [lastId, if_neg hpos.ne']
    rcases Nat.lt_or_ge (2 ^ 64) (start + m) with hwraps | hfits
    · exact .inr (.inr ⟨hwraps, uint128_of_le (by omega) (by omega)⟩)
    · exact .inr (.inl ⟨hpos, hfits, uint128_of_lt (by omega)⟩)

end LastIds

section Membership

variable {ring : HashRing} {id : ℕ}

/--
The selected set is the window of `FracToRing(frac)` ids beginning at `start`,
except that a positive fraction of zero chunks at `start = 0` selects all ids.
-/
theorem matches_iff (h : ring.WellFormed) (hid : id < 2 ^ 64) :
    ring.Matches id ↔
      InWindow (2 ^ 64) ring.start (fracToRing ring.frac) id ∨
        (ring.frac ≠ 0 ∧ fracToRing ring.frac = 0 ∧ ring.start = 0) := by
  have hle := fracToRing_le h.frac_nonneg h.frac_le_one
  have hs := h.start_lt
  rw [inWindow_iff hs hid]
  unfold Matches matchingRanges
  by_cases hzero : ring.frac = 0
  · simp only [hzero, if_true, RingRanges.contains_iff, fracToRing_zero,
      ne_eq, not_true_eq_false, false_and, or_false]
    omega
  · simp only [hzero, if_false, not_false_eq_true, ne_eq, true_and]
    rw [uint128Sub_add_one hs hle]
    rcases lastId_cases hs hle with ⟨hnone, hhigh, hlow⟩ | ⟨hpos, hfits, hhigh, hlow⟩ |
      ⟨hwraps, hhigh, hlow⟩
    · rw [if_pos hhigh, hlow, RingRanges.contains_iff]
      dsimp only [maxId]
      omega
    · rw [if_neg (not_not.mpr hhigh), hlow, RingRanges.contains_iff]
      dsimp only
      omega
    · rw [if_pos hhigh, hlow, RingRanges.contains_iff]
      dsimp only [maxId]
      omega

/--
Ids reported when the fraction grows from `old` to `new`.  Besides the window
between the two ends there are two ways to report every id: a new range of zero
chunks at `start = 0`, and an unchanged range that ends with the last id.
-/
theorem reports_grow_iff {start : ℕ} {old new : ℚ} (hs : start < 2 ^ 64) (hid : id < 2 ^ 64)
    (h0 : 0 ≤ old) (hlt : old < new) (h1 : new ≤ 1) :
    (computeRangeDiff start old start new).Reports id ↔
      InWindow (2 ^ 64) ((start + fracToRing old) % 2 ^ 64) (fracToRing new - fracToRing old) id ∨
        (fracToRing new = 0 ∧ start = 0) ∨
        (fracToRing old = fracToRing new ∧ start + fracToRing new = 2 ^ 64) := by
  have hmono := fracToRing_mono h0 hlt.le h1
  have hle := fracToRing_le (h0.trans hlt.le) h1
  have hs' : (start + fracToRing old) % 2 ^ 64 < 2 ^ 64 := Nat.mod_lt _ (by norm_num)
  rw [inWindow_iff hs' hid]
  unfold RangeDiff.Reports computeRangeDiff
  have hle' := hmono.trans hle
  simp only [hlt.ne, hlt, if_false, if_true, uint128Add_sub_one hs hle, uint128Add_sub_one hs hle',
    lastId_add_one hs hle']
  generalize fracToRing old = m at *
  generalize fracToRing new = m' at *
  have hmod : (start + m) % 2 ^ 64 = uint128Low64 (start + m) := rfl
  rw [hmod]
  rcases uint128_add_cases hs hle' with ⟨hlt', hhigh', hlow'⟩ | ⟨hge', hhigh', hlow'⟩
  · rw [hlow']
    rcases lastId_cases hs hle with ⟨hnone, hhigh, hlow⟩ | ⟨hpos, hfits, hhigh, hlow⟩ |
      ⟨hwraps, hhigh, hlow⟩
    · rw [if_pos ⟨hhigh, hhigh'⟩, hlow, RingRanges.contains_iff]
      dsimp only [maxId]
      omega
    · rw [if_neg fun h => h.1 hhigh, hlow, RingRanges.contains_iff]
      dsimp only
      omega
    · rw [if_pos ⟨hhigh, hhigh'⟩, hlow, RingRanges.contains_iff]
      dsimp only [maxId]
      omega
  · rw [hlow', if_neg fun h => hhigh' h.2, RingRanges.contains_iff]
    dsimp only
    rcases lastId_cases hs hle with ⟨hnone, -⟩ | ⟨hpos, hfits, -, hlow⟩ | ⟨hwraps, -, hlow⟩
    · omega
    · rw [hlow]
      omega
    · rw [hlow]
      omega

/--
Ids reported when the fraction shrinks: everything from the old start up to the
new one, which is every id when the start does not move.
-/
theorem reports_shrink_iff {start : ℕ} {old new : ℚ} {d : ℕ}
    (hs : start < 2 ^ 64) (hid : id < 2 ^ 64) (hd : d ≤ 2 ^ 64) (hlt : new < old) :
    (computeRangeDiff start old ((start + uint128Low64 d) % 2 ^ 64) new).Reports id ↔
      d = 0 ∨ InWindow (2 ^ 64) start d id := by
  rw [inWindow_iff hs hid]
  unfold RangeDiff.Reports computeRangeDiff
  simp only [hlt.ne', hlt.not_gt, if_false]
  have hmoved : (start + uint128Low64 d) % 2 ^ 64 = uint128Low64 (start + d) :=
    Nat.add_mod_mod start d _
  rw [hmoved]
  unfold maxId
  rcases uint128_add_cases hs hd with ⟨hlt', -, hlow⟩ | ⟨hge', -, hlow⟩
  · rw [hlow]
    split_ifs <;> rw [RingRanges.contains_iff] <;> dsimp only <;> omega
  · rw [hlow]
    split_ifs <;> rw [RingRanges.contains_iff] <;> dsimp only <;> omega

end Membership

/-- The ids reported by `d` are exactly those by which the two selections differ. -/
def ExactDiff (before after : HashRing) (d : RangeDiff) : Prop :=
  ∀ id < 2 ^ 64,
    match d.type with
    | .kAdd =>
      (d.Reports id ↔ after.Matches id ∧ ¬ before.Matches id) ∧
        (before.Matches id → after.Matches id)
    | .kDel =>
      (d.Reports id ↔ before.Matches id ∧ ¬ after.Matches id) ∧
        (after.Matches id → before.Matches id)

def ZeroChunks (frac : ℚ) : Prop := frac ≠ 0 ∧ fracToRing frac = 0

/-- Growing to `new` is not disturbed by rounding. -/
def GrowsCleanly (ring : HashRing) (new : ℚ) : Prop :=
  ¬ (ZeroChunks ring.frac ∧ ring.start = 0) ∧
    ¬ (fracToRing ring.frac = fracToRing new ∧ ring.start + fracToRing new = 2 ^ 64)

/-- Shrinking to `new` is not disturbed by rounding. -/
def ShrinksCleanly (ring : HashRing) (new : ℚ) : Prop :=
  if fracToRing (ring.frac - new) = 0 then
    ring.start = 0 ∧ new = 0
  else
    fracToRing ring.frac = fracToRing (ring.frac - new) + fracToRing new ∧
      ¬ (ZeroChunks new ∧ (ring.start + fracToRing (ring.frac - new)) % 2 ^ 64 = 0)

/-- The move from the current fraction to `new` is not disturbed by rounding. -/
def MovesCleanly (ring : HashRing) (new : ℚ) : Prop :=
  (ring.frac < new → ring.GrowsCleanly new) ∧ (new < ring.frac → ring.ShrinksCleanly new)

theorem computeRangeDiff_type_grow {start : ℕ} {old new : ℚ} (hlt : old < new) :
    (computeRangeDiff start old start new).type = .kAdd := by
  unfold computeRangeDiff
  simp only [hlt.ne, hlt, if_false, if_true]
  split_ifs <;> rfl

theorem computeRangeDiff_type_shrink {start start' : ℕ} {old new : ℚ} (hlt : new < old) :
    (computeRangeDiff start old start' new).type = .kDel := by
  unfold computeRangeDiff
  simp only [hlt.ne', hlt.not_gt, if_false]
  split_ifs <;> rfl

section Exactness

variable {ring : HashRing} {new : ℚ}

theorem exactDiff_grow_iff (h : ring.WellFormed) (hlt : ring.frac < new) (h1 : new ≤ 1) :
    ExactDiff ring ⟨ring.start, new⟩ (computeRangeDiff ring.start ring.frac ring.start new) ↔
      ring.GrowsCleanly new := by
  have h' : WellFormed ⟨ring.start, new⟩ := ⟨h.start_lt, h.frac_nonneg.trans hlt.le, h1⟩
  have hs := h.start_lt
  have hmono := fracToRing_mono h.frac_nonneg hlt.le h1
  have hle : fracToRing new ≤ 2 ^ 64 := fracToRing_le h'.frac_nonneg h1
  have hnew : new ≠ 0 := (lt_of_le_of_lt h.frac_nonneg hlt).ne'
  have hs' : (ring.start + fracToRing ring.frac) % 2 ^ 64 < 2 ^ 64 := Nat.mod_lt _ (by norm_num)
  have hafter : ∀ id < 2 ^ 64,
      Matches ⟨ring.start, new⟩ id ↔
        InWindow (2 ^ 64) ring.start (fracToRing new) id ∨
          (new ≠ 0 ∧ fracToRing new = 0 ∧ ring.start = 0) :=
    fun _ hid => matches_iff h' hid
  unfold ExactDiff GrowsCleanly ZeroChunks
  simp only [computeRangeDiff_type_grow hlt]
  constructor
  · intro hexact
    -- Both excluded moves already report a wrong set at the first id.
    have hzero := hexact 0 (by norm_num)
    rw [reports_grow_iff hs (by norm_num) h.frac_nonneg hlt h1,
      hafter 0 (by norm_num), matches_iff h (by norm_num),
      inWindow_iff hs (by norm_num), inWindow_iff hs (by norm_num),
      inWindow_iff hs' (by norm_num)] at hzero
    by_cases hF : ring.frac = 0
    · simp only [hF, hnew, ne_eq, not_true_eq_false, not_false_eq_true,
        false_and, true_and, or_false] at hzero ⊢
      omega
    · simp only [hF, hnew, ne_eq, not_false_eq_true, true_and] at hzero ⊢
      omega
  · rintro ⟨hchunks, hend⟩ id hid
    -- The new window is the old one and, behind it, the reported one.
    have hsum : fracToRing ring.frac + (fracToRing new - fracToRing ring.frac) =
        fracToRing new := Nat.add_sub_cancel' hmono
    have hgrows := inWindow_add hs hid (hsum.trans_le hle)
    have hdisj := fun hw : InWindow (2 ^ 64) ring.start (fracToRing ring.frac) id =>
      inWindow_disjoint hs hid (hsum.trans_le hle) hw
    rw [hsum] at hgrows
    have hbefore : ring.Matches id ↔ InWindow (2 ^ 64) ring.start (fracToRing ring.frac) id := by
      rw [matches_iff h hid]
      exact or_iff_left fun hz => hchunks ⟨⟨hz.1, hz.2.1⟩, hz.2.2⟩
    have hempty : fracToRing new = 0 →
        ¬ InWindow (2 ^ 64) ring.start (fracToRing ring.frac) id := by
      intro hz
      rw [Nat.le_zero.mp (hmono.trans_eq hz)]
      exact not_inWindow_zero
    rw [reports_grow_iff hs hid h.frac_nonneg hlt h1, or_iff_left hend, hafter id hid, hbefore,
      hgrows]
    refine ⟨⟨?_, ?_⟩, fun hw => .inl (.inl hw)⟩
    · rintro (hw | hz)
      · exact ⟨.inl (.inr hw), fun hw' => hdisj hw' hw⟩
      · exact ⟨.inr ⟨hnew, hz⟩, hempty hz.1⟩
    · rintro ⟨(hw | hw) | hz, hout⟩
      · exact absurd hw hout
      · exact .inl hw
      · exact .inr hz.2

theorem exactDiff_shrink_unmoved_iff (h : ring.WellFormed) (h0 : 0 ≤ new) (hlt : new < ring.frac)
    (hmoved : fracToRing (ring.frac - new) = 0) :
    ExactDiff ring ⟨ring.start, new⟩
        (computeRangeDiff ring.start ring.frac ((ring.start + uint128Low64 0) % 2 ^ 64) new) ↔
      ring.start = 0 ∧ new = 0 := by
  have h' : WellFormed ⟨ring.start, new⟩ := ⟨h.start_lt, h0, hlt.le.trans h.frac_le_one⟩
  have hs := h.start_lt
  have hF : ring.frac ≠ 0 := (lt_of_le_of_lt h0 hlt).ne'
  have hafter : ∀ id < 2 ^ 64,
      Matches ⟨ring.start, new⟩ id ↔
        InWindow (2 ^ 64) ring.start (fracToRing new) id ∨
          (new ≠ 0 ∧ fracToRing new = 0 ∧ ring.start = 0) :=
    fun _ hid => matches_iff h' hid
  unfold ExactDiff
  simp only [computeRangeDiff_type_shrink hlt]
  constructor
  · intro hexact
    -- At the start itself nothing may remain selected.
    have hstart := hexact ring.start hs
    -- The id before the start must have been selected, so the ring was full.
    have hlast := hexact ((ring.start + (2 ^ 64 - 1)) % 2 ^ 64) (Nat.mod_lt _ (by norm_num))
    have hlt' : (ring.start + (2 ^ 64 - 1)) % 2 ^ 64 < 2 ^ 64 := Nat.mod_lt _ (by norm_num)
    rw [reports_shrink_iff hs hs (by norm_num) hlt, hafter _ hs,
      matches_iff h hs, inWindow_iff hs hs, inWindow_iff hs hs,
      inWindow_iff hs hs] at hstart
    rw [reports_shrink_iff hs hlt' (by norm_num) hlt, hafter _ hlt',
      matches_iff h hlt', inWindow_iff hs hlt', inWindow_iff hs hlt',
      inWindow_iff hs hlt'] at hlast
    by_cases hnew : new = 0
    · refine ⟨?_, hnew⟩
      rw [hnew, sub_zero] at hmoved
      simp only [hmoved, hnew, hF, fracToRing_zero, ne_eq, not_true_eq_false,
        not_false_eq_true, false_and, true_and, or_false, true_or,
        true_iff] at hstart
      omega
    · exfalso
      have hsum := fracToRing_add_le h0 (sub_nonneg.mpr hlt.le)
        (by linarith [h.frac_le_one] : new + (ring.frac - new) ≤ 1)
      rw [add_sub_cancel] at hsum
      simp only [hnew, hF, ne_eq, not_false_eq_true, true_and, true_or, true_iff] at hstart hlast
      by_cases hm : fracToRing new = 0
      · have := hsum hm hmoved
        omega
      · omega
  · rintro ⟨hstart, hnew⟩ id hid
    rw [hnew, sub_zero] at hmoved
    rw [reports_shrink_iff hs hid (by norm_num) hlt, hafter _ hid, matches_iff h hid]
    simp [hmoved, hnew, hF, hstart]

/-- The window of `m` ids after the first `moved` ids is what these leave of the window of
`len` ids. -/
def IsRest (start moved len m : ℕ) : Prop :=
  ∀ id < 2 ^ 64,
    (InWindow (2 ^ 64) start moved id ↔ InWindow (2 ^ 64) start len id ∧
      ¬ InWindow (2 ^ 64) ((start + moved) % 2 ^ 64) m id) ∧
    (InWindow (2 ^ 64) ((start + moved) % 2 ^ 64) m id → InWindow (2 ^ 64) start len id)

theorem IsRest.offset
    {start moved len m t : ℕ} (hs : start < 2 ^ 64) (hrest : IsRest start moved len m)
    (ht : t < 2 ^ 64) :
    (t < moved ↔ t < len ∧ ¬ InWindow (2 ^ 64) ((start + moved) % 2 ^ 64) m
        ((start + t) % 2 ^ 64)) ∧
      (InWindow (2 ^ 64) ((start + moved) % 2 ^ 64) m ((start + t) % 2 ^ 64) → t < len) := by
  have hid : (start + t) % 2 ^ 64 < 2 ^ 64 := Nat.mod_lt _ (by norm_num)
  have hoff : ∀ k, InWindow (2 ^ 64) start k ((start + t) % 2 ^ 64) ↔ t < k := by
    intro k
    rw [inWindow_iff hs hid]
    omega
  simpa only [hoff] using hrest _ hid

theorem IsRest.length_eq
    {start moved len m : ℕ} (hs : start < 2 ^ 64) (hmoved : moved ≠ 0) (hmoved_le : moved ≤ len)
    (hle : len ≤ 2 ^ 64) (hrest : IsRest start moved len m) : len = moved + m := by
  have hs' : (start + moved) % 2 ^ 64 < 2 ^ 64 := Nat.mod_lt _ (by norm_num)
  have hid : ∀ t, (start + t) % 2 ^ 64 < 2 ^ 64 := fun t => Nat.mod_lt _ (by norm_num)
  rcases lt_trichotomy len (moved + m) with hshort | heq | hlong
  · rcases hle.lt_or_eq with hlt | hfull
    · have := (hrest.offset hs hlt).2
      rw [inWindow_iff hs' (hid _)] at this
      omega
    · have := (hrest.offset (t := 0) hs (by norm_num)).1
      rw [inWindow_iff hs' (hid 0)] at this
      omega
  · exact heq
  · have := (hrest.offset (t := moved + m) hs (by omega)).1
    rw [inWindow_iff hs' (hid _)] at this
    omega

theorem isRest_of_length_eq {start moved len m : ℕ} (hs : start < 2 ^ 64) (hle : len ≤ 2 ^ 64)
    (heq : len = moved + m) : IsRest start moved len m := by
  subst heq
  intro id hid
  have hdisj := fun hw : InWindow (2 ^ 64) start moved id => inWindow_disjoint hs hid hle hw
  rw [inWindow_add hs hid hle]
  refine ⟨⟨fun hw => ⟨.inl hw, hdisj hw⟩, ?_⟩, .inr⟩
  rintro ⟨hw | hw, hout⟩
  · exact hw
  · exact absurd hw hout

theorem exactDiff_shrink_moved_iff (h : ring.WellFormed) (h0 : 0 ≤ new) (hlt : new < ring.frac)
    {moved : ℕ} (hdef : fracToRing (ring.frac - new) = moved) (hmoved : moved ≠ 0) :
    ExactDiff ring ⟨(ring.start + moved) % 2 ^ 64, new⟩
        (computeRangeDiff ring.start ring.frac ((ring.start + uint128Low64 moved) % 2 ^ 64) new) ↔
      fracToRing ring.frac = moved + fracToRing new ∧
        ¬ (ZeroChunks new ∧ (ring.start + moved) % 2 ^ 64 = 0) := by
  have hs := h.start_lt
  have hs' : (ring.start + moved) % 2 ^ 64 < 2 ^ 64 := Nat.mod_lt _ (by norm_num)
  have h' : WellFormed ⟨(ring.start + moved) % 2 ^ 64, new⟩ := ⟨hs', h0, hlt.le.trans h.frac_le_one⟩
  have hmoved_le : moved ≤ fracToRing ring.frac := by
    rw [← hdef]
    exact fracToRing_mono (sub_nonneg.mpr hlt.le) (by linarith) h.frac_le_one
  have hle : fracToRing ring.frac ≤ 2 ^ 64 := fracToRing_le h.frac_nonneg h.frac_le_one
  have hbefore : ∀ id < 2 ^ 64,
      ring.Matches id ↔ InWindow (2 ^ 64) ring.start (fracToRing ring.frac) id := by
    intro id hid
    rw [matches_iff h hid]
    constructor
    · rintro (hw | ⟨-, hz, -⟩)
      · exact hw
      · omega
    · exact Or.inl
  have hafter : ∀ id < 2 ^ 64,
      Matches ⟨(ring.start + moved) % 2 ^ 64, new⟩ id ↔
        InWindow (2 ^ 64) ((ring.start + moved) % 2 ^ 64) (fracToRing new) id ∨
          (ZeroChunks new ∧ (ring.start + moved) % 2 ^ 64 = 0) := by
    intro id hid
    rw [matches_iff h' hid, ZeroChunks, and_assoc]
  have hreports : ∀ id < 2 ^ 64,
      (computeRangeDiff ring.start ring.frac
          ((ring.start + uint128Low64 moved) % 2 ^ 64) new).Reports id ↔
        InWindow (2 ^ 64) ring.start moved id := by
    intro id hid
    rw [reports_shrink_iff hs hid (hmoved_le.trans hle) hlt]
    simp [hmoved]
  unfold ExactDiff
  simp only [computeRangeDiff_type_shrink hlt]
  constructor
  · intro hexact
    have hnot : ¬ (ZeroChunks new ∧ (ring.start + moved) % 2 ^ 64 = 0) := by
      intro hz
      have hstart := hexact ring.start hs
      rw [hreports _ hs, hbefore _ hs, hafter _ hs, inWindow_iff hs hs,
        inWindow_iff hs hs] at hstart
      simp only [hz, and_self, or_true, not_true_eq_false, and_false, iff_false] at hstart
      omega
    refine ⟨IsRest.length_eq hs hmoved hmoved_le hle fun id hid => ?_, hnot⟩
    have hpoint := hexact id hid
    rw [hreports _ hid, hbefore _ hid, hafter _ hid] at hpoint
    simpa only [hnot, or_false] using hpoint
  · rintro ⟨heq, hnot⟩ id hid
    rw [hreports _ hid, hbefore _ hid, hafter _ hid]
    simp only [hnot, or_false]
    exact isRest_of_length_eq hs hle heq id hid

theorem exactDiff_updateFrac_iff (h : ring.WellFormed) (f : ℚ) :
    ExactDiff ring (ring.updateFrac f).1 (ring.updateFrac f).2 ↔
      ring.MovesCleanly (clampFrac f) := by
  have h0 := clampFrac_nonneg f
  have h1 := clampFrac_le_one f
  unfold MovesCleanly updateFrac
  generalize clampFrac f = new at *
  rcases lt_trichotomy ring.frac new with hlt | heq | hgt
  · simp only [hlt.not_gt, hlt, if_false, false_imp_iff, true_imp_iff, and_true]
    exact exactDiff_grow_iff h hlt h1
  · subst heq
    simp only [lt_self_iff_false, if_false, false_imp_iff, and_self, iff_true]
    intro id _
    simp only [computeRangeDiff, if_true, RangeDiff.Reports, RingRanges.contains_iff]
    refine ⟨⟨fun hrep => ?_, fun hboth => absurd hboth.1 hboth.2⟩, fun hm => hm⟩
    omega
  · simp only [hgt.not_gt, hgt, if_true, false_imp_iff, true_imp_iff, true_and, ShrinksCleanly]
    split_ifs with hmoved
    · rw [hmoved]
      have hstart : (ring.start + uint128Low64 0) % 2 ^ 64 = ring.start := by
        have := h.start_lt
        unfold uint128Low64
        omega
      have hiff := exactDiff_shrink_unmoved_iff h h0 hgt hmoved
      rwa [hstart] at hiff ⊢
    · have hstart : ∀ moved, (ring.start + uint128Low64 moved) % 2 ^ 64 =
          (ring.start + moved) % 2 ^ 64 := by
        intro moved
        unfold uint128Low64
        omega
      have hiff := exactDiff_shrink_moved_iff h h0 hgt rfl hmoved
      rwa [hstart] at hiff ⊢

end Exactness

theorem wellFormed_run (calls : List Call) : (run calls).1.WellFormed := by
  induction calls using List.reverseRecOn with
  | nil => exact wellFormed_default
  | append_singleton calls c ih =>
    rw [run_concat, call_eq_updateFrac]
    exact wellFormed_updateFrac ih _

/--
After any sequence of calls, the next `UpdateFrac` reports the exact difference of the two
selections if and only if the move is not disturbed by rounding to chunks.
-/
theorem run_updateFrac_exactDiff_iff (calls : List Call) (f : ℚ) :
    ExactDiff (run calls).1 ((run calls).1.updateFrac f).1 ((run calls).1.updateFrac f).2 ↔
      (run calls).1.MovesCleanly (clampFrac f) :=
  exactDiff_updateFrac_iff (wellFormed_run calls) f

/--
A full ring that gives up a quarter of a chunk keeps selecting every id, but
the diff says that every id was deselected.
-/
theorem not_exactDiff_full_minus_quarter_chunk :
    ¬ ExactDiff (run [.updateFrac 1]).1 ((run [.updateFrac 1]).1.updateFrac (1 - 1 / 2 ^ 34)).1
        ((run [.updateFrac 1]).1.updateFrac (1 - 1 / 2 ^ 34)).2 := by
  intro h
  have htype : ((run [.updateFrac 1]).1.updateFrac (1 - 1 / 2 ^ 34)).2.type = .kDel := by
    decide +kernel
  have hreports : ((run [.updateFrac 1]).1.updateFrac (1 - 1 / 2 ^ 34)).2.Reports 0 := by
    decide +kernel
  have hafter : ((run [.updateFrac 1]).1.updateFrac (1 - 1 / 2 ^ 34)).1.Matches 0 := by
    decide +kernel
  have hzero := h 0 (by norm_num)
  rw [htype] at hzero
  exact (hzero.1.mp hreports).2 hafter

end HashRing
end HeypAgents
