import Mathlib.Algebra.Order.Ring.Int

/-!
# The usage of a simulated host

`GetUsage` reads a triangle wave between `Min` and `Max` in 64-bit integers.  The remainder
of the period, in nanoseconds, is multiplied by the range before the division, so the
result leaves the wave as soon as this product does not fit.
-/

namespace HeypAgents
namespace HostAgentSim

/-- A wave; the period is in nanoseconds. -/
structure UsageGen where
  min : Int64
  max : Int64
  period : Int64
deriving DecidableEq, Repr

namespace UsageGen

def getUsage (g : UsageGen) (elapsed : Int64) : Int64 :=
  let urange := g.max - g.min
  let periodIndex := elapsed / g.period
  let uOff := elapsed % g.period * urange / g.period
  let uOff := if periodIndex % 2 = 1 then urange - uOff else uOff
  g.min + uOff

/-- A wave that runs up from `Min ≥ 0` to `Max` in a positive period. -/
structure Valid (g : UsageGen) : Prop where
  min_nonneg : 0 ≤ g.min.toInt
  min_le_max : g.min.toInt ≤ g.max.toInt
  period_pos : 0 < g.period.toInt

def offset (g : UsageGen) (elapsed : Int64) : ℤ :=
  elapsed.toInt % g.period.toInt * (g.max.toInt - g.min.toInt) / g.period.toInt

/-- The exact triangle wave. -/
def wave (g : UsageGen) (elapsed : Int64) : ℤ :=
  if elapsed.toInt / g.period.toInt % 2 = 0 then g.min.toInt + g.offset elapsed
  else g.max.toInt - g.offset elapsed

theorem toInt_bounds (x : Int64) : -2 ^ 63 ≤ x.toInt ∧ x.toInt < 2 ^ 63 := ⟨x.le_toInt, x.toInt_lt⟩

theorem bmod_of_bounds {x : ℤ} (hle : -2 ^ 63 ≤ x) (hlt : x < 2 ^ 63) : x.bmod (2 ^ 64) = x :=
  Int.bmod_eq_of_le (by omega) (by omega)

theorem bmod_eq_iff_of_near {x y : ℤ} (hle : -2 ^ 63 ≤ y) (hlt : y < 2 ^ 63)
    (hbelow : y - 2 ^ 64 < x) (habove : x < y + 2 ^ 64) : x.bmod (2 ^ 64) = y ↔ x = y := by
  constructor
  · intro h
    rw [Int.bmod_def] at h
    omega
  · rintro rfl
    exact bmod_of_bounds hle hlt

theorem tdiv_bmod_eq_iff {x p : ℤ} (hx : 0 ≤ x) (hp : 0 < p) (hlt : p < 2 ^ 63) :
    (x.bmod (2 ^ 64)).tdiv p = x / p ↔ x < 2 ^ 63 := by
  constructor
  · intro h
    by_contra hbig
    have hsmaller : x.bmod (2 ^ 64) ≤ x - 2 ^ 64 := by
      rw [Int.bmod_def]
      omega
    generalize x.bmod (2 ^ 64) = w at h hsmaller
    rcases lt_or_ge w 0 with hneg | hpos
    · have hquotient : 1 ≤ x / p := (Int.le_ediv_iff_mul_le hp).mpr (by omega)
      have hnonneg := Int.tdiv_nonneg (by omega : 0 ≤ -w) hp.le
      rw [Int.neg_tdiv] at hnonneg
      omega
    · have hstep : (w + 1 * p) / p = w / p + 1 := Int.add_mul_ediv_right w 1 hp.ne'
      have hle : (w + 1 * p) / p ≤ x / p := Int.ediv_le_ediv hp (by omega)
      rw [Int.tdiv_eq_ediv_of_nonneg hpos] at h
      omega
  · intro hfits
    rw [bmod_of_bounds (by omega) hfits, Int.tdiv_eq_ediv_of_nonneg hx]

section Wave

variable {g : UsageGen} {elapsed : Int64}

theorem Valid.range_toInt (hg : g.Valid) : (g.max - g.min).toInt = g.max.toInt - g.min.toInt := by
  have hmin := hg.min_nonneg
  have hle := hg.min_le_max
  have hmax := toInt_bounds g.max
  rw [Int64.toInt_sub, bmod_of_bounds (by omega) (by omega)]

/-- The product that `GetUsage` divides, before it is wrapped. -/
def product (g : UsageGen) (elapsed : Int64) : ℤ :=
  elapsed.toInt % g.period.toInt * (g.max.toInt - g.min.toInt)

theorem Valid.product_nonneg (hg : g.Valid) (elapsed : Int64) : 0 ≤ g.product elapsed := by
  have hrange : 0 ≤ g.max.toInt - g.min.toInt := sub_nonneg.mpr hg.min_le_max
  exact mul_nonneg (Int.emod_nonneg _ hg.period_pos.ne') hrange

theorem Valid.offset_bounds (hg : g.Valid) (elapsed : Int64) :
    0 ≤ g.offset elapsed ∧ g.offset elapsed ≤ g.max.toInt - g.min.toInt := by
  have hp := hg.period_pos
  have hrange : 0 ≤ g.max.toInt - g.min.toInt := sub_nonneg.mpr hg.min_le_max
  have hlt := Int.emod_lt_of_pos elapsed.toInt hp
  refine ⟨Int.ediv_nonneg (hg.product_nonneg elapsed) hp.le, ?_⟩
  refine Int.ediv_le_of_le_mul hp ?_
  rw [mul_comm]
  exact mul_le_mul_of_nonneg_left hlt.le hrange

theorem Valid.wave_bounds (hg : g.Valid) (elapsed : Int64) :
    g.min.toInt ≤ g.wave elapsed ∧ g.wave elapsed ≤ g.max.toInt := by
  have hoff := hg.offset_bounds elapsed
  rw [wave]
  split_ifs
  · omega
  · omega

theorem Valid.quotient_toInt (hg : g.Valid) (he : 0 ≤ elapsed.toInt) :
    (elapsed % g.period * (g.max - g.min) / g.period).toInt =
      ((g.product elapsed).bmod (2 ^ 64)).tdiv g.period.toInt := by
  have hproduct : (elapsed % g.period * (g.max - g.min)).toInt =
      (g.product elapsed).bmod (2 ^ 64) := by
    rw [Int64.toInt_mul, Int64.toInt_mod, hg.range_toInt, Int.tmod_eq_emod_of_nonneg he, product]
  have hperiod : g.period ≠ -1 := by
    rintro heq
    have hp := hg.period_pos
    rw [heq] at hp
    exact absurd hp (by decide)
  rw [Int64.toInt_div_of_ne_right _ _ hperiod, hproduct]

theorem Valid.index_odd_iff (hg : g.Valid) (he : 0 ≤ elapsed.toInt) :
    elapsed / g.period % 2 = 1 ↔ ¬ elapsed.toInt / g.period.toInt % 2 = 0 := by
  have hp := hg.period_pos
  have hmin : elapsed ≠ Int64.minValue := by
    rintro rfl
    exact absurd he (by decide)
  have hquotient : 0 ≤ elapsed.toInt / g.period.toInt := Int.ediv_nonneg he hp.le
  have htwo : (2 : Int64).toInt = 2 := by decide
  have hone : (1 : Int64).toInt = 1 := by decide
  rw [← Int64.toInt_inj, Int64.toInt_mod, Int64.toInt_div_of_ne_left _ _ hmin, htwo, hone,
    Int.tdiv_eq_ediv_of_nonneg he, Int.tmod_eq_emod_of_nonneg hquotient]
  omega

theorem Valid.getUsage_eq_wave_iff_quotient (hg : g.Valid) (he : 0 ≤ elapsed.toInt) :
    (g.getUsage elapsed).toInt = g.wave elapsed ↔
      (elapsed % g.period * (g.max - g.min) / g.period).toInt = g.offset elapsed := by
  have hmin := hg.min_nonneg
  have hmax := toInt_bounds g.max
  have hoff := hg.offset_bounds elapsed
  have hrange := hg.range_toInt
  have hodd := hg.index_odd_iff he
  have hu := toInt_bounds (elapsed % g.period * (g.max - g.min) / g.period)
  rw [getUsage, wave]
  generalize elapsed % g.period * (g.max - g.min) / g.period = u at hu
  by_cases heven : elapsed.toInt / g.period.toInt % 2 = 0
  · rw [if_pos heven, if_neg (by rw [hodd]; exact not_not.mpr heven), Int64.toInt_add,
      bmod_eq_iff_of_near (by omega) (by omega) (by omega) (by omega)]
    omega
  · rw [if_neg heven, if_pos (hodd.mpr heven), Int64.toInt_add, Int64.toInt_sub,
      Int.add_bmod_bmod, hrange,
      bmod_eq_iff_of_near (by omega) (by omega) (by omega) (by omega)]
    omega

theorem Valid.onWave_iff (hg : g.Valid) (he : 0 ≤ elapsed.toInt) :
    (g.getUsage elapsed).toInt = g.wave elapsed ↔ g.product elapsed < 2 ^ 63 := by
  rw [hg.getUsage_eq_wave_iff_quotient he, hg.quotient_toInt he]
  exact tdiv_bmod_eq_iff (hg.product_nonneg elapsed) hg.period_pos (toInt_bounds g.period).2

/-- `GetUsage` is on the wave iff the remainder of the period times the range is below `2 ^ 63`. -/
theorem getUsage_eq_wave_iff (hg : g.Valid) (he : 0 ≤ elapsed.toInt) :
    (g.getUsage elapsed).toInt = g.wave elapsed ↔
      elapsed.toInt % g.period.toInt * (g.max.toInt - g.min.toInt) < 2 ^ 63 :=
  hg.onWave_iff he

def gigabit : UsageGen := { min := 0, max := 1000000000, period := 60000000000 }

/-- Ten seconds into the period, where the wave is at a sixth of the range, the usage is
negative. -/
theorem getUsage_gigabit :
    (gigabit.getUsage 10000000000).toInt = -140779067 ∧ gigabit.wave 10000000000 = 166666666 := by
  decide

theorem getUsage_eq_wave_iff_gigabit :
    (gigabit.getUsage 9000000000).toInt = gigabit.wave 9000000000 :=
  (getUsage_eq_wave_iff ⟨by decide, by decide, by decide⟩ (by decide)).mpr (by decide)

theorem Valid.forall_onWave_iff (hg : g.Valid) :
    (∀ elapsed : Int64, 0 ≤ elapsed.toInt → (g.getUsage elapsed).toInt = g.wave elapsed) ↔
      (g.period.toInt - 1) * (g.max.toInt - g.min.toInt) < 2 ^ 63 := by
  have hp := hg.period_pos
  have hperiod := toInt_bounds g.period
  have hrange : 0 ≤ g.max.toInt - g.min.toInt := sub_nonneg.mpr hg.min_le_max
  constructor
  · intro h
    have hend : (Int64.ofInt (g.period.toInt - 1)).toInt = g.period.toInt - 1 := by
      rw [Int64.toInt_ofInt]
      exact bmod_of_bounds (by omega) (by omega)
    have hfits := (hg.onWave_iff (by omega)).mp (h (Int64.ofInt (g.period.toInt - 1)) (by omega))
    rw [product, hend, Int.emod_eq_of_lt (by omega) (by omega)] at hfits
    exact hfits
  · intro h elapsed he
    have hlt := Int.emod_lt_of_pos elapsed.toInt hp
    refine (hg.onWave_iff he).mpr (lt_of_le_of_lt ?_ h)
    exact mul_le_mul_of_nonneg_right (by omega) hrange

end Wave

end UsageGen
end HostAgentSim
end HeypAgents
