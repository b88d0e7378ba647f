import HeypAgents.Alg.HashRingFifo

/-!
# The hashing downgrade selector

`HashingDowngradeSelector` of `impl-hashing.cc`: the LOPRI children are those whose
ids a hash ring matches, and a change of the fraction is reported as ranges of ids.  In
whole chunks the reported ids are exactly those whose class changes.
-/

namespace HeypAgents

structure DowngradeDiff where
  toDowngrade : UnorderedIds := {}
  toUpgrade : UnorderedIds := {}
deriving DecidableEq, Repr

def UnorderedIds.Selects (ids : UnorderedIds) (id : ℕ) : Prop :=
  (∃ range ∈ ids.ranges, range.contains id = true) ∨ id ∈ ids.points

structure HashingDowngradeSelector where
  lopri : HashRing := {}
deriving DecidableEq, Repr

namespace HashingDowngradeSelector

def isLopri (s : HashingDowngradeSelector) (childId : UInt64) : Bool :=
  s.lopri.matchingRanges.contains childId.toNat

/-- The ranges that are not empty. -/
def nonEmptyRanges (r : RingRanges) : List IdRange :=
  (if r.a.empty then [] else [r.a]) ++ (if r.b.empty then [] else [r.b])

def pickChildren (s : HashingDowngradeSelector) (wantFracLopri : ℚ) :
    HashingDowngradeSelector × DowngradeDiff :=
  let (lopri, d) := s.lopri.updateFrac wantFracLopri
  let ids : UnorderedIds := { ranges := nonEmptyRanges d.diff }
  (⟨lopri⟩,
    match d.type with
    | .kAdd => { toDowngrade := ids }
    | .kDel => { toUpgrade := ids })

end HashingDowngradeSelector

section Exactness

open HashRing

theorem HashRing.movesCleanly_of_isChunks
    {ring : HashRing} {new : ℚ} (hring : IsChunks ring.frac) (hw : ring.WellFormed)
    (hnew : IsChunks new) (h0 : 0 ≤ new) (h1 : new ≤ 1) : ring.MovesCleanly new := by
  have hzero : ∀ {x : ℚ}, IsChunks x → 0 ≤ x → x ≤ 1 → ¬ ZeroChunks x := by
    rintro x hx hx0 hx1 ⟨hne, hfrac⟩
    have hcast := fracToRing_cast_of_isChunks hx hx1
    rw [hfrac, Nat.cast_zero] at hcast
    exact hne (by linarith)
  constructor
  · intro hlt
    refine ⟨fun h => hzero hring hw.frac_nonneg hw.frac_le_one h.1, fun h => ?_⟩
    exact (fracToRing_lt_of_isChunks hring hnew hlt h1).ne h.1
  · intro hlt
    have hless := fracToRing_lt_of_isChunks hnew hring hlt hw.frac_le_one
    have hsub := fracToRing_sub_of_isChunks hnew hring hlt.le hw.frac_le_one
    rw [ShrinksCleanly, if_neg (by omega)]
    exact ⟨by omega, fun h => hzero hnew h0 h1 h.1⟩

namespace HashingDowngradeSelector

/-- The ring has only been set to whole chunks. -/
structure Aligned (s : HashingDowngradeSelector) : Prop where
  wellFormed : s.lopri.WellFormed
  chunks : IsChunks s.lopri.frac

theorem aligned_default : Aligned {} where
  wellFormed := wellFormed_default
  chunks := ⟨0, by norm_num⟩

variable {s : HashingDowngradeSelector} {f : ℚ}

theorem Aligned.pickChildren (h : s.Aligned) (hf : IsChunks (clampFrac f)) :
    (s.pickChildren f).1.Aligned where
  wellFormed := wellFormed_updateFrac h.wellFormed f
  chunks := hf

theorem contains_nonEmptyRanges (r : RingRanges) (id : ℕ) :
    (∃ range ∈ nonEmptyRanges r, range.contains id = true) ↔ r.contains id = true := by
  have hmem : ∀ range : IdRange,
      (∃ x ∈ (if range.empty then [] else [range]), x.contains id = true) ↔
        range.contains id = true := by
    intro range
    cases hempty : range.empty with
    | true => simp [IdRange.contains_eq_false_of_empty hempty]
    | false => simp
  rw [nonEmptyRanges, RingRanges.contains, Bool.or_eq_true, ← hmem r.a, ← hmem r.b]
  simp only [List.mem_append]
  constructor
  · rintro ⟨x, hx | hx, hid⟩
    · exact .inl ⟨x, hx, hid⟩
    · exact .inr ⟨x, hx, hid⟩
  · rintro (⟨x, hx, hid⟩ | ⟨x, hx, hid⟩)
    · exact ⟨x, .inl hx, hid⟩
    · exact ⟨x, .inr hx, hid⟩

theorem Aligned.pickChildren_exact
    (h : s.Aligned) (hf : IsChunks (clampFrac f)) (childId : UInt64) :
    ((s.pickChildren f).2.toDowngrade.Selects childId.toNat ↔
        (s.pickChildren f).1.isLopri childId = true ∧ s.isLopri childId = false) ∧
      ((s.pickChildren f).2.toUpgrade.Selects childId.toNat ↔
        s.isLopri childId = true ∧ (s.pickChildren f).1.isLopri childId = false) := by
  have hexact := (exactDiff_updateFrac_iff h.wellFormed f).mpr
    (movesCleanly_of_isChunks h.chunks h.wellFormed hf (clampFrac_nonneg f) (clampFrac_le_one f))
    childId.toNat childId.toNat_lt
  have hpick : s.pickChildren f = (⟨(s.lopri.updateFrac f).1⟩,
      match (s.lopri.updateFrac f).2.type with
      | .kAdd => { toDowngrade := { ranges := nonEmptyRanges (s.lopri.updateFrac f).2.diff } }
      | .kDel => { toUpgrade := { ranges := nonEmptyRanges (s.lopri.updateFrac f).2.diff } }) :=
    rfl
  have hlopri : ∀ t : HashingDowngradeSelector,
      t.isLopri childId = true ↔ t.lopri.Matches childId.toNat := fun _ => Iff.rfl
  have hnotLopri : ∀ t : HashingDowngradeSelector,
      t.isLopri childId = false ↔ ¬ t.lopri.Matches childId.toNat := by
    intro t
    rw [← hlopri, Bool.not_eq_true]
  rw [hlopri, hlopri, hnotLopri, hnotLopri, hpick]
  cases htype : (s.lopri.updateFrac f).2.type with
  | kAdd =>
    rw [htype] at hexact
    obtain ⟨hreports, hmono⟩ := hexact
    refine ⟨?_, ?_⟩
    · rw [← hreports]
      simpa [UnorderedIds.Selects, RangeDiff.Reports] using contains_nonEmptyRanges _ _
    · simpa [UnorderedIds.Selects] using hmono
  | kDel =>
    rw [htype] at hexact
    obtain ⟨hreports, hmono⟩ := hexact
    refine ⟨?_, ?_⟩
    · simpa [UnorderedIds.Selects] using hmono
    · rw [← hreports]
      simpa [UnorderedIds.Selects, RangeDiff.Reports] using contains_nonEmptyRanges _ _

end HashingDowngradeSelector

end Exactness

end HeypAgents
