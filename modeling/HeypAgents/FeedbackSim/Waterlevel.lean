import HeypAgents.Alg.MaxMinFairnessDistFullSort
import HeypAgents.Lib.Rounding

/-!
# The waterlevels of the simulator

`MaxMinFairWaterlevel` shares a capacity among demands, and `MaxMinFairWaterlevelDist`
among entries that stand for several equal demands.  Both sort their input and raise the
level step by step.  The level is the fair one, so that it does not depend on how equal
demands are grouped into entries.

The operations round as `fp` says, by default not at all.  `sort.Slice` leaves the order of
entries with equal values open, as `std::sort` does.
-/

namespace HeypAgents
namespace FeedbackSim

open WeightedFilling MaxMinFairnessDist

def raiseWaterlevel (waterlevel capacity : ℚ) (entries : List (ℚ × ℚ))
    (fp : Rounding := .ideal) : ℚ :=
  match entries with
  | [] => waterlevel
  | (val, unsatisfied) :: rest =>
    let delta := fp.round (val - waterlevel)
    let ask := fp.round (delta * unsatisfied)
    if ask ≤ capacity then
      raiseWaterlevel (fp.round (waterlevel + delta)) (fp.round (capacity - ask)) rest fp
    else
      fp.round (waterlevel + fp.round (capacity / unsatisfied))

def maxMinFairWaterlevel (capacity : ℚ) (demands : List ℚ) (fp : Rounding := .ideal) : ℚ :=
  let unsatisfied := demands.insertionSort (· ≤ ·)
  raiseWaterlevel 0 capacity
    (unsatisfied.zipIdx.map fun (d, i) => (d, fp.round ((unsatisfied.length - i : ℕ) : ℚ))) fp

def remainingCounts (demands : List ValCount) : List ℚ :=
  (demands.foldr (fun d acc => (acc.1 + d.expectedCount, (acc.1 + d.expectedCount) :: acc.2))
    (0, [])).2

def maxMinFairWaterlevelDist (sort : StdSort) (capacity : ℚ) (demands : List ValCount) : ℚ :=
  let demands := sort.run demands
  raiseWaterlevel 0 capacity ((demands.map ValCount.val).zip (remainingCounts demands))

theorem total_one (pending : List ℚ) : total (fun _ => (1 : ℚ)) pending = pending.length := by
  simp [total]

theorem raiseWaterlevel_zipIdx (waterlevel capacity : ℚ) (pending : List ℚ) (k : ℕ) {n : ℕ}
    (hn : n = k + pending.length) :
    raiseWaterlevel waterlevel capacity
        ((pending.zipIdx k).map fun (d, i) => (d, Rounding.ideal.round ((n - i : ℕ) : ℚ))) =
      Filling.fill id (fun _ => 1) capacity waterlevel pending := by
  induction pending generalizing waterlevel capacity k with
  | nil => rfl
  | cons d rest ih =>
    have hcount : ((n - k : ℕ) : ℚ) = total (fun _ => (1 : ℚ)) (d :: rest) := by
      rw [total_one, hn, Nat.add_sub_cancel_left]
    rw [List.zipIdx_cons, List.map_cons, raiseWaterlevel, Filling.fill, ← hcount]
    simp only [Rounding.ideal_round, add_sub_cancel, id_eq] at ih ⊢
    rw [ih _ _ (k + 1) (by rw [hn, List.length_cons]; omega)]

theorem raiseWaterlevel_remainingCounts (waterlevel capacity : ℚ) (pending : List ValCount) :
    raiseWaterlevel waterlevel capacity ((pending.map ValCount.val).zip (remainingCounts pending)) =
      Filling.fill ValCount.val ValCount.expectedCount capacity waterlevel pending := by
  induction pending generalizing waterlevel capacity with
  | nil => rfl
  | cons d rest ih =>
    have hcounts : remainingCounts (d :: rest) =
        total ValCount.expectedCount (d :: rest) :: remainingCounts rest := by
      rw [total_cons, ← expectedGeCount_fst, add_comm]
      rfl
    rw [hcounts, List.map_cons, List.zip_cons_cons, raiseWaterlevel, Filling.fill]
    simp only [Rounding.ideal_round, add_sub_cancel, ih]

/-- Rounding does not make a level negative: a level is added to, or reset to a demand. -/
theorem raiseWaterlevel_nonneg (fp : Rounding) {waterlevel capacity : ℚ}
    {entries : List (ℚ × ℚ)} (hmem : waterlevel ∈ fp.values) (hlevel : 0 ≤ waterlevel)
    (hcapacity : 0 ≤ capacity) (hentries : ∀ e ∈ entries, 0 ≤ e.1 ∧ 0 ≤ e.2) :
    0 ≤ raiseWaterlevel waterlevel capacity entries fp := by
  induction entries generalizing waterlevel capacity with
  | nil => exact hlevel
  | cons e rest ih =>
    obtain ⟨hval, hcount⟩ := hentries e List.mem_cons_self
    rw [raiseWaterlevel]
    split_ifs with hask
    · exact ih (fp.round_mem _) (fp.round_nonneg (fp.add_round_sub_nonneg hmem hval))
        (fp.round_nonneg (sub_nonneg.mpr hask)) fun e' he' => hentries e' (List.mem_cons_of_mem _ he')
    · exact fp.round_nonneg (add_nonneg hlevel (fp.round_nonneg (div_nonneg hcapacity hcount)))

theorem maxMinFairWaterlevel_nonneg (fp : Rounding) {capacity : ℚ} {demands : List ℚ}
    (hcapacity : 0 ≤ capacity) (hdemands : ∀ d ∈ demands, 0 ≤ d) :
    0 ≤ maxMinFairWaterlevel capacity demands fp := by
  refine raiseWaterlevel_nonneg fp fp.zero_mem le_rfl hcapacity fun e he => ?_
  obtain ⟨x, hx, rfl⟩ := List.mem_map.mp he
  refine ⟨hdemands _ ?_, fp.round_nonneg (Nat.cast_nonneg _)⟩
  exact (List.perm_insertionSort _ demands).mem_iff.mp (List.fst_mem_of_mem_zipIdx hx)

section FairLevel

variable {capacity : ℚ} {demands : List ℚ} {groups : List ValCount}

/-- The level of demands is the fair one. -/
theorem maxMinFairWaterlevel_isLevel (hcapacity : 0 ≤ capacity) (hdemands : ∀ d ∈ demands, 0 ≤ d) :
    IsLevel id (fun _ => 1) capacity demands (maxMinFairWaterlevel capacity demands) := by
  have hfilling : Filling id (fun _ => 1) capacity demands [] demands 0 capacity :=
    Filling.start hcapacity hdemands fun _ _ => one_pos
  rw [maxMinFairWaterlevel, raiseWaterlevel_zipIdx _ _ _ 0 (Nat.zero_add _).symm]
  exact (hfilling.reorder (List.perm_insertionSort _ demands)).fill_isLevel
    (List.pairwise_insertionSort _ demands)

/-- The level of entries is the fair one. -/
theorem maxMinFairWaterlevelDist_isLevel (sort : StdSort) (hcapacity : 0 ≤ capacity)
    (hgroups : ∀ g ∈ groups, 0 ≤ g.val ∧ 0 < g.expectedCount) :
    IsLevel ValCount.val ValCount.expectedCount capacity groups
      (maxMinFairWaterlevelDist sort capacity groups) := by
  have hfilling : Filling ValCount.val ValCount.expectedCount capacity groups [] groups 0
      capacity :=
    Filling.start hcapacity (fun g hg => (hgroups g hg).1) fun g hg => (hgroups g hg).2
  rw [maxMinFairWaterlevelDist, raiseWaterlevel_remainingCounts]
  exact (hfilling.reorder (sort.perm groups)).fill_isLevel (sort.sorted groups)

end FairLevel

section Grouping

def Stands (part : List ℚ) (g : ValCount) : Prop :=
  part ≠ [] ∧ (∀ d ∈ part, d = g.val) ∧ g.expectedCount = part.length

def IsGrouping (demands : List ℚ) (groups : List ValCount) : Prop :=
  ∃ parts : List (List ℚ), parts.flatten.Perm demands ∧ List.Forall₂ Stands parts groups

variable {capacity w : ℚ} {demands : List ℚ} {groups : List ValCount} {part : List ℚ} {g : ValCount}

theorem Stands.eq_replicate (h : Stands part g) :
    part = List.replicate part.length g.val :=
  List.eq_replicate_of_mem h.2.1

theorem Stands.served_eq (h : Stands part g) (x : ℚ) :
    served id (fun _ => 1) part x = g.expectedCount * min g.val x := by
  rw [h.eq_replicate, h.2.2]
  simp [served]

theorem Stands.volume_eq (h : Stands part g) :
    volume id (fun _ => 1) part = g.expectedCount * g.val := by
  rw [h.eq_replicate, h.2.2]
  simp [volume]

variable {parts : List (List ℚ)}

theorem served_flatten (h : List.Forall₂ Stands parts groups) (x : ℚ) :
    served id (fun _ => 1) parts.flatten x =
      served ValCount.val ValCount.expectedCount groups x := by
  induction h with
  | nil => rfl
  | @cons part g parts groups hpart hparts ih =>
    rw [List.flatten_cons, served_append, hpart.served_eq, ih]
    simp [served]

theorem volume_flatten (h : List.Forall₂ Stands parts groups) :
    volume id (fun _ => 1) parts.flatten = volume ValCount.val ValCount.expectedCount groups := by
  induction h with
  | nil => rfl
  | @cons part g parts groups hpart hparts ih =>
    rw [List.flatten_cons, volume_append, hpart.volume_eq, ih, volume_cons]

theorem mem_flatten_iff (h : List.Forall₂ Stands parts groups) (d : ℚ) :
    d ∈ parts.flatten ↔ ∃ g ∈ groups, g.val = d := by
  induction h with
  | nil => simp
  | @cons part g parts groups hpart hparts ih =>
    have hmem : d ∈ part ↔ g.val = d := by
      rw [hpart.eq_replicate, List.mem_replicate]
      simp [hpart.1, eq_comm]
    rw [List.flatten_cons, List.mem_append, hmem, ih, List.exists_mem_cons_iff]

theorem IsGrouping.mem_iff (h : IsGrouping demands groups) (d : ℚ) :
    d ∈ demands ↔ ∃ g ∈ groups, g.val = d := by
  obtain ⟨parts, hperm, hparts⟩ := h
  rw [← hperm.mem_iff, mem_flatten_iff hparts]

theorem IsGrouping.count_pos (h : IsGrouping demands groups) :
    ∀ g ∈ groups, 0 < g.expectedCount := by
  obtain ⟨parts, -, hparts⟩ := h
  induction hparts with
  | nil => simp
  | cons hpart hparts ih =>
    intro g hg
    rcases List.mem_cons.mp hg with rfl | hg
    · rw [hpart.2.2]
      exact_mod_cast List.length_pos_iff.mpr hpart.1
    · exact ih g hg

theorem IsGrouping.isLevel (h : IsGrouping demands groups)
    (hlevel : IsLevel ValCount.val ValCount.expectedCount capacity groups w) :
    IsLevel id (fun _ => 1) capacity demands w := by
  have hmem := h.mem_iff
  obtain ⟨parts, hperm, hparts⟩ := h
  have hvolume : volume id (fun _ => 1) demands =
      volume ValCount.val ValCount.expectedCount groups := by
    rw [← volume_perm hperm, volume_flatten hparts]
  refine ⟨?_, fun hcovered => ?_⟩
  · rw [← served_perm hperm, served_flatten hparts, hlevel.served_eq, hvolume]
  · obtain ⟨hle, hmax⟩ := hlevel.covered (by rwa [← hvolume])
    refine ⟨fun d hd => ?_, fun hne => ?_⟩
    · obtain ⟨g, hg, rfl⟩ := (hmem d).mp hd
      exact hle g hg
    · obtain ⟨d, hd⟩ := List.exists_mem_of_ne_nil demands hne
      obtain ⟨g, hg, -⟩ := (hmem d).mp hd
      obtain ⟨g', hg', rfl⟩ := hmax (List.ne_nil_of_mem hg)
      exact ⟨g'.val, (hmem _).mpr ⟨g', hg', rfl⟩, rfl⟩

/-- The level of entries is that of the demands they stand for. -/
theorem maxMinFairWaterlevelDist_eq (sort : StdSort) (hcapacity : 0 ≤ capacity)
    (hdemands : ∀ d ∈ demands, 0 ≤ d) (hgrouping : IsGrouping demands groups) :
    maxMinFairWaterlevelDist sort capacity groups = maxMinFairWaterlevel capacity demands := by
  have hgroups : ∀ g ∈ groups, 0 ≤ g.val ∧ 0 < g.expectedCount := fun g hg =>
    ⟨hdemands g.val ((hgrouping.mem_iff _).mpr ⟨g, hg, rfl⟩), hgrouping.count_pos g hg⟩
  have hdist := hgrouping.isLevel (maxMinFairWaterlevelDist_isLevel sort hcapacity hgroups)
  by_cases hne : demands = []
  · subst hne
    obtain rfl : groups = [] := List.eq_nil_iff_forall_not_mem.mpr fun g hg =>
      absurd ((hgrouping.mem_iff _).mpr ⟨g, hg, rfl⟩) List.not_mem_nil
    have hrun : sort.run [] = [] := List.perm_nil.mp (sort.perm [])
    rw [maxMinFairWaterlevelDist, hrun]
    rfl
  · exact hdist.unique (fun _ _ => one_pos) hne (maxMinFairWaterlevel_isLevel hcapacity hdemands)

/-- Three demands of 2 in two entries, and one of 5. -/
theorem maxMinFairWaterlevelDist_eq_split_group :
    IsGrouping [2, 5, 2, 2] [⟨2, 1⟩, ⟨5, 1⟩, ⟨2, 2⟩] ∧
      maxMinFairWaterlevelDist .stable 9 [⟨2, 1⟩, ⟨5, 1⟩, ⟨2, 2⟩] =
        maxMinFairWaterlevel 9 [2, 5, 2, 2] := by
  have hgrouping : IsGrouping [2, 5, 2, 2] [⟨2, 1⟩, ⟨5, 1⟩, ⟨2, 2⟩] :=
    ⟨[[2], [5], [2, 2]], .refl _, by simp [Stands]⟩
  exact ⟨hgrouping, maxMinFairWaterlevelDist_eq .stable (by norm_num) (by norm_num) hgrouping⟩

end Grouping

end FeedbackSim
end HeypAgents
