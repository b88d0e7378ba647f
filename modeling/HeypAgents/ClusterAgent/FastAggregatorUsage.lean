import HeypAgents.ClusterAgent.FastAggregatorSnapshot

/-!
# The usage estimates of a snapshot

The usages of an aggregate's hosts are weighted by the sampler, summed per shard and
per class, truncated, and summed over the shards.  The result is well defined exactly
when no report is idle, no threshold has underflowed, and the total of the truncated
estimates fits into `int64_t`.  This holds for every way to round doubles.
-/

namespace HeypAgents
namespace FastAggregator

variable {n : ℕ}

section Estimates

variable (c : Config n) (sel : Fin n → HashingDowngradeSelector)

def samples (infos : List (Info n)) (i : Fin n) (isLopri : Bool) : List ℚ :=
  ((infos.filter fun x => x.aggId = i).filter
    fun x => (sel i).isLopri x.childId = isLopri).map fun x => c.fp.round x.volumeBps

theorem foldl_record
    (fp : Rounding) (xs : List (Info n)) (s : HashingDowngradeSelector) (e : PrioEstimators) :
    (xs.foldl (fun e x => e.record fp (s.isLopri x.childId) x.volumeBps) e).hipri =
        ((xs.filter fun x => s.isLopri x.childId = false).map
          fun x => fp.round x.volumeBps).foldl (fun e usage => e.recordSample usage fp) e.hipri ∧
      (xs.foldl (fun e x => e.record fp (s.isLopri x.childId) x.volumeBps) e).lopri =
        ((xs.filter fun x => s.isLopri x.childId = true).map
          fun x => fp.round x.volumeBps).foldl (fun e usage => e.recordSample usage fp) e.lopri := by
  induction xs generalizing e with
  | nil => simp
  | cons x xs ih =>
    rw [List.foldl_cons, (ih _).1, (ih _).2]
    cases hx : s.isLopri x.childId with
    | false => simp [PrioEstimators.record, hx]
    | true => simp [PrioEstimators.record, hx]

def PrioEstimators.ofClass (e : PrioEstimators) (isLopri : Bool) :
    ThresholdSampler.AggUsageEstimator :=
  if isLopri then e.lopri else e.hipri

theorem aggregate_est_eq_some_iff (shard : InfoShard n) (i : Fin n) (isLopri : Bool) (x : ℚ) :
    (((aggregate c sel shard).volumeBps i).ofClass isLopri).est = some x ↔
      (∀ u ∈ samples c sel shard.infos i isLopri,
        ThresholdSampler.thresholdSamplingProbOf
          (c.samplers i).approval (c.samplers i).thresh u c.fp ≠ 0) ∧
      (c.samplers i).estimate (samples c sel shard.infos i isLopri) c.fp = x := by
  have hvolume : (aggregate c sel shard).volumeBps i =
      (shard.infos.filter fun x => x.aggId = i).foldl
        (fun e x => e.record c.fp ((sel i).isLopri x.childId) x.volumeBps)
        ((emptyPart c).volumeBps i) := by
    rw [aggregate, foldl_addGen]
    exact (foldl_addInfo c sel i _ _).2
  have hrecord := foldl_record c.fp (shard.infos.filter fun x => x.aggId = i) (sel i)
    ((emptyPart c).volumeBps i)
  rw [← ThresholdSampler.est_eq_some_iff]
  cases isLopri with
  | false =>
    rw [PrioEstimators.ofClass, if_neg (by simp), hvolume, hrecord.1]
    rfl
  | true =>
    rw [PrioEstimators.ofClass, if_pos rfl, hvolume, hrecord.2]
    rfl

end Estimates

theorem foldl_addInt64 (xs : List ℤ) (x : ℤ) :
    (xs.foldl addInt64 x).bmod (2 ^ 64) = (x + xs.sum).bmod (2 ^ 64) := by
  induction xs generalizing x with
  | nil => simp
  | cons y xs ih => rw [List.foldl_cons, ih, addInt64, Int.bmod_add_bmod, List.sum_cons, add_assoc]

theorem foldl_addInt64_bounds {x : ℤ} (hx : -2 ^ 63 ≤ x ∧ x < 2 ^ 63) (xs : List ℤ) :
    -2 ^ 63 ≤ xs.foldl addInt64 x ∧ xs.foldl addInt64 x < 2 ^ 63 := by
  induction xs generalizing x with
  | nil => exact hx
  | cons y xs ih =>
    refine ih ?_
    have hle := Int.le_bmod (x := x + y) (m := 2 ^ 64) (by decide)
    have hlt := Int.bmod_lt (x := x + y) (m := 2 ^ 64) (by decide)
    rw [addInt64]
    omega

theorem foldl_addInt64_eq_sum
    {m : ℕ} {f : Fin m → ℤ} (hle : 0 ≤ ∑ s, f s) (hlt : ∑ s, f s < 2 ^ 63) :
    ((List.finRange m).map f).foldl addInt64 0 = ∑ s, f s := by
  rw [Fin.sum_univ_def] at hle hlt ⊢
  obtain ⟨hle', hlt'⟩ := foldl_addInt64_bounds (x := 0) (by decide) ((List.finRange m).map f)
  rw [← bmod_eq_self hle' hlt', foldl_addInt64, zero_add, bmod_eq_self (by omega) hlt]

theorem foldl_add_sums {ι : Type} (f : ι → PrioEstimators) (xs : List ι) (sums : UsageSums) :
    xs.foldl (fun sums x => sums.add (f x)) sums =
      { hipri := (xs.map fun x => toInt64 (f x).hipri.estUsage).foldl addInt64 sums.hipri
        lopri := (xs.map fun x => toInt64 (f x).lopri.estUsage).foldl addInt64 sums.lopri
        total := (xs.map fun x => addInt64 (toInt64 (f x).hipri.estUsage)
          (toInt64 (f x).lopri.estUsage)).foldl addInt64 sums.total } := by
  induction xs generalizing sums with
  | nil => rfl
  | cons x xs ih => exact ih (sums.add (f x))

section WellDefined

/-- The estimate of a class, truncated. -/
def truncatedEst (e : PrioEstimators) (isLopri : Bool) : ℤ :=
  truncInt ((e.ofClass isLopri).est.getD 0)

/--
No estimator has divided by zero, the usage of every parent is the sum of the truncated
estimates, and it is the sum of its two classes and not negative.
-/
structure WellDefined (parts : Fin kNumInfoShards → Part n) (result : Fin n → FastAggInfo) :
    Prop where
  finite : ∀ s i isLopri, (((parts s).volumeBps i).ofClass isLopri).est.isSome
  usage : ∀ i, (result i).parent.ewmaUsageBps =
    ∑ s, (truncatedEst ((parts s).volumeBps i) false + truncatedEst ((parts s).volumeBps i) true)
  split : ∀ i, (result i).parent.ewmaUsageBps =
    (result i).parent.ewmaHipriUsageBps + (result i).parent.ewmaLopriUsageBps
  nonneg : ∀ i, 0 ≤ (result i).parent.ewmaUsageBps

variable (c : Config n) (sel : Fin n → HashingDowngradeSelector)

def reported (updates : List InfoBundle) (s : Fin kNumInfoShards) : List (Info n) :=
  (inShard updates s).flatMap c.got

/-- The estimate of a shard for one class of an aggregate, as it is rounded. -/
def expectedUsage (infos : List (Info n)) (i : Fin n) (isLopri : Bool) : ℚ :=
  (c.samplers i).estimate (samples c sel infos i isLopri) c.fp

/-- The truncated estimates of all shards. -/
def idealUsage (updates : List InfoBundle) (i : Fin n) (isLopri : Bool) : ℤ :=
  ∑ s, truncInt (expectedUsage c sel (reported c updates s) i isLopri)

variable {c sel}

theorem mem_samples_iff {infos : List (Info n)} {i : Fin n} {isLopri : Bool} {u : ℚ} :
    u ∈ samples c sel infos i isLopri ↔
      ∃ x ∈ infos, x.aggId = i ∧ (sel i).isLopri x.childId = isLopri ∧
        c.fp.round x.volumeBps = u := by
  simp only [samples, List.mem_map, List.mem_filter, decide_eq_true_eq]
  constructor
  · rintro ⟨x, ⟨⟨hx, hi⟩, hclass⟩, hu⟩
    exact ⟨x, hx, hi, hclass, hu⟩
  · rintro ⟨x, hx, hi, hclass, hu⟩
    exact ⟨x, ⟨⟨hx, hi⟩, hclass⟩, hu⟩

theorem forall_reported_iff {updates : List InfoBundle} {P : Info n → Prop} :
    (∀ s, ∀ x ∈ reported c updates s, P x) ↔ ∀ u ∈ updates, ∀ x ∈ c.got u, P x := by
  simp only [reported, inShard, List.mem_flatMap, List.mem_filter, decide_eq_true_eq]
  constructor
  · intro hall u hu x hx
    exact hall (shardOf u) x ⟨u, ⟨hu, rfl⟩, hx⟩
  · rintro hall s x ⟨u, ⟨hu, -⟩, hx⟩
    exact hall u hu x hx

/-- What the samplers of a configuration are created with. -/
structure Sampled (c : Config n) : Prop where
  approval_pos : ∀ i, 0 < (c.samplers i).approval
  thresh_nonneg : ∀ i, 0 ≤ (c.samplers i).thresh
  thresh_mem : ∀ i, (c.samplers i).thresh ∈ c.fp.values

theorem Sampled.of_create {num : ℚ} {approval : Fin n → ℚ}
    (hnum : 0 < num) (happroval : ∀ i, 0 < approval i)
    (hsamplers : ∀ i, c.samplers i = .create num (approval i) c.fp) :
    Sampled c where
  approval_pos i := by
    rw [hsamplers]
    exact happroval i
  thresh_nonneg i := by
    rw [hsamplers]
    exact c.fp.round_nonneg (div_pos hnum (happroval i)).le
  thresh_mem i := by
    rw [hsamplers]
    exact c.fp.round_mem _

/-- The report does not make its estimator divide by zero. -/
def Countable (c : Config n) (x : Info n) : Prop :=
  0 < x.volumeBps ∧ 0 < (c.samplers x.aggId).thresh
deriving Decidable

theorem Sampled.prob_ne_zero_iff (h : Sampled c) {x : Info n} (hx : 0 ≤ x.volumeBps) :
    ThresholdSampler.thresholdSamplingProbOf (c.samplers x.aggId).approval
        (c.samplers x.aggId).thresh (c.fp.round x.volumeBps) c.fp ≠ 0 ↔ Countable c x :=
  ThresholdSampler.thresholdSamplingProbOf_ne_zero_iff (h.approval_pos _) (h.thresh_nonneg _)
    (h.thresh_mem _) hx

/-- The estimators of a shard are finite exactly if all its reports can be counted. -/
theorem Sampled.finite_iff (h : Sampled c) {shard : InfoShard n}
    (hnonneg : ∀ x ∈ shard.infos, 0 ≤ x.volumeBps) :
    (∀ i isLopri, (((aggregate c sel shard).volumeBps i).ofClass isLopri).est.isSome) ↔
      ∀ x ∈ shard.infos, Countable c x := by
  constructor
  · intro hfinite x hx
    obtain ⟨y, hy⟩ :=
      Option.isSome_iff_exists.mp (hfinite x.aggId ((sel x.aggId).isLopri x.childId))
    obtain ⟨hprob, -⟩ := (aggregate_est_eq_some_iff c sel shard _ _ y).mp hy
    exact (h.prob_ne_zero_iff (hnonneg x hx)).mp
      (hprob _ (mem_samples_iff.mpr ⟨x, hx, rfl, rfl, rfl⟩))
  · intro hcount i isLopri
    refine Option.isSome_iff_exists.mpr ⟨_,
      (aggregate_est_eq_some_iff c sel shard i isLopri _).mpr ⟨fun u hu => ?_, rfl⟩⟩
    obtain ⟨x, hx, rfl, -, rfl⟩ := mem_samples_iff.mp hu
    exact (h.prob_ne_zero_iff (hnonneg x hx)).mpr (hcount x hx)

theorem est_eq_of_isSome {shard : InfoShard n} {i : Fin n} {isLopri : Bool}
    (h : (((aggregate c sel shard).volumeBps i).ofClass isLopri).est.isSome) :
    (((aggregate c sel shard).volumeBps i).ofClass isLopri).est =
      some (expectedUsage c sel shard.infos i isLopri) := by
  obtain ⟨x, hx⟩ := Option.isSome_iff_exists.mp h
  obtain ⟨-, rfl⟩ := (aggregate_est_eq_some_iff c sel shard i isLopri x).mp hx
  exact hx

theorem Sampled.expectedUsage_nonneg (h : Sampled c) {infos : List (Info n)}
    (hnonneg : ∀ x ∈ infos, 0 ≤ x.volumeBps) (i : Fin n) (isLopri : Bool) :
    0 ≤ expectedUsage c sel infos i isLopri := by
  refine ThresholdSampler.estimate_nonneg (h.thresh_nonneg i) fun u hu => ?_
  obtain ⟨x, hx, -, -, rfl⟩ := mem_samples_iff.mp hu
  exact c.fp.round_nonneg (by exact_mod_cast hnonneg x hx)

theorem combine_usages (parts : Fin kNumInfoShards → Part n) (i : Fin n) :
    let hipri := fun s => toInt64 (((parts s).volumeBps i).ofClass false).est
    let lopri := fun s => toInt64 (((parts s).volumeBps i).ofClass true).est
    let shards := List.finRange kNumInfoShards
    (combine c parts i).parent.ewmaUsageBps =
        (shards.map fun s => addInt64 (hipri s) (lopri s)).foldl addInt64 0 ∧
      (combine c parts i).parent.ewmaHipriUsageBps = (shards.map hipri).foldl addInt64 0 ∧
      (combine c parts i).parent.ewmaLopriUsageBps = (shards.map lopri).foldl addInt64 0 := by
  have h := foldl_add_sums (fun s => (parts s).volumeBps i) (List.finRange kNumInfoShards) {}
  exact ⟨congrArg UsageSums.total h, congrArg UsageSums.hipri h, congrArg UsageSums.lopri h⟩

theorem toInt64_some {q : ℚ} (hle : -2 ^ 63 ≤ truncInt q) (hlt : truncInt q < 2 ^ 63) :
    toInt64 (some q) = truncInt q :=
  if_pos ⟨hle, hlt⟩

theorem combine_usages_of_lt {parts : Fin kNumInfoShards → Part n} {i : Fin n}
    (est : Fin kNumInfoShards → Bool → ℚ)
    (hest : ∀ s isLopri, (((parts s).volumeBps i).ofClass isLopri).est = some (est s isLopri))
    (hnonneg : ∀ s isLopri, 0 ≤ est s isLopri)
    (hlt : ∑ s, truncInt (est s false) + ∑ s, truncInt (est s true) < 2 ^ 63) :
    (combine c parts i).parent.ewmaUsageBps =
        ∑ s, truncInt (est s false) + ∑ s, truncInt (est s true) ∧
      (combine c parts i).parent.ewmaHipriUsageBps = ∑ s, truncInt (est s false) ∧
      (combine c parts i).parent.ewmaLopriUsageBps = ∑ s, truncInt (est s true) := by
  have hpart : ∀ s isLopri, 0 ≤ truncInt (est s isLopri) :=
    fun s isLopri => truncInt_nonneg (hnonneg s isLopri)
  have hle : ∀ s isLopri, truncInt (est s isLopri) ≤ ∑ s, truncInt (est s isLopri) :=
    fun s isLopri => Finset.single_le_sum (fun s _ => hpart s isLopri) (Finset.mem_univ s)
  have hsum : ∀ isLopri, 0 ≤ ∑ s, truncInt (est s isLopri) :=
    fun isLopri => Finset.sum_nonneg fun s _ => hpart s isLopri
  have hconv : ∀ s isLopri,
      toInt64 (((parts s).volumeBps i).ofClass isLopri).est = truncInt (est s isLopri) := by
    intro s isLopri
    rw [hest]
    have h₀ := hsum false
    have h₁ := hsum true
    have hs := hle s isLopri
    have hs' := hpart s isLopri
    cases isLopri with
    | false => exact toInt64_some (by omega) (by omega)
    | true => exact toInt64_some (by omega) (by omega)
  have hadd : ∀ s, addInt64 (truncInt (est s false)) (truncInt (est s true)) =
      truncInt (est s false) + truncInt (est s true) := by
    intro s
    have h₀ := hle s false
    have h₁ := hle s true
    have hs₀ := hpart s false
    have hs₁ := hpart s true
    exact bmod_eq_self (by omega) (by omega)
  obtain ⟨htotal, hhipri, hlopri⟩ := combine_usages (c := c) parts i
  simp only [hconv, hadd] at htotal hhipri hlopri
  have h₀ := hsum false
  have h₁ := hsum true
  rw [← Finset.sum_add_distrib] at hlt ⊢
  have hboth : ∑ s, (truncInt (est s false) + truncInt (est s true)) =
      ∑ s, truncInt (est s false) + ∑ s, truncInt (est s true) := Finset.sum_add_distrib
  refine ⟨htotal.trans ?_, hhipri.trans ?_, hlopri.trans ?_⟩
  · exact foldl_addInt64_eq_sum (by omega) hlt
  · exact foldl_addInt64_eq_sum h₀ (by omega)
  · exact foldl_addInt64_eq_sum h₁ (by omega)

theorem snapshotParts_eq
    (c : Config n) (sel : Fin n → HashingDowngradeSelector) (epochs : List (Epoch n))
    (updates : List InfoBundle) (s : Fin kNumInfoShards) :
    ((afterEpochs c epochs).afterUpdates updates).snapshotParts sel s =
      aggregate c sel
        { infos := reported c updates s, gens := (inShard updates s).map hostInfoGen } := by
  have hconfig : ((afterEpochs c epochs).afterUpdates updates).config = c := by
    rw [config_afterUpdates, (afterEpochs_quiet c epochs).1]
  rw [snapshotParts, hconfig]
  exact congrArg (aggregate c sel) (pending_afterEpochs c epochs updates s)

theorem Sampled.wellDefined_iff
    (h : Sampled c) (epochs : List (Epoch n)) {updates : List InfoBundle}
    (husage : ∀ u ∈ updates, ∀ x ∈ c.got u, 0 ≤ x.volumeBps) :
    WellDefined (((afterEpochs c epochs).afterUpdates updates).snapshotParts sel)
        (((afterEpochs c epochs).afterUpdates updates).collectSnapshot sel).1 ↔
      (∀ u ∈ updates, ∀ x ∈ c.got u, Countable c x) ∧
        ∀ i, idealUsage c sel updates i false + idealUsage c sel updates i true < 2 ^ 63 := by
  have hparts := snapshotParts_eq c sel epochs updates
  have hconfig : ((afterEpochs c epochs).afterUpdates updates).config = c := by
    rw [config_afterUpdates, (afterEpochs_quiet c epochs).1]
  rw [collectSnapshot, hconfig]
  generalize ((afterEpochs c epochs).afterUpdates updates).snapshotParts sel = parts at hparts ⊢
  have hnonneg : ∀ s, ∀ x ∈ reported c updates s, 0 ≤ x.volumeBps := forall_reported_iff.mpr husage
  rw [← forall_reported_iff]
  have hfinite : (∀ s i isLopri, (((parts s).volumeBps i).ofClass isLopri).est.isSome) ↔
      ∀ s, ∀ x ∈ reported c updates s, Countable c x := by
    simp only [hparts]
    exact forall_congr' fun s => h.finite_iff (hnonneg s)
  have hest (hfin : ∀ s i isLopri, (((parts s).volumeBps i).ofClass isLopri).est.isSome)
      (s : Fin kNumInfoShards) (i : Fin n) (isLopri : Bool) :
      (((parts s).volumeBps i).ofClass isLopri).est =
        some (expectedUsage c sel (reported c updates s) i isLopri) := by
    have hsome := hfin s i isLopri
    rw [hparts] at hsome ⊢
    exact est_eq_of_isSome hsome
  have htrunc (hfin : ∀ s i isLopri, (((parts s).volumeBps i).ofClass isLopri).est.isSome)
      (i : Fin n) :
      ∑ s, (truncatedEst ((parts s).volumeBps i) false +
          truncatedEst ((parts s).volumeBps i) true) =
        idealUsage c sel updates i false + idealUsage c sel updates i true := by
    simp only [truncatedEst, hest hfin, Option.getD_some, idealUsage, Finset.sum_add_distrib]
  rw [← hfinite]
  constructor
  · intro hdef
    refine ⟨hdef.finite, fun i => ?_⟩
    rw [← htrunc hdef.finite i, ← hdef.usage i, (combine_usages parts i).1]
    exact (foldl_addInt64_bounds (by decide) _).2
  · rintro ⟨hfin, hlt⟩
    have hsums (i : Fin n) := combine_usages_of_lt (c := c)
      (fun s isLopri => expectedUsage c sel (reported c updates s) i isLopri)
      (fun s isLopri => hest hfin s i isLopri)
      (fun s isLopri => h.expectedUsage_nonneg (hnonneg s) i isLopri) (hlt i)
    refine ⟨hfin, fun i => ?_, fun i => ?_, fun i => ?_⟩
    · rw [htrunc hfin]
      exact (hsums i).1
    · rw [(hsums i).1, (hsums i).2.1, (hsums i).2.2]
    · rw [(hsums i).1]
      refine add_nonneg ?_ ?_
      · exact Finset.sum_nonneg fun s _ =>
          truncInt_nonneg (h.expectedUsage_nonneg (hnonneg s) i false)
      · exact Finset.sum_nonneg fun s _ =>
          truncInt_nonneg (h.expectedUsage_nonneg (hnonneg s) i true)

theorem volumeBps_nonneg {u : InfoBundle} (husage : ∀ fi ∈ u.flowInfos, 0 ≤ fi.ewmaUsageBps) :
    ∀ x ∈ c.got u, 0 ≤ x.volumeBps := by
  intro x hx
  obtain ⟨fi, hfi, hx⟩ := List.mem_filterMap.mp hx
  obtain ⟨id, -, rfl⟩ := Option.map_eq_some_iff.mp hx
  exact husage fi hfi

/--
The usage estimates are well defined exactly when every matching report has a positive
usage, the thresholds have not underflowed, and the truncated estimates of every aggregate
add up to less than 2^63.
-/
theorem collectSnapshot_wellDefined_iff
    (c : Config n) (sel : Fin n → HashingDowngradeSelector) (epochs : List (Epoch n))
    (updates : List InfoBundle) (num : ℚ) (approval : Fin n → ℚ)
    (hnum : 0 < num) (happroval : ∀ i, 0 < approval i)
    (hsamplers : ∀ i, c.samplers i = .create num (approval i) c.fp)
    (husage : ∀ u ∈ updates, ∀ fi ∈ u.flowInfos, 0 ≤ fi.ewmaUsageBps) :
    WellDefined (((afterEpochs c epochs).afterUpdates updates).snapshotParts sel)
        (((afterEpochs c epochs).afterUpdates updates).collectSnapshot sel).1 ↔
      (∀ u ∈ updates, ∀ x ∈ c.got u, Countable c x) ∧
        ∀ i, idealUsage c sel updates i false + idealUsage c sel updates i true < 2 ^ 63 :=
  (Sampled.of_create hnum happroval hsamplers).wellDefined_iff epochs
    fun u hu => volumeBps_nonneg (husage u hu)

end WellDefined

def firstReports (updates : List InfoBundle) : FastAggregator 1 :=
  (afterEpochs oneFlow []).afterUpdates updates

/-- Two busy hosts in different shards. -/
theorem collectSnapshot_wellDefined_two_hosts :
    WellDefined ((firstReports [report 1 200 1, report 8 50 1]).snapshotParts fun _ => {})
      ((firstReports [report 1 200 1, report 8 50 1]).collectSnapshot fun _ => {}).1 :=
  (collectSnapshot_wellDefined_iff oneFlow (fun _ => {}) [] [report 1 200 1, report 8 50 1]
    100 (fun _ => 100) (by norm_num) (fun _ => by norm_num) (fun _ => rfl) (by decide)).mpr
    (by decide +kernel)

/-- One idle host makes the usage of the whole aggregate negative. -/
theorem not_wellDefined_idle_host :
    (((firstReports [report 1 0 1, report 8 50 1]).collectSnapshot fun _ => {}).1
        0).parent.ewmaUsageBps = -2 ^ 63 + 50 ∧
      ¬ WellDefined ((firstReports [report 1 0 1, report 8 50 1]).snapshotParts fun _ => {})
        ((firstReports [report 1 0 1, report 8 50 1]).collectSnapshot fun _ => {}).1 := by
  have husage : (((firstReports [report 1 0 1, report 8 50 1]).collectSnapshot fun _ => {}).1
      0).parent.ewmaUsageBps = -2 ^ 63 + 50 := by decide +kernel
  refine ⟨husage, fun h => ?_⟩
  have hnonneg := h.nonneg 0
  rw [husage] at hnonneg
  exact absurd hnonneg (by decide)

end FastAggregator
end HeypAgents
