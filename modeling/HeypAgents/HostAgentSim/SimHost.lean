import Mathlib.Data.List.Induction
import Mathlib.Data.List.Nodup
import Mathlib.Algebra.Order.Ring.Int

/-!
# Report times of a simulated host

A simulated host notes when it sent each report and looks the time up by the generation
that an allocation echoes.  Generations start again at 1 with every connection while the
list of times goes on, and the lookup is a binary search for an ascending list.
-/

namespace HeypAgents
namespace HostAgentSim

structure GenAndTime where
  gen : ℤ
  time : ℤ

/-- `sort.Search` when it has narrowed the range to `[i, j)`. -/
def searchFrom (f : ℕ → Bool) (i j : ℕ) : ℕ :=
  if i < j then
    if f ((i + j) / 2) then searchFrom f i ((i + j) / 2) else searchFrom f ((i + j) / 2 + 1) j
  else i
termination_by j - i

def sortSearch (xs : List GenAndTime) (p : GenAndTime → Bool) : ℕ :=
  searchFrom (fun i => xs[i]?.any p) 0 xs.length

def maxRetention : ℤ := 5000000000

def targetRetention : ℤ := 3000000000

def trimGenTimes (now : ℤ) (genTimes : List GenAndTime) : List GenAndTime :=
  match genTimes with
  | [] => []
  | first :: _ =>
    if maxRetention < now - first.time then
      let ubID := sortSearch genTimes fun e => decide (now - targetRetention < e.time)
      if genTimes.length ≤ ubID then genTimes else genTimes.drop ubID
    else genTimes

structure Report where
  lastTime : ℤ
  now : ℤ

/-- A call of `pushGenTime`. -/
structure Push extends Report where
  gen : ℤ

def pushGenTime (genTimes : List GenAndTime) (p : Push) : List GenAndTime :=
  trimGenTimes p.now genTimes ++ [⟨p.gen, p.lastTime⟩]

def getGenTime (genTimes : List GenAndTime) (gen : ℤ) : Option ℤ :=
  match genTimes[sortSearch genTimes fun e => decide (gen ≤ e.gen)]? with
  | none => none
  | some e => if e.gen = gen then some e.time else none

/-- The pushes of a connection after report number `gen`. -/
def runInformLoop (gen : ℤ) : List Report → List Push
  | [] => []
  | r :: reports => ⟨r, gen + 1⟩ :: runInformLoop (gen + 1) reports

def runLoop (connections : List (List Report)) : List Push :=
  connections.flatMap (runInformLoop 0)

def genTimes (pushes : List Push) : List GenAndTime :=
  pushes.foldl pushGenTime []

def latest (pushes : List Push) (gen : ℤ) : Option ℤ :=
  (pushes.reverse.find? fun p => p.gen == gen).map fun p => p.lastTime

/-- Every time that `getGenTime` finds is that of the most recent push. -/
def FindsLatest (pushes : List Push) : Prop :=
  ∀ gen t, getGenTime (genTimes pushes) gen = some t → latest pushes gen = some t

def ClockRuns (pushes : List Push) : Prop :=
  (pushes.flatMap fun p => [p.lastTime, p.now]).Pairwise (· ≤ ·)

theorem trimGenTimes_suffix (now : ℤ) (xs : List GenAndTime) : trimGenTimes now xs <:+ xs := by
  unfold trimGenTimes
  split
  · exact List.suffix_refl _
  · dsimp only
    split_ifs
    · exact List.suffix_refl _
    · exact List.drop_suffix _ _
    · exact List.suffix_refl _

theorem genTimes_suffix (pushes : List Push) :
    genTimes pushes <:+ pushes.map fun p => ⟨p.gen, p.lastTime⟩ := by
  induction pushes using List.reverseRecOn with
  | nil => exact List.suffix_refl _
  | append_singleton pushes p ih =>
    rw [genTimes, List.foldl_concat, List.map_append]
    obtain ⟨dropped, h⟩ := (trimGenTimes_suffix p.now _).trans ih
    exact ⟨dropped, by rw [← h, pushGenTime, ← List.append_assoc]; rfl⟩

variable {pushes : List Push}

theorem exists_push_of_getGenTime {gen t : ℤ} (h : getGenTime (genTimes pushes) gen = some t) :
    ∃ p ∈ pushes, p.gen = gen ∧ p.lastTime = t := by
  unfold getGenTime at h
  split at h
  · cases h
  · rename_i e he
    split_ifs at h with hgen
    obtain ⟨p, hp, rfl⟩ :=
      List.mem_map.mp ((genTimes_suffix pushes).subset (List.mem_of_getElem? he))
    exact ⟨p, hp, hgen, Option.some.inj h⟩

theorem runInformLoop_ascending (gen : ℤ) (reports : List Report) :
    (runInformLoop gen reports).Pairwise (fun p q => p.gen < q.gen) ∧
      ∀ p ∈ runInformLoop gen reports, gen < p.gen := by
  induction reports generalizing gen with
  | nil => simp [runInformLoop]
  | cons r reports ih =>
    obtain ⟨hpairs, hgen⟩ := ih (gen + 1)
    refine ⟨List.pairwise_cons.mpr ⟨fun q hq => hgen q hq, hpairs⟩, fun p hp => ?_⟩
    rcases List.mem_cons.mp hp with rfl | hp
    · exact lt_add_one gen
    · exact (lt_add_one gen).trans (hgen p hp)

theorem exists_find_latest {p : Push} (hp : p ∈ pushes) :
    ∃ q ∈ pushes, q.gen = p.gen ∧
      (pushes.reverse.find? fun r => r.gen == p.gen) = some q := by
  have hsome : (pushes.reverse.find? fun r => r.gen == p.gen).isSome :=
    List.find?_isSome.mpr ⟨p, List.mem_reverse.mpr hp, beq_self_eq_true _⟩
  obtain ⟨q, hq⟩ := Option.isSome_iff_exists.mp hsome
  have hmem := List.mem_reverse.mp (List.mem_of_find?_eq_some hq)
  exact ⟨q, hmem, by simpa using List.find?_some hq, hq⟩

theorem findsLatest_of_ascending
    (h : pushes.Pairwise fun p q => p.gen < q.gen) : FindsLatest pushes := by
  intro gen t hfound
  obtain ⟨p, hp, rfl, rfl⟩ := exists_push_of_getGenTime hfound
  obtain ⟨q, hqmem, hgen, hq⟩ := exists_find_latest hp
  have hnodup : (pushes.map Push.gen).Nodup :=
    List.pairwise_map.mpr (h.imp fun hlt => hlt.ne)
  obtain rfl : q = p := List.inj_on_of_nodup_map hnodup hqmem hp hgen
  rw [latest, hq]
  rfl

theorem exists_runLoop_eq {connections : List (List Report)}
    (h : ((connections.map List.length).filter (0 < ·)).length ≤ 1) :
    ∃ reports, runLoop connections = runInformLoop 0 reports := by
  induction connections with
  | nil => exact ⟨[], rfl⟩
  | cons reports connections ih =>
    cases reports with
    | nil => exact ih (by simpa using h)
    | cons r reports =>
      have hrest : ∀ c ∈ connections, c = [] := by simpa using h
      have hpushes : connections.flatMap (runInformLoop 0) = [] := by
        rw [List.flatMap_eq_nil_iff]
        intro c hc
        rw [hrest c hc, runInformLoop]
      exact ⟨r :: reports, by rw [runLoop, List.flatMap_cons, hpushes, List.append_nil]⟩

def reconnected : List ℕ → List (List Report)
  | [] => []
  | 0 :: lengths => [] :: reconnected lengths
  | (n + 1) :: lengths =>
    (⟨0, 0⟩ :: List.replicate n ⟨1, 1⟩) :: lengths.map fun n => List.replicate n ⟨1, 1⟩

theorem length_reconnected (lengths : List ℕ) :
    (reconnected lengths).map List.length = lengths := by
  induction lengths with
  | nil => rfl
  | cons n lengths ih =>
    cases n with
    | zero => simp [reconnected, ih]
    | succ n => simp [reconnected, Function.comp_def]

theorem mem_runInformLoop_replicate {gen : ℤ} (hgen : 0 ≤ gen) {n : ℕ} {p : Push}
    (hp : p ∈ runInformLoop gen (List.replicate n ⟨1, 1⟩)) :
    1 ≤ p.gen ∧ p.toReport = ⟨1, 1⟩ := by
  induction n generalizing gen with
  | zero => cases hp
  | succ n ih =>
    rcases List.mem_cons.mp hp with rfl | hp
    · exact ⟨by dsimp only; omega, rfl⟩
    · exact ih (by omega) hp

theorem exists_runLoop_reconnected (lengths : List ℕ)
    (h : 1 < (lengths.filter (0 < ·)).length) :
    ∃ pushes, runLoop (reconnected lengths) = ⟨⟨0, 0⟩, 1⟩ :: pushes ∧
      (∀ p ∈ pushes, 1 ≤ p.gen ∧ p.toReport = ⟨1, 1⟩) ∧ ∃ p ∈ pushes, p.gen = 1 := by
  induction lengths with
  | nil => simp at h
  | cons n lengths ih =>
    cases n with
    | zero => exact ih (by simpa using h)
    | succ n =>
      refine ⟨_, rfl, fun p hp => ?_, ?_⟩
      · rcases List.mem_append.mp hp with hp | hp
        · exact mem_runInformLoop_replicate (by decide) hp
        · obtain ⟨c, hc, hp⟩ := List.mem_flatMap.mp hp
          obtain ⟨k, -, rfl⟩ := List.mem_map.mp hc
          exact mem_runInformLoop_replicate le_rfl hp
      · obtain ⟨k, hk, hpos⟩ : ∃ k ∈ lengths, 0 < k := by
          simpa [List.length_pos_iff_exists_mem] using h
        obtain ⟨k, rfl⟩ := Nat.exists_eq_succ_of_ne_zero hpos.ne'
        refine ⟨⟨⟨1, 1⟩, 1⟩, List.mem_append_right _ (List.mem_flatMap.mpr
          ⟨_, List.mem_map_of_mem hk, List.mem_cons_self⟩), rfl⟩

theorem searchFrom_of_forall {f : ℕ → Bool} (i j : ℕ) (h : ∀ k < j, f k = true) :
    searchFrom f i j = i := by
  fun_induction searchFrom f i j with
  | case1 i j hij hf ih => exact ih fun k hk => h k (by omega)
  | case2 i j hij hf ih => exact absurd (h _ (by omega)) hf
  | case3 i j hij => rfl

theorem getGenTime_one (h : ∀ p ∈ pushes, 1 ≤ p.gen ∧ p.toReport = ⟨1, 1⟩) :
    getGenTime (genTimes (⟨⟨0, 0⟩, 1⟩ :: pushes)) 1 = some 0 := by
  have hpush : ∀ (ps : List Push), (∀ p ∈ ps, p.toReport = ⟨1, 1⟩) → ∀ later : List GenAndTime,
      ps.foldl pushGenTime (⟨1, 0⟩ :: later) =
        ⟨1, 0⟩ :: later ++ ps.map fun p => ⟨p.gen, p.lastTime⟩ := by
    intro ps hps
    induction ps with
    | nil => simp
    | cons p ps ih =>
      intro later
      rw [List.forall_mem_cons] at hps
      have hone : pushGenTime (⟨1, 0⟩ :: later) p = ⟨1, 0⟩ :: (later ++ [⟨p.gen, p.lastTime⟩]) := by
        rw [pushGenTime, trimGenTimes, if_neg (by rw [hps.1]; decide)]
        rfl
      rw [List.foldl_cons, hone, ih hps.2]
      simp
  have htimes : genTimes (⟨⟨0, 0⟩, 1⟩ :: pushes) =
      ⟨1, 0⟩ :: pushes.map fun p => ⟨p.gen, p.lastTime⟩ :=
    hpush pushes (fun p hp => (h p hp).2) []
  have hsearch : sortSearch (genTimes (⟨⟨0, 0⟩, 1⟩ :: pushes)) (fun e => decide (1 ≤ e.gen)) = 0 := by
    have hgen : ∀ e ∈ genTimes (⟨⟨0, 0⟩, 1⟩ :: pushes), 1 ≤ e.gen := by
      rw [htimes, List.forall_mem_cons, List.forall_mem_map]
      exact ⟨le_rfl, fun p hp => (h p hp).1⟩
    refine searchFrom_of_forall _ _ fun k hk => ?_
    rw [List.getElem?_eq_getElem hk, Option.any_some, decide_eq_true_eq]
    exact hgen _ (List.getElem_mem hk)
  rw [getGenTime, hsearch, htimes]
  rfl

theorem latest_one
    (h : ∀ p ∈ pushes, 1 ≤ p.gen ∧ p.toReport = ⟨1, 1⟩) (hone : ∃ p ∈ pushes, p.gen = 1) :
    latest (⟨⟨0, 0⟩, 1⟩ :: pushes) 1 = some 1 := by
  obtain ⟨p, hp, hgen⟩ := hone
  obtain ⟨q, hqmem, -, hq⟩ := exists_find_latest hp
  rw [hgen] at hq
  rw [latest, List.reverse_cons, List.find?_append, hq, Option.some_or, Option.map_some,
    (h q hqmem).2]

theorem clockRuns_reconnected (h : ∀ p ∈ pushes, p.toReport = ⟨1, 1⟩) :
    ClockRuns (⟨⟨0, 0⟩, 1⟩ :: pushes) := by
  have hones : ∀ t ∈ pushes.flatMap (fun p => [p.lastTime, p.now]), t = 1 := by
    intro t ht
    obtain ⟨p, hp, ht⟩ := List.mem_flatMap.mp ht
    simpa [h p hp] using ht
  rw [ClockRuns, List.flatMap_cons]
  refine List.pairwise_append.mpr ⟨by simp, ?_, ?_⟩
  · exact List.pairwise_of_forall_mem_list fun t ht u hu => by rw [hones t ht, hones u hu]
  · intro t ht u hu
    rw [hones u hu]
    have : t = 0 := by simpa using ht
    omega

/--
In all runs with the given numbers of reports per connection, whatever the clock reads,
every time that is found is that of the most recent push exactly if at most one connection
sends any report.
-/
theorem findsLatest_iff (lengths : List ℕ) :
    (∀ connections, connections.map List.length = lengths → ClockRuns (runLoop connections) →
      ∀ pushes, pushes <+: runLoop connections → FindsLatest pushes) ↔
      (lengths.filter (0 < ·)).length ≤ 1 := by
  constructor
  · intro hfinds
    by_contra hmany
    obtain ⟨pushes, hrun, hall, hone⟩ := exists_runLoop_reconnected lengths (by omega)
    have hclock := clockRuns_reconnected fun p hp => (hall p hp).2
    rw [← hrun] at hclock
    have hlatest := hfinds _ (length_reconnected lengths) hclock _ (List.prefix_refl _) 1 0
    rw [hrun, latest_one hall hone] at hlatest
    exact absurd (hlatest (getGenTime_one hall)) (by decide)
  · rintro hone connections rfl - pushes hpushes
    obtain ⟨reports, hrun⟩ := exists_runLoop_eq hone
    rw [hrun] at hpushes
    exact findsLatest_of_ascending
      ((runInformLoop_ascending 0 reports).1.sublist hpushes.sublist)

def lostConnection : List (List Report) :=
  [[⟨0, 0⟩, ⟨1000000000, 1000000000⟩, ⟨2000000000, 2000000000⟩], [⟨2500000000, 2500000000⟩]]

theorem lostConnection_finds_first :
    ClockRuns (runLoop lostConnection) ∧
      getGenTime (genTimes (runLoop lostConnection)) 1 = some 0 ∧
      latest (runLoop lostConnection) 1 = some 2500000000 := by
  refine ⟨by simp [ClockRuns, runLoop, lostConnection, runInformLoop], ?_, rfl⟩
  have htimes : genTimes (runLoop lostConnection) =
      [⟨1, 0⟩, ⟨2, 1000000000⟩, ⟨3, 2000000000⟩, ⟨1, 2500000000⟩] := rfl
  simp [htimes, getGenTime, sortSearch, searchFrom]

end HostAgentSim
end HeypAgents
