import HeypAgents.ClusterAgent.FastControllerInvariant
import HeypAgents.ClusterAgent.FastAggregatorSnapshot

/-!
# Stored classes and selectors

The state of a host is updated from the changes of the hash rings, while the aggregator
attributes usage by the rings themselves.  The two agree after every round exactly when
no host registers with an id that a ring matches and goes on to match in the next round.
-/

namespace HeypAgents
namespace FastClusterController

open HashRing

variable {n : ℕ}

def Agreement (c : FastClusterController n) : Prop :=
  ∀ e ∈ c.host2par.entries, ∀ a : Fin n,
    (c.childStates e.2).isLopri a = (c.aggSelectors a).isLopri e.1
deriving Decidable

def SetsChunks (c : FastClusterController n) : Call n → Prop
  | .computeAndBroadcast _ _ => ∀ a, IsChunks (clampFrac (c.wantFracLopri a))
  | _ => True

/-- The selector of the aggregate matches the id, now and at the fraction of the next round. -/
def StaysMatched (c : FastClusterController n) (a : Fin n) (host : UInt64) : Prop :=
  (c.aggSelectors a).isLopri host = true ∧
    ((c.aggSelectors a).pickChildren (c.wantFracLopri a)).1.isLopri host = true
deriving Decidable

def JoinsHipri (c : FastClusterController n) : Call n → Prop
  | .computeAndBroadcast _ _ => ∀ e ∈ c.newHostIdPairs, ∀ a, ¬ c.StaysMatched a e.1
  | _ => True

instance (c : FastClusterController n) : ∀ e, Decidable (c.SetsChunks e)
  | .computeAndBroadcast _ _ =>
    inferInstanceAs (Decidable (∀ a, IsChunks (clampFrac (c.wantFracLopri a))))
  | .registerListener _ | .dropListener _ _ | .updateInfo _ => isTrue trivial

instance (c : FastClusterController n) : ∀ e, Decidable (c.JoinsHipri e)
  | .computeAndBroadcast _ _ =>
    inferInstanceAs (Decidable (∀ e ∈ c.newHostIdPairs, ∀ a, ¬ c.StaysMatched a e.1))
  | .registerListener _ | .dropListener _ _ | .updateInfo _ => isTrue trivial

section Step

variable {c c' : FastClusterController n} {r : Round n}
  {updates : List (ℕ × UpdateAction n)} {sent : List Delivery} {host : UInt64} {p : ℕ}

theorem Inv.mem_updates_setLopri_iff
    (h : Inv c) (hr : c.beginRound = some r) (hu : IsInterleaving r.updateTasks updates)
    {a : Fin n} (hsel : (c.aggSelectors a).Aligned) (hf : IsChunks (clampFrac (c.wantFracLopri a)))
    (hp : c.hosts[p]? = some host) (b : Bool) :
    .setLopri a p b ∈ updates.map (·.2) ↔
      (c.aggSelectors a).isLopri host = !b ∧ (r.plan a).selector.isLopri host = b := by
  obtain ⟨hselector, hdiff⟩ := plan_eq hr a
  obtain ⟨hdown, hup⟩ := hsel.pickChildren_exact hf host
  simp only [r.mem_updates_setLopri hu, h.mem_round_entries hr hp, exists_eq_left, hdiff, hselector]
  cases b with
  | true => simpa [and_comm] using hdown
  | false => simpa using hup

theorem Inv.isLopri_round
    (h : Inv c) (hr : c.beginRound = some r) (hu : IsInterleaving r.updateTasks updates)
    (hcompletes : r.Completes (r.updated updates) c' sent)
    {a : Fin n} (hsel : (c.aggSelectors a).Aligned) (hf : IsChunks (clampFrac (c.wantFracLopri a)))
    (hp : c.hosts[p]? = some host) :
    (c'.childStates p).isLopri a =
      if (c.aggSelectors a).isLopri host = (r.plan a).selector.isLopri host then
        (c.childStates p).isLopri a
      else (r.plan a).selector.isLopri host := by
  have hmem := h.mem_updates_setLopri_iff hr hu hsel hf hp
  rw [hcompletes.isLopri]
  split_ifs with hsame
  · rw [Round.updated_isLopri_of_not_mem, (beginRound_eq_some hr).1]
    · rfl
    · intro b hb
      obtain ⟨hold, hnew⟩ := (hmem b).mp hb
      rw [hold, hnew] at hsame
      exact Bool.not_ne_self b hsame
  · refine Round.updated_isLopri_of_mem ((hmem _).mpr ⟨?_, rfl⟩) fun b hb => ?_
    · exact Bool.eq_not_of_ne hsame
    · exact ((hmem b).mp hb).2.symm

theorem Inv.agrees_round
    (h : Inv c) (hr : c.beginRound = some r) (hu : IsInterleaving r.updateTasks updates)
    (hcompletes : r.Completes (r.updated updates) c' sent)
    {a : Fin n} (hsel : (c.aggSelectors a).Aligned) (hf : IsChunks (clampFrac (c.wantFracLopri a)))
    (hp : c.hosts[p]? = some host)
    (hbefore : (c.childStates p).isLopri a = (c.aggSelectors a).isLopri host) :
    (c'.childStates p).isLopri a = (r.plan a).selector.isLopri host := by
  rw [h.isLopri_round hr hu hcompletes hsel hf hp, hbefore]
  split_ifs with hsame
  · exact hsame
  · rfl

theorem Inv.agrees_first_round_iff
    (h : Inv c) (hr : c.beginRound = some r) (hu : IsInterleaving r.updateTasks updates)
    (hcompletes : r.Completes (r.updated updates) c' sent)
    {a : Fin n} (hsel : (c.aggSelectors a).Aligned) (hf : IsChunks (clampFrac (c.wantFracLopri a)))
    (hp : (host, p) ∈ c.newHostIdPairs) :
    (c'.childStates p).isLopri a = (r.plan a).selector.isLopri host ↔ ¬ c.StaysMatched a host := by
  rw [h.isLopri_round hr hu hcompletes hsel hf (h.waiting _ hp), h.waiting_hipri _ hp a,
    StaysMatched, ← (plan_eq hr a).1]
  cases (c.aggSelectors a).isLopri host <;> cases (r.plan a).selector.isLopri host <;> simp

theorem Inv.agreement_round_iff
    (h : Inv c) (hr : c.beginRound = some r) (hu : IsInterleaving r.updateTasks updates)
    (hcompletes : r.Completes (r.updated updates) c' sent) (hsel : ∀ a, (c.aggSelectors a).Aligned)
    (hf : ∀ a, IsChunks (clampFrac (c.wantFracLopri a))) (hagree : Agreement c) :
    Agreement c' ↔ ∀ e ∈ c.newHostIdPairs, ∀ a, ¬ c.StaysMatched a e.1 := by
  have hfields := hcompletes.controller
  rw [(beginRound_eq_some hr).1] at hfields
  have hmap : c'.host2par = c.catchUp.host2par := by rw [hfields]
  have hentries : ∀ e, e ∈ c'.host2par.entries ↔ c.hosts[e.2]? = some e.1 := by
    intro e
    rw [hmap]
    exact h.mem_catchUp e.1 e.2
  simp only [Agreement, hcompletes.aggSelectors, hentries]
  constructor
  · intro hafter e he a
    exact (h.agrees_first_round_iff hr hu hcompletes (hsel a) (hf a) he).mp
      (hafter e (h.waiting e he) a)
  · intro hjoins e he a
    rcases h.covered e.1 e.2 he with hknown | hwaits
    · exact h.agrees_round hr hu hcompletes (hsel a) (hf a) he (hagree e hknown a)
    · exact (h.agrees_first_round_iff hr hu hcompletes (hsel a) (hf a) hwaits).mpr
        (hjoins e hwaits a)

theorem frame_step {e : Call n} (he : ∀ updates bcasts, e ≠ .computeAndBroadcast updates bcasts)
    (hstep : c.step e = some c') :
    c'.host2par = c.host2par ∧ c'.aggSelectors = c.aggSelectors ∧
      ∀ p a, (c'.childStates p).isLopri a = (c.childStates p).isLopri a := by
  have honID : ∀ (q : ℕ) (f : List ℕ → List ℕ) (p a : ℕ),
      (onID c.childStates q (fun state => { state with listeners := f state.listeners })
        p).isLopri a = (c.childStates p).isLopri a := by
    intro q f p a
    by_cases hp : p = q
    · subst hp
      simp [onID, ChildState.isLopri]
    · simp [onID, hp]
  cases e with
  | registerListener hostId =>
    cases hstep
    exact ⟨rfl, rfl, honID _ _⟩
  | dropListener hostParId lisId =>
    cases hstep
    exact ⟨rfl, rfl, honID hostParId fun l => l.erase lisId⟩
  | updateInfo info =>
    cases hstep
    exact ⟨rfl, rfl, fun _ _ => rfl⟩
  | computeAndBroadcast updates bcasts => exact absurd rfl (he updates bcasts)

theorem Agreement.frame_step (hagree : Agreement c) {e : Call n}
    (he : ∀ updates bcasts, e ≠ .computeAndBroadcast updates bcasts)
    (hstep : c.step e = some c') : Agreement c' := by
  obtain ⟨hmap, hselectors, hstates⟩ := FastClusterController.frame_step he hstep
  intro x hx a
  rw [hmap] at hx
  rw [hselectors, hstates]
  exact hagree x hx a

end Step

section Runs

open Runs

structure ChunkInv (c : FastClusterController n) : Prop extends Inv c where
  aligned : ∀ a, (c.aggSelectors a).Aligned

variable {c c' : FastClusterController n} {e : Call n}

theorem ChunkInv.step
    (h : ChunkInv c) (he : c.SetsChunks e) (hstep : c.step e = some c') : ChunkInv c' := by
  refine ⟨h.toInv.step hstep, ?_⟩
  by_cases hround : ∃ updates bcasts, e = .computeAndBroadcast updates bcasts
  · obtain ⟨updates, bcasts, rfl⟩ := hround
    obtain ⟨⟨c'', sent⟩, hsome, rfl⟩ := Option.map_eq_some_iff.mp hstep
    obtain ⟨r, hr, -, hcompletes⟩ := computeAndBroadcast_eq_some h.toInv hsome
    intro a
    simp only [hcompletes.aggSelectors, (plan_eq hr a).1]
    exact (h.aligned a).pickChildren (he a)
  · rw [(frame_step (by simpa using hround) hstep).2.1]
    exact h.aligned

theorem ChunkInv.agreement_step_iff (h : ChunkInv c) (he : c.SetsChunks e) (hagree : Agreement c)
    (hstep : c.step e = some c') : Agreement c' ↔ c.JoinsHipri e := by
  by_cases hround : ∃ updates bcasts, e = .computeAndBroadcast updates bcasts
  · obtain ⟨updates, bcasts, rfl⟩ := hround
    obtain ⟨⟨c'', sent⟩, hsome, rfl⟩ := Option.map_eq_some_iff.mp hstep
    obtain ⟨r, hr, hu, hcompletes⟩ := computeAndBroadcast_eq_some h.toInv hsome
    exact h.agreement_round_iff hr hu hcompletes h.aligned he hagree
  · have hother : ∀ updates bcasts, e ≠ .computeAndBroadcast updates bcasts := by
      simpa using hround
    refine iff_of_true (hagree.frame_step hother hstep) ?_
    cases e with
    | computeAndBroadcast updates bcasts => exact absurd rfl (hother updates bcasts)
    | registerListener hostId => trivial
    | dropListener hostParId lisId => trivial
    | updateInfo info => trivial

def AgreesAfterRounds (c : FastClusterController n) (es : List (Call n)) : Prop :=
  ∀ pre updates bcasts c', pre ++ [.computeAndBroadcast updates bcasts] <+: es →
    exec step c (pre ++ [.computeAndBroadcast updates bcasts]) = some c' → Agreement c'

section FromCreate

variable {config : FastClusterControllerConfig} {allocs : Fin n → FlowAlloc}
  {distinct : ∀ i j, eqClusterFlow (allocs i).flow (allocs j).flow = true → i = j}
  {hthreads : 0 < config.numThreads} {es : List (Call n)}

theorem chunkInv_exec
    (hchunks : AllSteps step SetsChunks (create config allocs distinct hthreads) es)
    (hrun : exec step (create config allocs distinct hthreads) es = some c) : ChunkInv c :=
  exec_invariant_of_allSteps (fun _ _ _ h he hstep => h.step he hstep)
    ⟨inv_create config allocs distinct hthreads, fun _ => HashingDowngradeSelector.aligned_default⟩
    hchunks hrun

theorem AgreesAfterRounds.agreement
    (h : AgreesAfterRounds (create config allocs distinct hthreads) es)
    (hrun : exec step (create config allocs distinct hthreads) es = some c) : Agreement c := by
  induction es using List.reverseRecOn generalizing c with
  | nil =>
    cases hrun
    intro x hx
    cases hx
  | append_singleton es e ih =>
    by_cases hround : ∃ updates bcasts, e = .computeAndBroadcast updates bcasts
    · obtain ⟨updates, bcasts, rfl⟩ := hround
      exact h es updates bcasts c (List.prefix_refl _) hrun
    · obtain ⟨c', hpre, hstep⟩ := exec_concat_eq_some.mp hrun
      have hbefore : Agreement c' := ih (fun pre updates bcasts c'' hshort =>
        h pre updates bcasts c'' (hshort.trans (List.prefix_append es [e]))) hpre
      exact hbefore.frame_step (by simpa using hround) hstep

/--
In a run whose fractions are whole numbers of chunks, the stored classes agree with the
selectors after every round exactly when no host joins a round with an id that the selector
of an aggregate matches already and does not drop.
-/
theorem agreesAfterRounds_iff
    (hchunks : AllSteps step SetsChunks (create config allocs distinct hthreads) es)
    (hrun : exec step (create config allocs distinct hthreads) es = some c) :
    AgreesAfterRounds (create config allocs distinct hthreads) es ↔
      AllSteps step JoinsHipri (create config allocs distinct hthreads) es := by
  constructor
  · intro hafter pre e s hshort hs
    obtain ⟨t, ht⟩ := exec_mono hrun hshort
    have hpre : pre <+: es := (List.prefix_append pre [e]).trans hshort
    have hbefore : AgreesAfterRounds (create config allocs distinct hthreads) (pre ++ [e]) :=
      fun pre' updates bcasts c' h => hafter pre' updates bcasts c' (h.trans hshort)
    have hfirst : AgreesAfterRounds (create config allocs distinct hthreads) pre :=
      fun pre' updates bcasts c' h => hafter pre' updates bcasts c' (h.trans hpre)
    obtain ⟨s', hs', hstep⟩ := exec_concat_eq_some.mp ht
    obtain rfl : s = s' := Option.some_inj.mp (hs.symm.trans hs')
    exact ((chunkInv_exec (hchunks.mono hpre) hs).agreement_step_iff
      (hchunks pre e s hshort hs) (hfirst.agreement hs) hstep).mp (hbefore.agreement ht)
  · intro hjoins pre updates bcasts t hshort ht
    have hboth : ∀ (s : FastClusterController n) (e : Call n) s', ChunkInv s ∧ Agreement s →
        s.SetsChunks e ∧ s.JoinsHipri e → step s e = some s' → ChunkInv s' ∧ Agreement s' := by
      rintro s e s' ⟨hinv, hagree⟩ ⟨hset, hjoin⟩ hstep
      exact ⟨hinv.step hset hstep, (hinv.agreement_step_iff hset hagree hstep).mpr hjoin⟩
    have hinit : ChunkInv (create config allocs distinct hthreads) ∧
        Agreement (create config allocs distinct hthreads) :=
      ⟨chunkInv_exec (allSteps_nil _ _) rfl, fun x hx => by cases hx⟩
    refine (exec_invariant_of_allSteps hboth hinit (fun pre' e s hpre' hs => ?_) ht).2
    exact ⟨hchunks pre' e s (hpre'.trans hshort) hs, hjoins pre' e s (hpre'.trans hshort) hs⟩

end FromCreate

section Instances

open FastAggregator (report)

/-- Half of the ring is downgraded, then all of it upgraded as a third host joins. -/
theorem agreesAfterRounds_upgraded_host :
    AgreesAfterRounds oneAgg
      [.registerListener 3, .registerListener 5, .updateInfo (report 3 200 1),
        .computeAndBroadcast [(0, .setLopri 0 0 true), (0, .setLopri 0 1 true)] [(1, 1), (0, 0)],
        .registerListener 7, .updateInfo (report 3 50 2),
        .computeAndBroadcast
          [(0, .setLopri 0 0 false), (0, .setLopri 0 1 false), (0, .setLopri 0 2 false)]
          [(0, 0), (0, 2), (1, 1)]] := by
  refine (agreesAfterRounds_iff (by decide +kernel)
    (Option.some_get (show (exec step oneAgg _).isSome = true by decide +kernel)).symm).mpr ?_
  decide +kernel

def lateHost : List (Call 1) :=
  [.registerListener 3, .updateInfo (report 3 200 1),
    .computeAndBroadcast [(0, .setLopri 0 0 true)] [(0, 0)],
    .registerListener 5, .updateInfo (report 3 200 2)]

/--
The next round does not move the ring: the late host stays HIPRI, but its usage counts
as LOPRI.
-/
theorem not_agreesAfterRounds_late_host :
    AllSteps step SetsChunks oneAgg (lateHost ++ [.computeAndBroadcast [] []]) ∧
      ¬ AgreesAfterRounds oneAgg (lateHost ++ [.computeAndBroadcast [] []]) := by
  refine ⟨by decide +kernel, fun h => ?_⟩
  have hlast : ∃ c ∈ exec step oneAgg (lateHost ++ [.computeAndBroadcast [] []]),
      ¬ Agreement c := by
    decide +kernel
  obtain ⟨c, hc, hnot⟩ := hlast
  exact hnot (h lateHost [] [] c (List.prefix_refl _) hc)

end Instances

end Runs

end FastClusterController
end HeypAgents
