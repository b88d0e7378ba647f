import HeypAgents.Lib.BinaryHeap
import HeypAgents.Lib.Runs

/-!
# The event loop of the loss-detection replay

`Loop` keeps the events still to be handled in a binary heap by time.  `Next` leaves the
event it hands out at the root and removes it at the following call, so that the handler
of an event may add others in between.

An execution records which events were added and which one was current after each `Next`
that returned true.  Along every admissible execution the root is the current event, the
events handed out and those in the heap are the events added, and the times of the events
handed out do not decrease.
-/

namespace HeypAgents
namespace EvalLoss

variable {T D : Type*}

structure Event (T D : Type*) where
  unixSec : T
  data : D
deriving DecidableEq, Repr

structure Loop (T D : Type*) where
  q : Array (Event T D) := #[]
  sawFirst : Bool := false

section Code

variable [LinearOrder T]

def Loop.addEv (l : Loop T D) (ev : Event T D) : Loop T D :=
  { l with q := BinaryHeap.push Event.unixSec l.q ev }

/-- `Next` drops the event handed out before, except at the first call. -/
def Loop.next (l : Loop T D) : Loop T D × Bool :=
  if !l.sawFirst then ({ l with sawFirst := true }, 0 < l.q.size)
  else if h : 0 < l.q.size then
    let q := BinaryHeap.pop Event.unixSec l.q h
    ({ l with q := q }, 0 < q.size)
  else (l, 0 < l.q.size)

/-- The event at the root; `none` where indexing the empty heap panics. -/
def Loop.ev (l : Loop T D) : Option (Event T D) := l.q[0]?

end Code

inductive Call (T D : Type*) where
  | addEv (ev : Event T D)
  | next
deriving DecidableEq, Repr

/-- A loop with its history: `returned` is the last result of `Next`. -/
structure Trace (T D : Type*) where
  loop : Loop T D := {}
  added : List (Event T D) := []
  currents : List (Event T D) := []
  returned : Option Bool := none

section Runs

variable [LinearOrder T]

/-- Make a call, and read the current event after a `Next` that returned true. -/
def Trace.step (s : Trace T D) : Call T D → Option (Trace T D)
  | .addEv ev => some { s with loop := s.loop.addEv ev, added := s.added ++ [ev] }
  | .next =>
    let (loop, more) := s.loop.next
    if more then
      loop.ev.map fun cur =>
        { s with loop := loop, currents := s.currents ++ [cur], returned := some true }
    else some { s with loop := loop, returned := some false }

/-- Events added after the first `Next` are not earlier than the current one, and none is
added after `Next` has returned false. -/
def Admissible (s : Trace T D) : Call T D → Prop
  | .addEv ev =>
    s.returned ≠ some false ∧
      (s.returned = some true → ∀ cur ∈ s.loop.ev, cur.unixSec ≤ ev.unixSec)
  | .next => True

instance (s : Trace T D) : ∀ call, Decidable (Admissible s call)
  | .addEv ev => inferInstanceAs (Decidable (s.returned ≠ some false ∧
      (s.returned = some true → ∀ cur ∈ s.loop.ev, cur.unixSec ≤ ev.unixSec)))
  | .next => inferInstanceAs (Decidable True)

abbrev InOrder (evs : List (Event T D)) : Prop := evs.Pairwise fun a b => a.unixSec ≤ b.unixSec

/-- The states of an admissible execution: before the first `Next`, with the current event
at the root of the heap, and after `Next` has returned false. -/
inductive Trace.Inv : Trace T D → Prop
  | waiting {q : Array (Event T D)} {added : List (Event T D)}
      (heap : BinaryHeap.IsHeap Event.unixSec q) (perm : q.toList.Perm added) :
      Inv ⟨⟨q, false⟩, added, [], none⟩
  | running {q : Array (Event T D)} {added earlier : List (Event T D)} {cur : Event T D}
      (heap : BinaryHeap.IsHeap Event.unixSec q) (root : q[0]? = some cur)
      (sorted : InOrder (earlier ++ [cur])) (perm : (earlier ++ q.toList).Perm added) :
      Inv ⟨⟨q, true⟩, added, earlier ++ [cur], some true⟩
  | finished {added currents : List (Event T D)}
      (sorted : InOrder currents) (perm : currents.Perm added) :
      Inv ⟨⟨#[], true⟩, added, currents, some false⟩

theorem inv_start : Trace.Inv ({} : Trace T D) :=
  .waiting (fun p _ hp => absurd hp (Nat.not_lt_zero p)) (List.Perm.refl [])

variable {q : Array (Event T D)}

theorem Trace.Inv.firstNext {added : List (Event T D)}
    (heap : BinaryHeap.IsHeap Event.unixSec q) (perm : q.toList.Perm added) :
    ∃ t, Trace.step ⟨⟨q, false⟩, added, [], none⟩ .next = some t ∧ t.Inv := by
  by_cases hne : 0 < q.size
  · have hsorted : InOrder ([] ++ [q[0]]) := List.pairwise_singleton _ _
    refine ⟨_, ?_, .running heap (by simp [hne]) hsorted perm⟩
    simp [Trace.step, Loop.next, Loop.ev, hne]
  · obtain rfl : q = #[] := by simpa using hne
    exact ⟨_, rfl, .finished List.Pairwise.nil perm⟩

theorem Trace.Inv.laterNext {added earlier : List (Event T D)}
    {cur : Event T D} (heap : BinaryHeap.IsHeap Event.unixSec q) (root : q[0]? = some cur)
    (sorted : InOrder (earlier ++ [cur])) (perm : (earlier ++ q.toList).Perm added) :
    ∃ t, Trace.step ⟨⟨q, true⟩, added, earlier ++ [cur], some true⟩ .next = some t ∧ t.Inv := by
  obtain ⟨hne, hroot⟩ := Array.getElem?_eq_some_iff.mp root
  have hpop : (q[0] :: (BinaryHeap.pop Event.unixSec q hne).toList).Perm q.toList :=
    BinaryHeap.pop_perm hne
  have hheap := BinaryHeap.pop_isHeap heap hne
  rw [hroot] at hpop
  have hperm : ((earlier ++ [cur]) ++ (BinaryHeap.pop Event.unixSec q hne).toList).Perm added := by
    rw [List.append_assoc]
    exact (hpop.append_left earlier).trans perm
  generalize hq : BinaryHeap.pop Event.unixSec q hne = rest at *
  by_cases hrest : 0 < rest.size
  · have hmem : rest[0] ∈ q := by
      have hin : rest[0] ∈ cur :: rest.toList := List.mem_cons_of_mem _ (by simp)
      simpa using hpop.mem_iff.mp hin
    have hle : cur.unixSec ≤ rest[0].unixSec := by
      rw [← hroot]
      exact heap.root_le hne hmem
    have hsorted : InOrder ((earlier ++ [cur]) ++ [rest[0]]) := by
      refine List.pairwise_append.mpr ⟨sorted, List.pairwise_singleton _ _, ?_⟩
      intro a ha b hb
      obtain rfl := List.mem_singleton.mp hb
      rcases List.mem_append.mp ha with hearlier | hcur
      · exact ((List.pairwise_append.mp sorted).2.2 a hearlier cur (by simp)).trans hle
      · rw [List.mem_singleton.mp hcur]
        exact hle
    refine ⟨_, ?_, .running hheap (by simp [hrest]) hsorted hperm⟩
    simp [Trace.step, Loop.next, Loop.ev, hne, hq, hrest]
  · obtain rfl : rest = #[] := by simpa using hrest
    refine ⟨_, ?_, .finished sorted (by simpa using hperm)⟩
    simp [Trace.step, Loop.next, hne, hq]

theorem Trace.Inv.addRunning {added earlier : List (Event T D)}
    {cur ev : Event T D} (heap : BinaryHeap.IsHeap Event.unixSec q) (root : q[0]? = some cur)
    (sorted : InOrder (earlier ++ [cur])) (perm : (earlier ++ q.toList).Perm added)
    (hle : cur.unixSec ≤ ev.unixSec) :
    Trace.Inv ⟨⟨BinaryHeap.push Event.unixSec q ev, true⟩, added ++ [ev], earlier ++ [cur],
      some true⟩ := by
  obtain ⟨hne, hroot⟩ := Array.getElem?_eq_some_iff.mp root
  refine .running (BinaryHeap.push_isHeap heap ev) ?_ sorted ?_
  · rw [BinaryHeap.push_root hne (by rw [hroot]; exact hle), hroot]
  · have hpush := (@BinaryHeap.push_perm _ _ _ Event.unixSec q ev).append_left earlier
    rw [← List.append_assoc] at hpush
    exact hpush.trans (perm.append_right [ev])

variable {s : Trace T D}

/-- A call of an admissible execution keeps the invariant. -/
theorem Trace.Inv.step (hs : s.Inv) {call : Call T D}
    (hcall : Admissible s call) : ∃ t, s.step call = some t ∧ t.Inv := by
  cases call with
  | next =>
    cases hs with
    | waiting heap perm => exact Trace.Inv.firstNext heap perm
    | running heap root sorted perm => exact Trace.Inv.laterNext heap root sorted perm
    | finished sorted perm => exact ⟨_, rfl, .finished sorted perm⟩
  | addEv ev =>
    obtain ⟨hopen, hlate⟩ := hcall
    refine ⟨_, rfl, ?_⟩
    cases hs with
    | waiting heap perm =>
      exact .waiting (BinaryHeap.push_isHeap heap ev)
        ((BinaryHeap.push_perm _ ev).trans (perm.append_right [ev]))
    | running heap root sorted perm =>
      exact Trace.Inv.addRunning heap root sorted perm (hlate rfl _ root)
    | finished sorted perm => exact absurd rfl hopen

/-- Every admissible execution runs, and ends in such a state. -/
theorem Trace.Inv.exec (hs : s.Inv) {calls : List (Call T D)}
    (hcalls : Runs.AllSteps Trace.step Admissible s calls) :
    ∃ t, Runs.exec Trace.step s calls = some t ∧ t.Inv := by
  induction calls generalizing s with
  | nil => exact ⟨s, rfl, hs⟩
  | cons call calls ih =>
    obtain ⟨hfirst, hrest⟩ := Runs.allSteps_cons_iff.mp hcalls
    obtain ⟨s', hstep, hs'⟩ := hs.step hfirst
    obtain ⟨t, ht, htInv⟩ := ih hs' (hrest s' hstep)
    exact ⟨t, Runs.exec_cons_eq_some.mpr ⟨s', hstep, ht⟩, htInv⟩

theorem Trace.Inv.subperm (hs : s.Inv) : s.currents.Subperm s.added := by
  cases hs with
  | waiting heap perm => exact List.nil_subperm
  | @running q _ earlier cur heap root sorted perm =>
    refine List.Subperm.trans ?_ perm.subperm
    have hcur : cur ∈ q.toList := by simpa using Array.mem_of_getElem? root
    exact (List.subperm_append_left earlier).mpr (List.singleton_subperm_iff.mpr hcur)
  | finished sorted perm => exact perm.subperm

theorem Trace.Inv.inOrder (hs : s.Inv) : InOrder s.currents := by
  cases hs with
  | waiting heap perm => exact List.Pairwise.nil
  | running heap root sorted perm => exact sorted
  | finished sorted perm => exact sorted

theorem Trace.Inv.perm (hs : s.Inv) (hend : s.returned = some false) :
    s.currents.Perm s.added := by
  cases hs with
  | waiting heap perm => cases hend
  | running heap root sorted perm => cases hend
  | finished sorted perm => exact perm

/-- How often `Next` can still be called before it returns false. -/
def Loop.callsLeft (l : Loop T D) : ℕ :=
  if l.sawFirst then l.q.size else l.q.size + 1

theorem Loop.next_callsLeft (l : Loop T D) :
    l.next.1.callsLeft = l.callsLeft - 1 ∧ l.next.2 = decide (0 < l.next.1.callsLeft) := by
  unfold Loop.next
  split_ifs with hfirst hne
  · simp_all [Loop.callsLeft]
  · have hsize : (BinaryHeap.pop Event.unixSec l.q hne).size + 1 = l.q.size := by
      simpa using (@BinaryHeap.pop_perm _ _ _ Event.unixSec l.q hne).length_eq
    simp_all [Loop.callsLeft]
    omega
  · simp_all [Loop.callsLeft]

theorem Trace.step_next {s t : Trace T D} (h : s.step .next = some t) :
    t.loop.callsLeft = s.loop.callsLeft - 1 ∧
      t.returned = some (decide (0 < t.loop.callsLeft)) ∧ t.added = s.added := by
  obtain ⟨hleft, hmore⟩ := s.loop.next_callsLeft
  simp only [Trace.step] at h
  split_ifs at h with hreturned
  · obtain ⟨cur, -, rfl⟩ := Option.map_eq_some_iff.mp h
    exact ⟨hleft, by rw [← hmore, hreturned], rfl⟩
  · cases h
    exact ⟨hleft, by rw [← hmore]; simpa using hreturned, rfl⟩

theorem Trace.exec_next_ends {k : ℕ} {s t : Trace T D} (hk : s.loop.callsLeft ≤ k + 1)
    (hrun : Runs.exec Trace.step s (List.replicate (k + 1) .next) = some t) :
    t.returned = some false ∧ t.added = s.added := by
  induction k generalizing s with
  | zero =>
    obtain ⟨s', hstep, hrest⟩ := Runs.exec_cons_eq_some.mp hrun
    cases hrest
    obtain ⟨hleft, hreturned, hadded⟩ := Trace.step_next hstep
    have hzero : t.loop.callsLeft = 0 := by omega
    exact ⟨by rw [hreturned, hzero]; rfl, hadded⟩
  | succ k ih =>
    obtain ⟨s', hstep, hrest⟩ := Runs.exec_cons_eq_some.mp hrun
    obtain ⟨hleft, -, hadded⟩ := Trace.step_next hstep
    obtain ⟨hend, hsame⟩ := ih (by omega) hrest
    exact ⟨hend, hsame.trans hadded⟩

theorem admissible_replicate_next (s : Trace T D) (k : ℕ) :
    Runs.AllSteps Trace.step Admissible s (List.replicate k .next) := by
  intro pre call s' hpre _
  have hmem : call ∈ List.replicate k Call.next := hpre.subset (by simp)
  rw [List.eq_of_mem_replicate hmem]
  trivial

/--
An admissible execution never reads the root of an empty heap; the times of the current
events do not decrease; each event added is current at most once, and exactly once when
`Next` has returned false; and calls of `Next` alone reach that point.
-/
theorem loop_delivers_once (calls : List (Call T D))
    (hcalls : Runs.AllSteps Trace.step Admissible {} calls) :
    ∃ t, Runs.exec Trace.step {} calls = some t ∧ InOrder t.currents ∧
      t.currents.Subperm t.added ∧ (t.returned = some false → t.currents.Perm t.added) ∧
      ∃ t', Runs.exec Trace.step t (List.replicate (t.loop.q.size + 1) .next) = some t' ∧
        t'.returned = some false ∧ t'.currents.Perm t.added := by
  obtain ⟨t, hrun, ht⟩ := inv_start.exec hcalls
  refine ⟨t, hrun, ht.inOrder, ht.subperm, ht.perm, ?_⟩
  obtain ⟨t', hrun', ht'⟩ := ht.exec (admissible_replicate_next t _)
  have hleft : t.loop.callsLeft ≤ t.loop.q.size + 1 := by
    unfold Loop.callsLeft
    split_ifs <;> omega
  obtain ⟨hend, hadded⟩ := Trace.exec_next_ends hleft hrun'
  exact ⟨t', hrun', hend, hadded ▸ ht'.perm hend⟩

/-- Three events, one of them added while an event of the same time is current. -/
theorem loop_delivers_once_three :
    Runs.AllSteps Trace.step Admissible ({} : Trace ℤ ℕ)
        [.addEv ⟨3, 0⟩, .addEv ⟨1, 1⟩, .next, .addEv ⟨1, 2⟩, .next, .next] ∧
      ∃ t : Trace ℤ ℕ, Runs.exec Trace.step {}
        [.addEv ⟨3, 0⟩, .addEv ⟨1, 1⟩, .next, .addEv ⟨1, 2⟩, .next, .next] = some t ∧
        InOrder t.currents := by
  have hcalls : Runs.AllSteps Trace.step Admissible ({} : Trace ℤ ℕ)
      [.addEv ⟨3, 0⟩, .addEv ⟨1, 1⟩, .next, .addEv ⟨1, 2⟩, .next, .next] := by
    decide +kernel
  obtain ⟨t, hrun, hsorted, -⟩ := loop_delivers_once _ hcalls
  exact ⟨hcalls, t, hrun, hsorted⟩

end Runs

end EvalLoss
end HeypAgents
