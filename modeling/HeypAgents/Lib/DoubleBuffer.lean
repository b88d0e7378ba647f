import HeypAgents.Lib.Runs

/-!
# A double buffer behind one word

Any number of writers and one collector share two buffers and a word.  The word holds
the id of the active buffer, or nothing while a writer has it.  A writer takes the word
with a compare-and-exchange, pushes its batch into the active buffer and stores the id
back.  The collector clears the other buffer, switches the word to it with a
compare-and-exchange and then reads the buffer that was active.  Every access to the
word or to a buffer is one step, and the steps interleave freely.

In every reachable state no buffer is written while it is cleared or read, and the
batches that writers have finished are, in the order in which they were finished, those
of the collections so far followed by those in the active buffer.
-/

namespace HeypAgents
namespace DoubleBuffer

structure Ops (B β X : Type*) where
  empty : B
  pushes : β → List (B → B)
  clears : List (B → B)
  contents : B → List X
  clears_eq : ∀ b, clears.foldl (fun b f => f b) b = empty

inductive WriterPc (β : Type*) where
  | idle
  | load (batch : β)
  | exchange (batch : β) (cur : Fin 2)
  /-- The writer has the word and has made the first `k` pushes. -/
  | push (batch : β) (cur : Fin 2) (k : ℕ)

inductive CollectorPc (X : Type*) where
  | idle
  | load
  /-- The first `k` operations that clear the buffer after `cur` are done. -/
  | clear (cur : Fin 2) (k : ℕ)
  | read (cur : Fin 2) (got : List X)

def CollectorPc.isIdle {X : Type*} : CollectorPc X → Bool
  | .idle => true
  | _ => false

structure State (B β X ι : Type*) where
  active : Option (Fin 2)
  bufs : Fin 2 → B
  writers : ι → WriterPc β := fun _ => .idle
  collector : CollectorPc X := .idle
  /-- Batches of the writers that have returned. -/
  finished : List β := []
  /-- What the collections that have returned have read. -/
  collected : List (List X) := []

inductive Event (β ι : Type*) where
  | writerBegin (i : ι) (batch : β)
  | writer (i : ι)
  | collectorBegin
  | collector

section Steps

variable {B β X ι : Type*} [DecidableEq ι] (ops : Ops B β X)

def initial : State B β X ι where
  active := some 0
  bufs _ := ops.empty

def State.setWriter (s : State B β X ι) (i : ι) (pc : WriterPc β) : State B β X ι :=
  { s with writers := Function.update s.writers i pc }

def State.setBuf (s : State B β X ι) (c : Fin 2) (b : B) : State B β X ι :=
  { s with bufs := Function.update s.bufs c b }

def writerStep (s : State B β X ι) (i : ι) : Option (State B β X ι) :=
  match s.writers i with
  | .idle => none
  | .load batch =>
    match s.active with
    | none => some s
    | some cur => some (s.setWriter i (.exchange batch cur))
  | .exchange batch cur =>
    if s.active = some cur then
      some { s.setWriter i (.push batch cur 0) with active := none }
    else some (s.setWriter i (.load batch))
  | .push batch cur k =>
    match (ops.pushes batch)[k]? with
    | some f => some ((s.setBuf cur (f (s.bufs cur))).setWriter i (.push batch cur (k + 1)))
    | none => some { s.setWriter i .idle with
        active := some cur
        finished := s.finished ++ [batch] }

/-- The next access of the collector. -/
def collectorStep (s : State B β X ι) : Option (State B β X ι) :=
  match s.collector with
  | .idle => none
  | .load =>
    match s.active with
    | none => some s
    | some cur => some { s with collector := .clear cur 0 }
  | .clear cur k =>
    match ops.clears[k]? with
    | some f => some { s.setBuf (cur + 1) (f (s.bufs (cur + 1))) with
        collector := .clear cur (k + 1) }
    | none =>
      if s.active = some cur then
        some { s with active := some (cur + 1), collector := .read cur [] }
      else some { s with collector := .load }
  | .read cur got =>
    match (ops.contents (s.bufs cur))[got.length]? with
    | some x => some { s with collector := .read cur (got ++ [x]) }
    | none => some { s with collector := .idle, collected := s.collected ++ [got] }

def step (s : State B β X ι) : Event β ι → Option (State B β X ι)
  | .writerBegin i batch =>
    match s.writers i with
    | .idle => some (s.setWriter i (.load batch))
    | _ => none
  | .writer i => writerStep ops s i
  | .collectorBegin =>
    match s.collector with
    | .idle => some { s with collector := .load }
    | _ => none
  | .collector => collectorStep ops s

end Steps

section Accesses

variable {B β X ι : Type*}

def Writing (s : State B β X ι) (c : Fin 2) : Prop := ∃ i batch k, s.writers i = .push batch c k

def Clearing (s : State B β X ι) (c : Fin 2) : Prop :=
  ∃ cur k, s.collector = .clear cur k ∧ c = cur + 1

def Reading (s : State B β X ι) (c : Fin 2) : Prop := ∃ got, s.collector = .read c got

end Accesses

section Invariant

variable {B β X ι : Type*}

def applyAll (fs : List (B → B)) (b : B) : B := fs.foldl (fun b f => f b) b

theorem applyAll_take_succ {fs : List (B → B)} {k : ℕ} {f : B → B} (hf : fs[k]? = some f) (b : B) :
    applyAll (fs.take (k + 1)) b = f (applyAll (fs.take k) b) := by
  rw [List.take_add_one, hf]
  simp [applyAll]

def fill (ops : Ops B β X) (batches : List β) : B :=
  batches.foldl (fun b batch => applyAll (ops.pushes batch) b) ops.empty

theorem fill_concat (ops : Ops B β X) (batches : List β) (batch : β) :
    fill ops (batches ++ [batch]) = applyAll (ops.pushes batch) (fill ops batches) := by
  simp [fill]

theorem succ_ne (c : Fin 2) : c + 1 ≠ c := by
  revert c
  decide

/-- Where the finished batches are. -/
structure Ghost (β : Type*) where
  /-- The buffer that is active or that a writer has taken. -/
  side : Fin 2
  /-- The batches of each collection that has returned. -/
  taken : List (List β) := []
  /-- The batches in the buffer that is being read. -/
  inFlight : List β := []
  /-- The batches in the active buffer. -/
  current : List β := []

def CollectorInv (ops : Ops B β X) (s : State B β X ι) (g : Ghost β) : Prop :=
  match s.collector with
  | .idle => g.inFlight = []
  | .load => g.inFlight = []
  | .clear cur k => g.inFlight = [] ∧ cur = g.side ∧
      ∃ b, s.bufs (cur + 1) = applyAll (ops.clears.take k) b
  | .read cur got => g.side = cur + 1 ∧ s.bufs cur = fill ops g.inFlight ∧
      got <+: ops.contents (fill ops g.inFlight)

structure Inv (ops : Ops B β X) (s : State B β X ι) (g : Ghost β) : Prop where
  active : ∀ c, s.active = some c → c = g.side ∧ s.bufs c = fill ops g.current
  push : ∀ i batch c k, s.writers i = .push batch c k →
    s.active = none ∧ c = g.side ∧
      s.bufs c = applyAll ((ops.pushes batch).take k) (fill ops g.current)
  unique : ∀ i j batch batch' c c' k k', s.writers i = .push batch c k →
    s.writers j = .push batch' c' k' → i = j
  collector : CollectorInv ops s g
  finished : s.finished = g.taken.flatten ++ g.inFlight ++ g.current
  collected : s.collected = g.taken.map fun batches => ops.contents (fill ops batches)

variable {ops : Ops B β X} {s s' : State B β X ι} {g : Ghost β}

theorem inv_initial [DecidableEq ι] : Inv ops (initial ops : State B β X ι) { side := 0 } where
  active c hc := by
    cases hc
    exact ⟨rfl, rfl⟩
  push i batch c k h := by cases h
  unique i j batch batch' c c' k k' h := by cases h
  collector := rfl
  finished := rfl
  collected := rfl

theorem Inv.exclusive (h : Inv ops s g) {c : Fin 2} (hw : Writing s c) :
    ¬ Clearing s c ∧ ¬ Reading s c := by
  obtain ⟨i, batch, k, hpush⟩ := hw
  obtain ⟨-, rfl, -⟩ := h.push i batch c k hpush
  have hcollector := h.collector
  constructor
  · rintro ⟨cur, k', hclear, hc⟩
    rw [CollectorInv, hclear] at hcollector
    rw [hcollector.2.1] at hc
    exact succ_ne g.side hc.symm
  · rintro ⟨got, hread⟩
    rw [CollectorInv, hread] at hcollector
    exact succ_ne g.side hcollector.1.symm

theorem Inv.not_push_of_active
    (h : Inv ops s g) {c : Fin 2} (hc : s.active = some c) (i : ι) (batch : β) (c' : Fin 2)
    (k : ℕ) : s.writers i ≠ .push batch c' k := by
  intro hpush
  rw [(h.push i batch c' k hpush).1] at hc
  cases hc

theorem CollectorInv.congr (h : CollectorInv ops s g) {t : State B β X ι} {current : List β}
    (hcollector : t.collector = s.collector) (hbufs : ∀ c, c ≠ g.side → t.bufs c = s.bufs c) :
    CollectorInv ops t { g with current := current } := by
  unfold CollectorInv at h ⊢
  rw [hcollector]
  cases hc : s.collector with
  | idle =>
    rw [hc] at h
    exact h
  | load =>
    rw [hc] at h
    exact h
  | clear cur k =>
    rw [hc] at h
    obtain ⟨hflight, hcur, b, hb⟩ := h
    exact ⟨hflight, hcur, b, by rw [hbufs _ (hcur ▸ succ_ne cur), hb]⟩
  | read cur got =>
    rw [hc] at h
    obtain ⟨hside, hbuf, hgot⟩ := h
    exact ⟨hside, by rw [hbufs _ (hside ▸ (succ_ne cur).symm), hbuf], hgot⟩

end Invariant

section Writers

variable {B β X ι : Type*} [DecidableEq ι] {ops : Ops B β X} {s s' : State B β X ι} {g : Ghost β}

theorem push_of_update
    {writers : ι → WriterPc β} {i j : ι} {pc : WriterPc β} {batch : β} {c : Fin 2} {k : ℕ}
    (hj : Function.update writers i pc j = .push batch c k) :
    (j = i ∧ pc = .push batch c k) ∨ (j ≠ i ∧ writers j = .push batch c k) := by
  by_cases hij : j = i
  · subst hij
    exact .inl ⟨rfl, by simpa using hj⟩
  · exact .inr ⟨hij, by rwa [Function.update_of_ne hij] at hj⟩

theorem Inv.setWriter
    (h : Inv ops s g) (i : ι) {pc : WriterPc β} (hpc : ∀ batch c k, pc ≠ .push batch c k) :
    Inv ops (s.setWriter i pc) g := by
  have hold : ∀ j batch c k, (s.setWriter i pc).writers j = .push batch c k →
      s.writers j = .push batch c k := by
    intro j batch c k hj
    rcases push_of_update hj with ⟨-, hpush⟩ | ⟨-, hpush⟩
    · exact absurd hpush (hpc batch c k)
    · exact hpush
  refine ⟨h.active, ?_, ?_, h.collector, h.finished, h.collected⟩
  · intro j batch c k hj
    exact h.push j batch c k (hold j batch c k hj)
  · intro j j' batch batch' c c' k k' hj hj'
    exact h.unique j j' batch batch' c c' k k' (hold _ _ _ _ hj) (hold _ _ _ _ hj')

theorem Inv.exchange
    (h : Inv ops s g) (i : ι) (batch : β) {cur : Fin 2} (hcur : s.active = some cur) :
    Inv ops { s.setWriter i (.push batch cur 0) with active := none } g := by
  obtain ⟨hside, hbuf⟩ := h.active cur hcur
  have honly : ∀ j batch' c k,
      Function.update s.writers i (.push batch cur 0) j = .push batch' c k →
        j = i ∧ batch' = batch ∧ c = cur ∧ k = 0 := by
    intro j batch' c k hj
    rcases push_of_update hj with ⟨rfl, ⟨⟩⟩ | ⟨-, hpush⟩
    · exact ⟨rfl, rfl, rfl, rfl⟩
    · exact absurd hpush (h.not_push_of_active hcur j batch' c k)
  refine ⟨fun c hc => absurd hc (by simp), ?_, ?_, h.collector, h.finished, h.collected⟩
  · intro j batch' c k hj
    obtain ⟨rfl, rfl, rfl, rfl⟩ := honly j batch' c k hj
    exact ⟨rfl, hside, hbuf⟩
  · intro j j' batch₁ batch₂ c c' k k' hj hj'
    rw [(honly j _ _ _ hj).1, (honly j' _ _ _ hj').1]

theorem Inv.pushOne (h : Inv ops s g) {i : ι} {batch : β} {cur : Fin 2} {k : ℕ} {f : B → B}
    (hi : s.writers i = .push batch cur k) (hf : (ops.pushes batch)[k]? = some f) :
    Inv ops ((s.setBuf cur (f (s.bufs cur))).setWriter i (.push batch cur (k + 1))) g := by
  obtain ⟨hnone, rfl, hbuf⟩ := h.push i batch cur k hi
  have honly : ∀ j batch' c k',
      Function.update s.writers i (.push batch g.side (k + 1)) j = .push batch' c k' →
        j = i ∧ batch' = batch ∧ c = g.side ∧ k' = k + 1 := by
    intro j batch' c k' hj
    rcases push_of_update hj with ⟨rfl, ⟨⟩⟩ | ⟨hij, hpush⟩
    · exact ⟨rfl, rfl, rfl, rfl⟩
    · exact absurd (h.unique _ _ _ _ _ _ _ _ hpush hi) hij
  refine ⟨fun c hc => ?_, ?_, ?_, ?_, h.finished, h.collected⟩
  · exact absurd (hnone.symm.trans hc) (by simp)
  · intro j batch' c k' hj
    obtain ⟨rfl, rfl, rfl, rfl⟩ := honly j batch' c k' hj
    refine ⟨hnone, rfl, ?_⟩
    rw [applyAll_take_succ hf, ← hbuf]
    simp [State.setWriter, State.setBuf]
  · intro j j' batch₁ batch₂ c c' k₁ k₂ hj hj'
    rw [(honly j _ _ _ hj).1, (honly j' _ _ _ hj').1]
  · exact h.collector.congr rfl fun c hc => by
      simp [State.setWriter, State.setBuf, Function.update_of_ne hc]

theorem Inv.store (h : Inv ops s g) {i : ι} {batch : β} {cur : Fin 2} {k : ℕ}
    (hi : s.writers i = .push batch cur k) (hk : (ops.pushes batch)[k]? = none) :
    Inv ops { s.setWriter i .idle with active := some cur, finished := s.finished ++ [batch] }
      { g with current := g.current ++ [batch] } := by
  obtain ⟨-, rfl, hbuf⟩ := h.push i batch cur k hi
  have hnone : ∀ j batch' c k', Function.update s.writers i .idle j ≠ .push batch' c k' := by
    intro j batch' c k' hj
    rcases push_of_update hj with ⟨-, hpush⟩ | ⟨hij, hpush⟩
    · cases hpush
    · exact hij (h.unique _ _ _ _ _ _ _ _ hpush hi)
  refine ⟨fun c hc => ?_, ?_, ?_, h.collector.congr rfl fun _ _ => rfl, ?_, h.collected⟩
  · obtain rfl : g.side = c := by simpa using hc
    refine ⟨rfl, ?_⟩
    rw [fill_concat, ← List.take_of_length_le (List.getElem?_eq_none_iff.mp hk)]
    exact hbuf
  · intro j batch' c k' hj
    exact absurd hj (hnone j batch' c k')
  · intro j j' batch₁ batch₂ c c' k₁ k₂ hj
    exact absurd hj (hnone j batch₁ c k₁)
  · simp [h.finished]

theorem inv_writerStep (h : Inv ops s g) {i : ι} (hs : writerStep ops s i = some s') :
    ∃ g', Inv ops s' g' := by
  unfold writerStep at hs
  cases hi : s.writers i with
  | idle => simp [hi] at hs
  | load batch =>
    cases hactive : s.active with
    | none =>
      obtain rfl : s = s' := by simpa [hi, hactive] using hs
      exact ⟨g, h⟩
    | some cur =>
      obtain rfl : s.setWriter i (.exchange batch cur) = s' := by
        simpa [hi, hactive] using hs
      exact ⟨g, h.setWriter i (by simp)⟩
  | exchange batch cur =>
    by_cases hactive : s.active = some cur
    · obtain rfl : { s.setWriter i (.push batch cur 0) with active := none } = s' := by
        simpa [hi, hactive] using hs
      exact ⟨g, h.exchange i batch hactive⟩
    · obtain rfl : s.setWriter i (.load batch) = s' := by simpa [hi, hactive] using hs
      exact ⟨g, h.setWriter i (by simp)⟩
  | push batch cur k =>
    cases hk : (ops.pushes batch)[k]? with
    | some f =>
      simp only [hi, hk, Option.some.injEq] at hs
      exact ⟨g, hs ▸ h.pushOne hi hk⟩
    | none =>
      simp only [hi, hk, Option.some.injEq] at hs
      exact ⟨_, hs ▸ h.store hi hk⟩

end Writers

section Collector

variable {B β X ι : Type*} {ops : Ops B β X} {s s' : State B β X ι} {g : Ghost β}

theorem Inv.clearOne (h : Inv ops s g) {cur : Fin 2} {k : ℕ} {f : B → B}
    (hc : s.collector = .clear cur k) (hf : ops.clears[k]? = some f) :
    Inv ops
      { s.setBuf (cur + 1) (f (s.bufs (cur + 1))) with collector := .clear cur (k + 1) } g := by
  have hcollector := h.collector
  rw [CollectorInv, hc] at hcollector
  obtain ⟨hflight, rfl, b, hb⟩ := hcollector
  have hbufs : ∀ c, c = g.side →
      Function.update s.bufs (g.side + 1) (f (s.bufs (g.side + 1))) c = s.bufs c := by
    rintro c rfl
    exact Function.update_of_ne (succ_ne g.side).symm _ _
  refine ⟨fun c hactive => ?_, fun i batch c k' hi => ?_, h.unique, ⟨hflight, rfl, b, ?_⟩,
    h.finished, h.collected⟩
  · obtain ⟨hside, hbuf⟩ := h.active c hactive
    exact ⟨hside, (hbufs c hside).trans hbuf⟩
  · obtain ⟨hnone, hside, hbuf⟩ := h.push i batch c k' hi
    exact ⟨hnone, hside, (hbufs c hside).trans hbuf⟩
  · rw [applyAll_take_succ hf, ← hb]
    exact Function.update_self _ _ _

theorem Inv.switch (h : Inv ops s g) {cur : Fin 2} {k : ℕ}
    (hc : s.collector = .clear cur k) (hk : ops.clears[k]? = none) (hactive : s.active = some cur) :
    Inv ops { s with active := some (cur + 1), collector := .read cur [] }
      { g with side := cur + 1, inFlight := g.current, current := [] } := by
  have hcollector := h.collector
  rw [CollectorInv, hc] at hcollector
  obtain ⟨hflight, -, b, hb⟩ := hcollector
  refine ⟨fun c hc' => ?_, fun i batch c k' hi => ?_, h.unique, ⟨rfl, (h.active cur hactive).2,
    List.nil_prefix⟩, ?_, h.collected⟩
  · obtain rfl : cur + 1 = c := by simpa using hc'
    refine ⟨rfl, hb.trans ?_⟩
    rw [List.take_of_length_le (List.getElem?_eq_none_iff.mp hk)]
    exact ops.clears_eq b
  · exact absurd hi (h.not_push_of_active hactive i batch c k')
  · simp [h.finished, hflight]

theorem Inv.setCollector (h : Inv ops s g) (pc : CollectorPc X)
    (hpc : CollectorInv ops { s with collector := pc } g) : Inv ops { s with collector := pc } g :=
  ⟨h.active, h.push, h.unique, hpc, h.finished, h.collected⟩

theorem Inv.collect (h : Inv ops s g) {cur : Fin 2} {got : List X}
    (hc : s.collector = .read cur got) (hend : (ops.contents (s.bufs cur))[got.length]? = none) :
    Inv ops { s with collector := .idle, collected := s.collected ++ [got] }
      { g with taken := g.taken ++ [g.inFlight], inFlight := [] } := by
  have hcollector := h.collector
  rw [CollectorInv, hc] at hcollector
  obtain ⟨-, hbuf, hgot⟩ := hcollector
  rw [hbuf] at hend
  have hall : got = ops.contents (fill ops g.inFlight) :=
    hgot.eq_of_length_le (List.getElem?_eq_none_iff.mp hend)
  refine ⟨h.active, h.push, h.unique, rfl, ?_, ?_⟩
  · simp [h.finished]
  · simp [h.collected, ← hall]

theorem inv_collectorStep (h : Inv ops s g) (hs : collectorStep ops s = some s') :
    ∃ g', Inv ops s' g' := by
  have hcollector := h.collector
  unfold collectorStep at hs
  unfold CollectorInv at hcollector
  cases hc : s.collector with
  | idle => simp [hc] at hs
  | load =>
    rw [hc] at hcollector
    cases hactive : s.active with
    | none =>
      obtain rfl : s = s' := by simpa [hc, hactive] using hs
      exact ⟨g, h⟩
    | some cur =>
      obtain rfl : { s with collector := .clear cur 0 } = s' := by
        simpa [hc, hactive] using hs
      exact ⟨g, h.setCollector _ ⟨hcollector, (h.active cur hactive).1, _, rfl⟩⟩
  | clear cur k =>
    rw [hc] at hcollector
    cases hk : ops.clears[k]? with
    | some f =>
      simp only [hc, hk, Option.some.injEq] at hs
      exact ⟨g, hs ▸ h.clearOne hc hk⟩
    | none =>
      by_cases hactive : s.active = some cur
      · simp only [hc, hk, if_pos hactive, Option.some.injEq] at hs
        exact ⟨_, hs ▸ h.switch hc hk hactive⟩
      · simp only [hc, hk, if_neg hactive, Option.some.injEq] at hs
        exact ⟨g, hs ▸ h.setCollector _ hcollector.1⟩
  | read cur got =>
    rw [hc] at hcollector
    obtain ⟨hside, hbuf, hgot⟩ := hcollector
    cases hx : (ops.contents (s.bufs cur))[got.length]? with
    | some x =>
      simp only [hc, hx, Option.some.injEq] at hs
      refine ⟨g, hs ▸ h.setCollector _ ⟨hside, hbuf, ?_⟩⟩
      rw [hbuf] at hx
      obtain ⟨rest, hrest⟩ := hgot
      rw [← hrest, List.getElem?_append_right le_rfl, Nat.sub_self] at hx
      obtain ⟨tail, rfl⟩ : ∃ tail, rest = x :: tail := by
        cases rest with
        | nil => simp at hx
        | cons y tail => exact ⟨tail, by simpa using hx⟩
      exact ⟨tail, by rw [← hrest]; simp⟩
    | none =>
      simp only [hc, hx, Option.some.injEq] at hs
      exact ⟨_, hs ▸ h.collect hc hx⟩

end Collector

theorem inv_step
    {B β X ι : Type*} [DecidableEq ι] {ops : Ops B β X} {s s' : State B β X ι} {g : Ghost β}
    (h : Inv ops s g) {e : Event β ι} (hs : step ops s e = some s') : ∃ g', Inv ops s' g' := by
  cases e with
  | writerBegin i batch =>
    simp only [step] at hs
    cases hi : s.writers i with
    | idle =>
      obtain rfl : s.setWriter i (.load batch) = s' := by simpa [hi] using hs
      exact ⟨g, h.setWriter i (by simp)⟩
    | load | exchange | push => simp [hi] at hs
  | writer i => exact inv_writerStep h hs
  | collectorBegin =>
    have hcollector := h.collector
    simp only [step] at hs
    unfold CollectorInv at hcollector
    cases hc : s.collector with
    | idle =>
      rw [hc] at hcollector
      obtain rfl : { s with collector := .load } = s' := by simpa [hc] using hs
      exact ⟨g, h.setCollector _ hcollector⟩
    | load | clear | read => simp [hc] at hs
  | collector => exact inv_collectorStep h hs

section Frames

variable {B β X ι : Type*} [DecidableEq ι] {ops : Ops B β X} {s s' : State B β X ι}

theorem writer_frame
    {e : Event β ι} (he : (∃ i batch, e = .writerBegin i batch) ∨ ∃ i, e = .writer i)
    (hs : step ops s e = some s') : s'.collector = s.collector ∧ s'.collected = s.collected := by
  rcases he with ⟨i, batch, rfl⟩ | ⟨i, rfl⟩
  · simp only [step] at hs
    split at hs
    · cases hs
      exact ⟨rfl, rfl⟩
    · cases hs
  · simp only [step, writerStep] at hs
    split at hs
    · cases hs
    · split at hs <;> cases hs <;> exact ⟨rfl, rfl⟩
    · split_ifs at hs <;> cases hs <;> exact ⟨rfl, rfl⟩
    · split at hs <;> cases hs <;> exact ⟨rfl, rfl⟩

theorem collector_cases (hs : step ops s .collector = some s') :
    s.collector.isIdle = false ∧
      ((s'.collector.isIdle = false ∧ s'.collected = s.collected) ∨
        (s'.collector.isIdle = true ∧ ∃ got, s'.collected = s.collected ++ [got])) := by
  simp only [step, collectorStep] at hs
  cases hc : s.collector with
  | idle => simp [hc] at hs
  | load =>
    refine ⟨rfl, .inl ?_⟩
    rw [hc] at hs
    dsimp only at hs
    split at hs <;> cases hs
    · exact ⟨by rw [hc]; rfl, rfl⟩
    · exact ⟨rfl, rfl⟩
  | clear cur k =>
    refine ⟨rfl, .inl ?_⟩
    rw [hc] at hs
    dsimp only at hs
    split at hs
    · cases hs
      exact ⟨rfl, rfl⟩
    · split_ifs at hs <;> cases hs <;> exact ⟨rfl, rfl⟩
  | read cur got =>
    refine ⟨rfl, ?_⟩
    rw [hc] at hs
    dsimp only at hs
    split at hs <;> cases hs
    · exact .inl ⟨rfl, rfl⟩
    · exact .inr ⟨rfl, got, rfl⟩

theorem collectorBegin_of_isIdle (h : s.collector.isIdle = true) :
    step ops s .collectorBegin = some { s with collector := .load } := by
  cases hc : s.collector with
  | idle => simp [step, hc]
  | load | clear | read => simp [hc, CollectorPc.isIdle] at h

end Frames

end DoubleBuffer
end HeypAgents
