import Mathlib.Algebra.Order.Ring.Nat
import Mathlib.Data.List.Lemmas

/-!
# Merging streams by time

Each stream delivers entries in increasing order of time, and then either ends or gets
stuck.  The merge takes the smallest time at the heads, pops it from the streams that have
it, and puts out one row with the last value of every stream, once all streams have had
one.  It ends when a stream has ended; it is stuck when no stream has ended and one is
stuck.

The rows are determined by the entries alone: there is one for every time of an entry from
the first time at which all streams have had an entry to the last time up to which no stream
is exhausted.
-/

namespace HeypAgents
namespace StreamMerge

variable {T D : Type*} [LinearOrder T]

structure Stream (T D : Type*) where
  entries : List (T × D)
  stuck : Bool
  last : Option D := none

namespace Stream

def Sorted (s : Stream T D) : Prop := s.entries.Pairwise fun x y => x.1 < y.1

def Ended (s : Stream T D) : Prop := s.entries = [] ∧ s.stuck = false

/-- Take the entry of time `t` if it is next. -/
def pop (t : T) (s : Stream T D) : Stream T D :=
  match s.entries with
  | x :: rest => if x.1 = t then { s with entries := rest, last := some x.2 } else s
  | [] => s

/-- The value at time `t`: that of the last entry up to `t`. -/
def valueAt (t : T) (s : Stream T D) : Option D :=
  (((s.entries.filter fun x => x.1 ≤ t).getLast?).map Prod.snd).or s.last

omit [LinearOrder T] in
theorem stuck_of_not_ended {s : Stream T D} (h : ¬ s.Ended) (hempty : s.entries = []) :
    s.stuck = true := by
  by_contra hstuck
  exact h ⟨hempty, Bool.of_not_eq_true hstuck⟩

end Stream

/-- The smallest time at the heads. -/
def IsNext (t : T) (ss : List (Stream T D)) : Prop :=
  (∃ s ∈ ss, ∃ x rest, s.entries = x :: rest ∧ x.1 = t) ∧
    ∀ s ∈ ss, ∃ x rest, s.entries = x :: rest ∧ t ≤ x.1

def row (ss : List (Stream T D)) : Option (List D) := ss.mapM Stream.last

def emit (t : T) (ss : List (Stream T D)) (rows : List (T × List D)) : List (T × List D) :=
  match row ss with
  | some values => (t, values) :: rows
  | none => rows

inductive Run : List (Stream T D) → List (T × List D) → Bool → Prop
  | empty : Run [] [] false
  | ended {ss : List (Stream T D)} (h : ∃ s ∈ ss, s.Ended) : Run ss [] false
  | stuck {ss : List (Stream T D)} (hnot : ∀ s ∈ ss, ¬ s.Ended)
      (h : ∃ s ∈ ss, s.entries = []) : Run ss [] true
  | pass {ss : List (Stream T D)} {t : T} {rows : List (T × List D)} {stuck : Bool}
      (hnext : IsNext t ss) (hrest : Run (ss.map (Stream.pop t)) rows stuck) :
      Run ss (emit t (ss.map (Stream.pop t)) rows) stuck

section Pop

variable {s : Stream T D} {t u : T}

/-- The stream is at a head that is not before `t`. -/
def Ahead (t : T) (s : Stream T D) : Prop := ∃ x rest, s.entries = x :: rest ∧ t ≤ x.1

theorem mem_pop (hs : s.Sorted) (ht : Ahead t s) {y : T × D} :
    y ∈ (s.pop t).entries ↔ y ∈ s.entries ∧ t < y.1 := by
  obtain ⟨x, rest, hentries, hle⟩ := ht
  have hsorted : (x :: rest).Pairwise fun x y => x.1 < y.1 := hentries ▸ hs
  have hlater := (List.pairwise_cons.mp hsorted).1
  simp only [Stream.pop, hentries]
  split_ifs with hx
  · constructor
    · intro hy
      exact ⟨List.mem_cons_of_mem x hy, hx ▸ hlater y hy⟩
    · rintro ⟨hy, hlt⟩
      rcases List.mem_cons.mp hy with rfl | hy
      · exact absurd hlt (hx ▸ lt_irrefl _)
      · exact hy
  · rw [hentries]
    refine ⟨fun hy => ⟨hy, ?_⟩, And.left⟩
    have hlt : t < x.1 := lt_of_le_of_ne hle (Ne.symm hx)
    rcases List.mem_cons.mp hy with rfl | hy
    · exact hlt
    · exact hlt.trans (hlater y hy)

theorem sorted_pop (hs : s.Sorted) : (s.pop t).Sorted := by
  unfold Stream.pop
  split
  · rename_i x rest hentries
    have hsorted : (x :: rest).Pairwise fun x y => x.1 < y.1 := hentries ▸ hs
    split_ifs
    · exact hsorted.of_cons
    · exact hs
  · exact hs

theorem stuck_pop : (s.pop t).stuck = s.stuck := by
  unfold Stream.pop
  split
  · split_ifs <;> rfl
  · rfl

theorem last_pop (hs : s.Sorted) (ht : Ahead t s) : (s.pop t).last = s.valueAt t := by
  obtain ⟨x, rest, hentries, hle⟩ := ht
  have hsorted : (x :: rest).Pairwise fun x y => x.1 < y.1 := hentries ▸ hs
  have hrest : (rest.filter fun y => y.1 ≤ t) = [] := by
    refine List.filter_eq_nil_iff.mpr fun y hy => ?_
    simpa using hle.trans_lt ((List.pairwise_cons.mp hsorted).1 y hy)
  simp only [Stream.pop, Stream.valueAt, hentries]
  by_cases hx : x.1 = t
  · rw [if_pos hx, List.filter_cons_of_pos (by simpa using hx.le), hrest]
    rfl
  · have hlt : t < x.1 := lt_of_le_of_ne hle (Ne.symm hx)
    rw [if_neg hx, List.filter_cons_of_neg (by simpa using hlt), hrest]
    rfl

theorem valueAt_pop (ht : Ahead t s) (htu : t ≤ u) : (s.pop t).valueAt u = s.valueAt u := by
  obtain ⟨x, rest, hentries, hle⟩ := ht
  by_cases hx : x.1 = t
  · have hpop : s.pop t = { s with entries := rest, last := some x.2 } := by
      simp [Stream.pop, hentries, hx]
    rw [hpop, Stream.valueAt, Stream.valueAt, hentries,
      List.filter_cons_of_pos (by simpa [hx] using htu), List.getLast?_cons]
    cases (rest.filter fun y => y.1 ≤ u).getLast? <;> rfl
  · have hpop : s.pop t = s := by simp [Stream.pop, hentries, hx]
    rw [hpop]

end Pop

section Rows

variable {ss : List (Stream T D)} {t u : T} {rows : List (T × List D)} {stuck : Bool}

/-- A row is due at a time of an entry at which all streams have a value and none is
exhausted. -/
def Due (ss : List (Stream T D)) (t : T) : Prop :=
  (∃ s ∈ ss, ∃ x ∈ s.entries, x.1 = t) ∧
    ∀ s ∈ ss, (s.last.isSome ∨ ∃ x ∈ s.entries, x.1 ≤ t) ∧ ∃ x ∈ s.entries, t ≤ x.1

omit [LinearOrder T] in
theorem row_isSome_iff : (row ss).isSome ↔ ∀ s ∈ ss, s.last.isSome := by
  unfold row
  induction ss with
  | nil => simp
  | cons s ss ih =>
    rw [List.mapM_cons, List.forall_mem_cons, ← ih]
    cases s.last <;> cases ss.mapM Stream.last <;> simp

theorem isSome_valueAt {s : Stream T D} :
    (s.valueAt t).isSome ↔ s.last.isSome ∨ ∃ x ∈ s.entries, x.1 ≤ t := by
  have hfilter : ((s.entries.filter fun x => x.1 ≤ t).getLast?).isSome ↔
      ∃ x ∈ s.entries, x.1 ≤ t := by
    simp
  rw [← hfilter, Stream.valueAt]
  cases (s.entries.filter fun x => x.1 ≤ t).getLast? <;> simp

theorem due_now (hs : ∀ s ∈ ss, s.Sorted) (hnext : IsNext t ss) :
    Due ss t ↔ (row (ss.map (Stream.pop t))).isSome := by
  rw [row_isSome_iff, List.forall_mem_map]
  constructor
  · rintro ⟨-, hall⟩ s hmem
    rw [last_pop (hs s hmem) (hnext.2 s hmem), isSome_valueAt]
    exact (hall s hmem).1
  · intro hall
    obtain ⟨⟨s, hmem, x, rest, hentries, hx⟩, hahead⟩ := hnext
    refine ⟨⟨s, hmem, x, by simp [hentries], hx⟩, fun q hq => ⟨?_, ?_⟩⟩
    · rw [← isSome_valueAt, ← last_pop (hs q hq) (hahead q hq)]
      exact hall q hq
    · obtain ⟨y, rest', hentries', hle⟩ := hahead q hq
      exact ⟨y, by simp [hentries'], hle⟩

theorem due_later (hs : ∀ s ∈ ss, s.Sorted) (hnext : IsNext t ss) :
    Due (ss.map (Stream.pop t)) u ↔ t < u ∧ Due ss u := by
  have hmem : ∀ s ∈ ss, ∀ y, y ∈ (s.pop t).entries ↔ y ∈ s.entries ∧ t < y.1 :=
    fun s hmem y => mem_pop (hs s hmem) (hnext.2 s hmem)
  have hmap : (∃ s ∈ ss.map (Stream.pop t), ∃ x ∈ s.entries, x.1 = u) ↔
      ∃ s ∈ ss, ∃ x ∈ (s.pop t).entries, x.1 = u := by
    simp only [List.mem_map, exists_exists_and_eq_and]
  unfold Due
  rw [hmap, List.forall_mem_map]
  constructor
  · rintro ⟨⟨s, hsmem, x, hx, rfl⟩, hall⟩
    obtain ⟨hx, htx⟩ := (hmem s hsmem x).mp hx
    refine ⟨htx, ⟨s, hsmem, x, hx, rfl⟩, fun q hq => ?_⟩
    obtain ⟨hvalue, y, hy, hle⟩ := hall q hq
    refine ⟨?_, y, ((hmem q hq y).mp hy).1, hle⟩
    rw [← isSome_valueAt, ← valueAt_pop (hnext.2 q hq) htx.le, isSome_valueAt]
    exact hvalue
  · rintro ⟨htu, ⟨s, hsmem, x, hx, rfl⟩, hall⟩
    refine ⟨⟨s, hsmem, x, (hmem s hsmem x).mpr ⟨hx, htu⟩, rfl⟩, fun q hq => ?_⟩
    obtain ⟨hvalue, y, hy, hle⟩ := hall q hq
    refine ⟨?_, y, (hmem q hq y).mpr ⟨hy, htu.trans_le hle⟩, hle⟩
    rw [← isSome_valueAt, valueAt_pop (hnext.2 q hq) htu.le, isSome_valueAt]
    exact hvalue

theorem le_of_due (hs : ∀ s ∈ ss, s.Sorted) (hnext : IsNext t ss) (hu : Due ss u) : t ≤ u := by
  obtain ⟨⟨s, hmem, x, hx, rfl⟩, -⟩ := hu
  obtain ⟨y, rest, hentries, hle⟩ := hnext.2 s hmem
  have hsorted : (y :: rest).Pairwise fun x y => x.1 < y.1 := hentries ▸ hs s hmem
  rw [hentries] at hx
  rcases List.mem_cons.mp hx with rfl | hx
  · exact hle
  · exact hle.trans ((List.pairwise_cons.mp hsorted).1 x hx).le

theorem mapM_congr {α β : Type*} {f g : α → Option β} {xs : List α} (h : ∀ x ∈ xs, f x = g x) :
    xs.mapM f = xs.mapM g := by
  induction xs with
  | nil => rfl
  | cons x xs ih =>
    rw [List.mapM_cons, List.mapM_cons, h x List.mem_cons_self,
      ih fun y hy => h y (List.mem_cons_of_mem x hy)]

theorem not_due_of_empty {s : Stream T D} (hmem : s ∈ ss) (hempty : s.entries = []) (t : T) :
    ¬ Due ss t := by
  rintro ⟨-, hall⟩
  obtain ⟨x, hx, -⟩ := (hall s hmem).2
  simp [hempty] at hx

/-- The rows are those of the due times in order, with the values of all streams. -/
theorem Run.rows_spec (h : Run ss rows stuck) (hs : ∀ s ∈ ss, s.Sorted) :
    (rows.map Prod.fst).Pairwise (· < ·) ∧ (∀ t, t ∈ rows.map Prod.fst ↔ Due ss t) ∧
      ∀ r ∈ rows, ss.mapM (Stream.valueAt r.1) = some r.2 := by
  induction h with
  | empty => simp [Due]
  | @ended ss h =>
    obtain ⟨s, hmem, hempty, -⟩ := h
    simp [not_due_of_empty hmem hempty]
  | @stuck ss hnot h =>
    obtain ⟨s, hmem, hempty⟩ := h
    simp [not_due_of_empty hmem hempty]
  | @pass ss t rows stuck hnext hrest ih =>
    obtain ⟨hpairwise, hdue, hrows⟩ := ih (by
      rw [List.forall_mem_map]
      exact fun s hmem => sorted_pop (hs s hmem))
    have hvalues : ∀ r ∈ rows, t < r.1 ∧ ss.mapM (Stream.valueAt r.1) = some r.2 := by
      intro r hr
      obtain ⟨hlt, -⟩ := (due_later hs hnext).mp ((hdue r.1).mp (List.mem_map_of_mem hr))
      refine ⟨hlt, ?_⟩
      rw [← hrows r hr, List.mapM_map]
      exact mapM_congr fun s hmem => (valueAt_pop (hnext.2 s hmem) hlt.le).symm
    have hlater : ∀ u, u ∈ rows.map Prod.fst ↔ t < u ∧ Due ss u :=
      fun u => (hdue u).trans (due_later hs hnext)
    have hnow := due_now hs hnext
    unfold emit
    cases hrow : row (ss.map (Stream.pop t)) with
    | none =>
      refine ⟨hpairwise, fun u => ?_, fun r hr => (hvalues r hr).2⟩
      rw [hlater]
      refine ⟨And.right, fun hu => ⟨lt_of_le_of_ne (le_of_due hs hnext hu) ?_, hu⟩⟩
      rintro rfl
      rw [hnow, hrow] at hu
      cases hu
    | some values =>
      refine ⟨List.pairwise_cons.mpr ⟨fun u hu => ((hlater u).mp hu).1, hpairwise⟩,
        fun u => ?_, ?_⟩
      · rw [List.map_cons, List.mem_cons, hlater]
        constructor
        · rintro (rfl | ⟨-, hu⟩)
          · exact hnow.mpr (by rw [hrow]; rfl)
          · exact hu
        · intro hu
          rcases (le_of_due hs hnext hu).eq_or_lt with rfl | hlt
          · exact .inl rfl
          · exact .inr ⟨hlt, hu⟩
      · intro r hr
        rcases List.mem_cons.mp hr with rfl | hr
        · rw [← hrow, row, List.mapM_map]
          exact mapM_congr fun s hmem => (last_pop (hs s hmem) (hnext.2 s hmem)).symm
        · exact (hvalues r hr).2

end Rows

section Ends

variable {ss : List (Stream T D)} {t : T} {rows : List (T × List D)} {stuck : Bool}

/-- `q` still has an entry when `s` is exhausted. -/
def Outlives (q s : Stream T D) : Prop := ∃ x ∈ q.entries, ∀ y ∈ s.entries, y.1 < x.1

theorem outlives_pop {q s : Stream T D} (hq : q.Sorted) (hs : s.Sorted) (hqt : Ahead t q)
    (hst : Ahead t s) : Outlives (q.pop t) (s.pop t) ↔ Outlives q s := by
  constructor
  · rintro ⟨x, hx, hall⟩
    obtain ⟨hx, htx⟩ := (mem_pop hq hqt).mp hx
    refine ⟨x, hx, fun y hy => ?_⟩
    rcases lt_or_ge t y.1 with hlt | hle
    · exact hall y ((mem_pop hs hst).mpr ⟨hy, hlt⟩)
    · exact hle.trans_lt htx
  · rintro ⟨x, hx, hall⟩
    obtain ⟨y, rest, hentries, hle⟩ := hst
    have hy : y ∈ s.entries := by simp [hentries]
    refine ⟨x, (mem_pop hq hqt).mpr ⟨hx, hle.trans_lt (hall y hy)⟩, fun z hz => ?_⟩
    exact hall z ((mem_pop hs ⟨y, rest, hentries, hle⟩).mp hz).1

/-- A merge gets stuck exactly if all streams that end outlive one that gets stuck. -/
theorem Run.stuck_iff (h : Run ss rows stuck) (hs : ∀ s ∈ ss, s.Sorted) :
    stuck = true ↔ ∃ s ∈ ss, s.stuck = true ∧ ∀ q ∈ ss, q.stuck = false → Outlives q s := by
  induction h with
  | empty => simp
  | @ended ss h =>
    obtain ⟨q, hq, hempty, hends⟩ := h
    refine ⟨nofun, ?_⟩
    rintro ⟨s, -, -, hall⟩
    obtain ⟨x, hx, -⟩ := hall q hq hends
    simp [hempty] at hx
  | @stuck ss hnot h =>
    obtain ⟨s, hmem, hempty⟩ := h
    refine ⟨fun _ => ⟨s, hmem, ?_, fun q hq hends => ?_⟩, fun _ => rfl⟩
    · exact Stream.stuck_of_not_ended (hnot s hmem) hempty
    · obtain ⟨x, hx⟩ := List.exists_mem_of_ne_nil _ fun hq' => hnot q hq ⟨hq', hends⟩
      exact ⟨x, hx, by simp [hempty]⟩
  | @pass ss t rows stuck hnext hrest ih =>
    rw [ih (by rw [List.forall_mem_map]; exact fun s hmem => sorted_pop (hs s hmem))]
    simp only [List.mem_map, exists_exists_and_eq_and, forall_exists_index, and_imp,
      forall_apply_eq_imp_iff₂, stuck_pop]
    refine exists_congr fun s => and_congr_right fun hmem => and_congr_right fun _ => ?_
    refine forall_congr' fun q => forall_congr' fun hq => imp_congr_right fun _ => ?_
    exact outlives_pop (hs q hq) (hs s hmem) (hnext.2 q hq) (hnext.2 s hmem)

end Ends

section Cuts

variable {ι : Type*} {is : List ι} {full cut : ι → Stream T D} {s s' : Stream T D} {t : T}

/-- The stream `s'` delivers what `s` does, or gets stuck before some time. -/
def Cut (s s' : Stream T D) : Prop :=
  s'.last = s.last ∧ (s'.stuck = false ∧ s'.entries = s.entries ∨
    s'.stuck = true ∧ ∃ τ, s'.entries = s.entries.filter fun x => x.1 < τ)

theorem Cut.sublist (h : Cut s s') : s'.entries.Sublist s.entries := by
  obtain ⟨-, ⟨-, hentries⟩ | ⟨-, τ, hentries⟩⟩ := h
  · exact hentries ▸ List.Sublist.refl _
  · exact hentries ▸ List.filter_sublist

theorem Cut.filter_eq (h : Cut s s') {y : T × D} (hy : y ∈ s'.entries) (hty : t ≤ y.1) :
    (s'.entries.filter fun x => x.1 ≤ t) = s.entries.filter fun x => x.1 ≤ t := by
  obtain ⟨-, ⟨-, hentries⟩ | ⟨-, τ, hentries⟩⟩ := h
  · rw [hentries]
  · rw [hentries] at hy ⊢
    rw [List.filter_filter]
    refine List.filter_congr fun x _ => ?_
    have hlt : y.1 < τ := by simpa using (List.mem_filter.mp hy).2
    by_cases hx : x.1 ≤ t
    · simp [hx, (hx.trans hty).trans_lt hlt]
    · simp [hx]

theorem Cut.valueAt_eq (h : Cut s s') {y : T × D} (hy : y ∈ s'.entries) (hty : t ≤ y.1) :
    s'.valueAt t = s.valueAt t := by
  rw [Stream.valueAt, Stream.valueAt, h.filter_eq hy hty, h.1]

theorem due_map {f : ι → Stream T D} :
    Due (is.map f) t ↔ (∃ i ∈ is, ∃ x ∈ (f i).entries, x.1 = t) ∧
      ∀ i ∈ is, ((f i).last.isSome ∨ ∃ x ∈ (f i).entries, x.1 ≤ t) ∧
        ∃ x ∈ (f i).entries, t ≤ x.1 := by
  simp only [Due, List.mem_map, exists_exists_and_eq_and, forall_exists_index, and_imp,
    forall_apply_eq_imp_iff₂]

/-- If the merge of the cut streams does not get stuck, they still have an entry at or after
the time of every row that is due. -/
theorem Run.exists_ge {rows : List (T × List D)} (h : Run (is.map cut) rows false)
    (hs : ∀ i ∈ is, (cut i).Sorted) (hcut : ∀ i ∈ is, Cut (full i) (cut i))
    (hdue : Due (is.map full) t) : ∀ i ∈ is, ∃ y ∈ (cut i).entries, t ≤ y.1 := by
  have hends : ∀ i ∈ is, (cut i).stuck = false → ∃ y ∈ (cut i).entries, t ≤ y.1 := by
    intro i hi hstuck
    obtain ⟨-, ⟨-, hentries⟩ | ⟨htrue, -⟩⟩ := hcut i hi
    · exact hentries ▸ ((due_map.mp hdue).2 i hi).2
    · exact absurd (hstuck.symm.trans htrue) Bool.false_ne_true
  intro i hi
  cases hstuck : (cut i).stuck with
  | false => exact hends i hi hstuck
  | true =>
    have hnot : ¬ ∀ q ∈ is.map cut, q.stuck = false → Outlives q (cut i) := by
      intro hall
      exact Bool.false_ne_true ((h.stuck_iff (List.forall_mem_map.mpr hs)).mpr
        ⟨cut i, List.mem_map_of_mem hi, hstuck, hall⟩)
    rw [List.forall_mem_map] at hnot
    simp only [Outlives, not_forall, not_exists, not_and, not_lt] at hnot
    obtain ⟨q, hq, hqends, hbefore⟩ := hnot
    obtain ⟨x, hx, htx⟩ := hends q hq hqends
    obtain ⟨y, hy, hxy⟩ := hbefore x hx
    exact ⟨y, hy, htx.trans hxy⟩

theorem due_of_cut (hcut : ∀ i ∈ is, Cut (full i) (cut i)) (h : Due (is.map cut) t) :
    Due (is.map full) t := by
  obtain ⟨⟨i, hi, x, hx, hxt⟩, hall⟩ := due_map.mp h
  refine due_map.mpr ⟨⟨i, hi, x, (hcut i hi).sublist.subset hx, hxt⟩, fun q hq => ?_⟩
  obtain ⟨hvalue, y, hy, hle⟩ := hall q hq
  refine ⟨?_, y, (hcut q hq).sublist.subset hy, hle⟩
  rw [← isSome_valueAt, ← (hcut q hq).valueAt_eq hy hle, isSome_valueAt]
  exact hvalue

theorem cut_due (hcut : ∀ i ∈ is, Cut (full i) (cut i)) (h : Due (is.map full) t)
    (hge : ∀ i ∈ is, ∃ y ∈ (cut i).entries, t ≤ y.1) : Due (is.map cut) t := by
  obtain ⟨⟨i, hi, x, hx, rfl⟩, hall⟩ := due_map.mp h
  obtain ⟨y, hy, hle⟩ := hge i hi
  have hx' : x ∈ (cut i).entries.filter fun z => z.1 ≤ x.1 := by
    rw [(hcut i hi).filter_eq hy hle]
    exact List.mem_filter.mpr ⟨hx, by simp⟩
  refine due_map.mpr ⟨⟨i, hi, x, (List.mem_filter.mp hx').1, rfl⟩, fun q hq => ?_⟩
  obtain ⟨z, hz, hlez⟩ := hge q hq
  refine ⟨?_, z, hz, hlez⟩
  rw [← isSome_valueAt, (hcut q hq).valueAt_eq hz hlez, isSome_valueAt]
  exact (hall q hq).1

/-- A merge that does not get stuck puts out the rows of the full streams. -/
theorem Run.rows_of_cut {rows : List (T × List D)} (h : Run (is.map cut) rows false)
    (hs : ∀ i ∈ is, (full i).Sorted) (hcut : ∀ i ∈ is, Cut (full i) (cut i)) :
    (rows.map Prod.fst).Pairwise (· < ·) ∧
      (∀ t, t ∈ rows.map Prod.fst ↔ Due (is.map full) t) ∧
      ∀ r ∈ rows, is.mapM (fun i => (full i).valueAt r.1) = some r.2 := by
  have hs' : ∀ i ∈ is, (cut i).Sorted := fun i hi => (hs i hi).sublist (hcut i hi).sublist
  obtain ⟨hpairwise, htimes, hrows⟩ := h.rows_spec (List.forall_mem_map.mpr hs')
  have hdue : ∀ t, Due (is.map cut) t ↔ Due (is.map full) t :=
    fun t => ⟨due_of_cut hcut, fun hfull => cut_due hcut hfull (h.exists_ge hs' hcut hfull)⟩
  refine ⟨hpairwise, fun t => (htimes t).trans (hdue t), fun r hr => ?_⟩
  have hfull : Due (is.map full) r.1 := (hdue r.1).mp ((htimes r.1).mp (List.mem_map_of_mem hr))
  have hge := h.exists_ge hs' hcut hfull
  rw [← hrows r hr, List.mapM_map]
  refine mapM_congr fun i hi => ?_
  obtain ⟨y, hy, hle⟩ := hge i hi
  exact ((hcut i hi).valueAt_eq hy hle).symm

end Cuts

section Existence

variable {ss : List (Stream T D)} {t : T}

/-- The number of entries that are left. -/
def total (ss : List (Stream T D)) : ℕ := (ss.map fun s => s.entries.length).sum

theorem length_pop_le (s : Stream T D) : (s.pop t).entries.length ≤ s.entries.length := by
  unfold Stream.pop
  split
  · rename_i x rest hentries
    split_ifs
    · simp [hentries]
    · rfl
  · rfl

theorem total_pop_le (ss : List (Stream T D)) : total (ss.map (Stream.pop t)) ≤ total ss := by
  induction ss with
  | nil => rfl
  | cons s ss ih => exact Nat.add_le_add (length_pop_le s) ih

theorem total_pop_lt (h : ∃ s ∈ ss, ∃ x rest, s.entries = x :: rest ∧ x.1 = t) :
    total (ss.map (Stream.pop t)) < total ss := by
  induction ss with
  | nil => simp at h
  | cons s ss ih =>
    obtain ⟨q, hq, x, rest, hentries, hx⟩ := h
    rcases List.mem_cons.mp hq with rfl | hq
    · have hlen : (q.pop t).entries.length < q.entries.length := by
        simp [Stream.pop, hentries, hx]
      exact Nat.add_lt_add_of_lt_of_le hlen (total_pop_le ss)
    · exact Nat.add_lt_add_of_le_of_lt (length_pop_le s) (ih ⟨q, hq, x, rest, hentries, hx⟩)

theorem exists_isNext (hne : ss ≠ []) (h : ∀ s ∈ ss, s.entries ≠ []) : ∃ t, IsNext t ss := by
  induction ss with
  | nil => exact absurd rfl hne
  | cons s ss ih =>
    obtain ⟨x, rest, hentries⟩ := List.exists_cons_of_ne_nil (h s List.mem_cons_self)
    cases ss with
    | nil =>
      refine ⟨x.1, ⟨s, List.mem_cons_self, x, rest, hentries, rfl⟩, fun q hq => ?_⟩
      obtain rfl := List.mem_singleton.mp hq
      exact ⟨x, rest, hentries, le_rfl⟩
    | cons q ss =>
      obtain ⟨t, ⟨p, hp, y, rest', hp', hy⟩, hall⟩ :=
        ih (List.cons_ne_nil q ss) fun p hp => h p (List.mem_cons_of_mem s hp)
      rcases le_total x.1 t with hle | hle
      · refine ⟨x.1, ⟨s, List.mem_cons_self, x, rest, hentries, rfl⟩, fun p hp => ?_⟩
        rcases List.mem_cons.mp hp with rfl | hp
        · exact ⟨x, rest, hentries, le_rfl⟩
        · obtain ⟨z, rest'', hz, htz⟩ := hall p hp
          exact ⟨z, rest'', hz, hle.trans htz⟩
      · refine ⟨t, ⟨p, List.mem_cons_of_mem s hp, y, rest', hp', hy⟩, fun p' hp' => ?_⟩
        rcases List.mem_cons.mp hp' with rfl | hp'
        · exact ⟨x, rest, hentries, hle⟩
        · exact hall p' hp'

theorem exists_run (ss : List (Stream T D)) : ∃ rows stuck, Run ss rows stuck := by
  induction hn : total ss using Nat.strongRecOn generalizing ss with
  | ind n ih =>
    by_cases hended : ∃ s ∈ ss, s.Ended
    · exact ⟨[], false, .ended hended⟩
    by_cases hempty : ∃ s ∈ ss, s.entries = []
    · refine ⟨[], true, .stuck (fun s hs h => hended ⟨s, hs, h⟩) hempty⟩
    by_cases hne : ss = []
    · exact ⟨[], false, hne ▸ .empty⟩
    obtain ⟨t, hnext⟩ := exists_isNext hne fun s hs h => hempty ⟨s, hs, h⟩
    obtain ⟨rows, stuck, hrun⟩ := ih _ (hn ▸ total_pop_lt hnext.1) _ rfl
    exact ⟨_, stuck, .pass hnext hrun⟩

end Existence

end StreamMerge
end HeypAgents
