import HeypAgents.Lib.ByteText
import HeypAgents.Lib.QueueMerge
import Mathlib.Data.List.Nodup
import Mathlib.Data.List.Perm.Basic

/-!
# `SortedPrint`

The lines of several buffers are merged.  After a line of a buffer the reader goes on with
the same buffer while its lines are below `lastSecondMin`, the smallest line that the scan
for the minimum had found *before* that buffer: lines of later buffers are not considered.
-/

namespace HeypAgents
namespace SortedPrint

open QueueMerge

def cutLine (b : Bytes) : Bytes × Bytes :=
  match b.idxOf? 10 with
  | none => (b, [])
  | some i => (b.take (i + 1), b.drop (i + 1))

/-- `bufs` has the elements of `lines` and `remaining`, which have the same length;
`lastMinIdx` is `none` for -1. -/
structure SortedLineReader where
  bufs : List (Bytes × Bytes)
  lastSecondMin : Bytes := []
  lastMinIdx : Option ℕ := none

namespace SortedLineReader

def init (data : List Bytes) : SortedLineReader := { bufs := data.map cutLine }

def getNextLine (r : SortedLineReader) (i : ℕ) : Option SortedLineReader :=
  r.bufs[i]?.map fun b =>
    if b.2.isEmpty then { r with bufs := r.bufs.eraseIdx i, lastMinIdx := none }
    else { r with bufs := r.bufs.set i (cutLine b.2) }

/-- Take line `i` and replace it by the next one; `none` where the code panics. -/
def consumeLine (r : SortedLineReader) (i : ℕ) : Option (Bytes × SortedLineReader) := do
  let b ← r.bufs[i]?
  let r ← r.getNextLine i
  return (b.1, r)

/-- The loop that looks for the minimum: its index, and `lastSecondMin`. -/
def scanMin (i minIdx : ℕ) (min lastSecondMin : Bytes) : List Bytes → ℕ × Bytes
  | [] => (minIdx, lastSecondMin)
  | line :: lines =>
    if line < min then scanMin (i + 1) i line min lines
    else scanMin (i + 1) minIdx min lastSecondMin lines

def consumeScanned (r : SortedLineReader) : Option (Bytes × SortedLineReader) :=
  match r.bufs.map Prod.fst with
  | [] => none
  | line :: lines =>
    let found := scanMin 1 0 line r.lastSecondMin lines
    consumeLine { r with lastSecondMin := found.2, lastMinIdx := some found.1 } found.1

def consumeMinLine (r : SortedLineReader) : Option (Bytes × SortedLineReader) :=
  match r.lastMinIdx with
  | none => r.consumeScanned
  | some i =>
    match r.bufs[i]? with
    | none => none
    | some b => if b.1 < r.lastSecondMin then r.consumeLine i else r.consumeScanned

end SortedLineReader

/-- The loop of `SortedPrint`, with the lines it writes; `none` while it still runs. -/
def printLoop (fuel : ℕ) (r : SortedLineReader) : Option (List Bytes) :=
  if r.bufs.isEmpty then some []
  else
    match fuel with
    | 0 => none
    | fuel + 1 => do
      let (line, r) ← r.consumeMinLine
      let lines ← printLoop fuel r
      return line :: lines

def sortedPrint (bufs : List Bytes) : Option (List Bytes) :=
  printLoop (bufs.flatten.length + bufs.length) (.init bufs)

def IsLine (line : Bytes) : Prop := ∃ text, (10 : UInt8) ∉ text ∧ line = text ++ [10]

theorem cutLine_of_isLine {line : Bytes} (h : IsLine line) (rest : Bytes) :
    cutLine (line ++ rest) = (line, rest) := by
  obtain ⟨text, htext, rfl⟩ := h
  have hidx : (text ++ [10] ++ rest).idxOf? 10 = some text.length := by
    induction text with
    | nil => simp [List.idxOf?_cons]
    | cons b text ih =>
      rw [List.mem_cons, not_or] at htext
      simpa [List.idxOf?_cons, Ne.symm htext.1] using ih htext.2
  rw [cutLine, hidx]
  dsimp only
  rw [List.take_left' (by simp), List.drop_left' (by simp)]

theorem IsLine.ne_nil {line : Bytes} (h : IsLine line) : line ≠ [] := by
  obtain ⟨text, -, rfl⟩ := h
  simp

theorem eq_nil_of_le_nil {b : Bytes} (h : b ≤ []) : b = [] := by
  cases b with
  | nil => rfl
  | cons c b => exact absurd (List.nil_lt_cons c b) (not_lt.mpr h)

/-- The scan has found `min`, between the lines `as` and `cs`. -/
structure Found (old : Bytes) (as : List Bytes) (min : Bytes) (cs : List Bytes)
    (second : Bytes) : Prop where
  lt : ∀ a ∈ as, min < a
  le : ∀ c ∈ cs, min ≤ c
  kept : as = [] → second = old
  least : as ≠ [] → second ∈ as ∧ ∀ a ∈ as, second ≤ a

theorem scanMin_spec {old min second : Bytes} {as cs : List Bytes}
    (h : Found old as min cs second) (lines : List Bytes) :
    ∃ as' min' cs', as ++ min :: cs ++ lines = as' ++ min' :: cs' ∧
      (SortedLineReader.scanMin (as.length + 1 + cs.length) as.length min second lines).1 =
        as'.length ∧
      Found old as' min' cs'
        (SortedLineReader.scanMin (as.length + 1 + cs.length) as.length min second lines).2 := by
  induction lines generalizing as min cs second with
  | nil => exact ⟨as, min, cs, by simp, rfl, h⟩
  | cons line lines ih =>
    rw [SortedLineReader.scanMin]
    split_ifs with hlt
    · have hall : ∀ a ∈ as ++ min :: cs, min ≤ a := by
        intro a ha
        rcases List.mem_append.mp ha with ha | ha
        · exact (h.lt a ha).le
        · rcases List.mem_cons.mp ha with rfl | ha
          · exact le_rfl
          · exact h.le a ha
      have hnew : Found old (as ++ min :: cs) line [] min :=
        ⟨fun a ha => hlt.trans_le (hall a ha), by simp, by simp, fun _ => ⟨by simp, hall⟩⟩
      obtain ⟨as', min', cs', heq, hidx, hfound⟩ := ih hnew
      refine ⟨as', min', cs', by rw [← heq]; simp, ?_⟩
      convert And.intro hidx hfound using 4 <;> simp <;> omega
    · have hnew : Found old as min (cs ++ [line]) second :=
        ⟨h.lt, by simpa [or_imp, forall_and] using ⟨h.le, not_lt.mp hlt⟩, h.kept, h.least⟩
      obtain ⟨as', min', cs', heq, hidx, hfound⟩ := ih hnew
      refine ⟨as', min', cs', by rw [← heq]; simp, ?_⟩
      convert And.intro hidx hfound using 4 <;> simp <;> omega

section Views

/-- The buffers `ids` still have the lines `Q`, of which the first is the current one. -/
structure View (r : SortedLineReader) (ids : List ℕ) (Q : ℕ → List Bytes) : Prop where
  bufs : r.bufs = ids.map fun j => ((Q j).headD [], (Q j).tail.flatten)
  ascending : ids.Pairwise (· < ·)
  live : ∀ j, j ∈ ids ↔ Q j ≠ []
  lines : ∀ j, ∀ line ∈ (Q j).tail, IsLine line
  sorted : ∀ j, (Q j).Pairwise (· ≤ ·)

/-- The buffers that are left when the last line of `m` may be gone. -/
def left (pre : List ℕ) (m : ℕ) (post : List ℕ) (ys : List Bytes) : List ℕ :=
  if ys = [] then pre ++ post else pre ++ m :: post

variable {r : SortedLineReader} {ids pre post : List ℕ} {m : ℕ} {Q : ℕ → List Bytes}
  {y : Bytes} {ys : List Bytes}

theorem View.mem_pre (h : View r (pre ++ m :: post) Q) (j : ℕ) : j ∈ pre ↔ j < m ∧ Q j ≠ [] := by
  obtain ⟨-, hpost, hpre⟩ := List.pairwise_append.mp h.ascending
  rw [← h.live j, List.mem_append, List.mem_cons]
  refine ⟨fun hj => ⟨hpre j hj m (List.mem_cons_self ..), .inl hj⟩, ?_⟩
  rintro ⟨hlt, hj | rfl | hj⟩
  · exact hj
  · exact absurd hlt (lt_irrefl _)
  · exact absurd ((List.pairwise_cons.mp hpost).1 j hj) hlt.not_gt

theorem View.ne_of_mem (h : View r (pre ++ m :: post) Q) {j : ℕ} (hj : j ∈ pre ++ post) :
    j ≠ m := by
  have hnodup : (pre ++ m :: post).Nodup := h.ascending.imp fun hlt => hlt.ne
  rintro rfl
  exact (List.nodup_middle.mp hnodup).notMem hj

theorem View.map_update (h : View r (pre ++ m :: post) Q) (ys : List Bytes) {β : Type}
    (f : List Bytes → β) :
    pre.map (fun j => f (Function.update Q m ys j)) = pre.map (fun j => f (Q j)) ∧
      post.map (fun j => f (Function.update Q m ys j)) = post.map (fun j => f (Q j)) := by
  constructor <;>
  · refine List.map_congr_left fun j hj => ?_
    rw [Function.update_of_ne (h.ne_of_mem (by simp [hj]))]

theorem View.update (h : View r (pre ++ m :: post) Q) (hq : Q m = y :: ys)
    {r' : SortedLineReader}
    (hbufs : r'.bufs = (left pre m post ys).map fun j =>
      ((Function.update Q m ys j).headD [], (Function.update Q m ys j).tail.flatten)) :
    View r' (left pre m post ys) (Function.update Q m ys) where
  bufs := hbufs
  ascending := by
    refine h.ascending.sublist ?_
    unfold left
    split_ifs
    · exact List.Sublist.append_left (List.sublist_cons_self m post) pre
    · exact List.Sublist.refl _
  live j := by
    have hlive := h.live j
    by_cases hj : j = m
    · subst hj
      have hmem : j ∉ pre ++ post := fun hmem => h.ne_of_mem hmem rfl
      rw [Function.update_self, left]
      split_ifs with hys <;> simp_all
    · rw [Function.update_of_ne hj, ← hlive, left]
      split_ifs <;> simp [hj]
  lines j line hline := by
    by_cases hj : j = m
    · subst hj
      rw [Function.update_self] at hline
      exact h.lines j line (by rw [hq]; exact List.mem_of_mem_tail hline)
    · exact h.lines j line (by rwa [Function.update_of_ne hj] at hline)
  sorted j := by
    by_cases hj : j = m
    · subst hj
      rw [Function.update_self]
      exact (hq ▸ h.sorted j).of_cons
    · rw [Function.update_of_ne hj]
      exact h.sorted j

theorem View.getElem?_bufs (h : View r (pre ++ m :: post) Q) (hq : Q m = y :: ys) :
    r.bufs[pre.length]? = some (y, ys.flatten) := by
  rw [h.bufs, List.map_append, List.map_cons, hq, List.getElem?_append_right (by simp)]
  simp

/-- Taking a line of buffer `m` leaves the others. -/
theorem View.consumeLine (h : View r (pre ++ m :: post) Q) (hq : Q m = y :: ys) :
    ∃ r', r.consumeLine pre.length = some (y, r') ∧
      View r' (left pre m post ys) (Function.update Q m ys) ∧
      r'.lastSecondMin = r.lastSecondMin ∧
      r'.lastMinIdx = if ys = [] then none else r.lastMinIdx := by
  obtain ⟨hpre, hpost⟩ := h.map_update ys fun q => (q.headD [], q.tail.flatten)
  rw [SortedLineReader.consumeLine, SortedLineReader.getNextLine,
    h.getElem?_bufs hq]
  cases ys with
  | nil =>
    refine ⟨_, rfl, h.update hq ?_, rfl, rfl⟩
    rw [left, if_pos rfl, List.map_append, hpre, hpost]
    simp [h.bufs, List.eraseIdx_append_of_length_le]
  | cons x xs =>
    have hline : IsLine x := h.lines m x (by simp [hq])
    have hne : ((x :: xs).flatten).isEmpty = false := by simp [hline.ne_nil]
    refine ⟨{ r with bufs := r.bufs.set pre.length (cutLine (x :: xs).flatten) },
      congrArg (fun r' => some (y, r')) (if_neg (by rw [hne]; simp)), h.update hq ?_, rfl, rfl⟩
    rw [left, if_neg (by simp), List.map_append, List.map_cons, hpre, hpost, h.bufs,
      List.flatten_cons, cutLine_of_isLine hline]
    simp

theorem View.perm_left (h : View r (pre ++ m :: post) Q) (hq : Q m = y :: ys) :
    ((pre ++ m :: post).flatMap Q).Perm
      (y :: (left pre m post ys).flatMap (Function.update Q m ys)) := by
  have hpre : pre.map (Function.update Q m ys) = pre.map Q := (h.map_update ys id).1
  have hpost : post.map (Function.update Q m ys) = post.map Q := (h.map_update ys id).2
  have hleft : (left pre m post ys).flatMap (Function.update Q m ys) =
      pre.flatMap Q ++ (ys ++ post.flatMap Q) := by
    simp only [List.flatMap_def]
    rw [← hpre, ← hpost]
    unfold left
    split_ifs with hys
    · simp [hys]
    · simp
  rw [hleft, List.flatMap_append, List.flatMap_cons, hq]
  exact List.perm_middle

theorem View.head_le (h : View r ids Q) {j : ℕ} {v : Bytes} (hv : v ∈ Q j) :
    (Q j).headD [] ∈ Q j ∧ (Q j).headD [] ≤ v := by
  have hsorted := h.sorted j
  cases hq : Q j with
  | nil => simp [hq] at hv
  | cons x xs =>
    rw [hq] at hv hsorted
    refine ⟨List.mem_cons_self, ?_⟩
    rcases List.mem_cons.mp hv with rfl | hv
    · exact le_rfl
    · exact (List.pairwise_cons.mp hsorted).1 v hv

/-- `second` is the smallest line before buffer `m`. -/
def SecondMin (Q : ℕ → List Bytes) (m : ℕ) (second : Bytes) : Prop :=
  (∃ j < m, Q j ≠ []) → ∀ v, v < second ↔ ∀ j < m, ∀ u ∈ Q j, v < u

theorem View.withLast (h : View r ids Q) (second : Bytes) (i : Option ℕ) :
    View { r with lastSecondMin := second, lastMinIdx := i } ids Q :=
  ⟨h.bufs, h.ascending, h.live, h.lines, h.sorted⟩

/-- The scan finds the line that a merge takes. -/
theorem View.consumeScanned (h : View r ids Q) (hne : ids ≠ []) :
    ∃ pre m post y ys second, ids = pre ++ m :: post ∧ IsNext Q m y ys ∧ SecondMin Q m second ∧
      ((∀ j < m, Q j = []) → second = r.lastSecondMin) ∧
      r.consumeScanned = SortedLineReader.consumeLine
        { r with lastSecondMin := second, lastMinIdx := some pre.length } pre.length := by
  have hheads : r.bufs.map Prod.fst = ids.map fun j => (Q j).headD [] := by
    rw [h.bufs, List.map_map]
    rfl
  have hheadsne : r.bufs.map Prod.fst ≠ [] := by
    rw [hheads]
    exact fun hnil => hne (List.map_eq_nil_iff.mp hnil)
  obtain ⟨line, lines, hlines⟩ := List.exists_cons_of_ne_nil hheadsne
  have hstart : Found r.lastSecondMin [] line [] r.lastSecondMin :=
    ⟨by simp, by simp, fun _ => rfl, by simp⟩
  obtain ⟨as, min, cs, heq, hidx, hfound⟩ := scanMin_spec hstart lines
  rw [List.nil_append, List.singleton_append, ← hlines, hheads] at heq
  obtain ⟨pre, rest, rfl, rfl, hrest⟩ := List.map_eq_append_iff.mp heq
  obtain ⟨m, post, rfl, rfl, rfl⟩ := List.map_eq_cons_iff.mp hrest
  obtain ⟨y, ys, hq⟩ := List.exists_cons_of_ne_nil ((h.live m).mp (by simp))
  have hmin : (Q m).headD [] = y := by rw [hq]; rfl
  rw [hmin] at hfound
  have hlt : ∀ j < m, ∀ v ∈ Q j, y < v := fun j hj v hv =>
    (hfound.lt _ (List.mem_map_of_mem ((h.mem_pre j).mpr ⟨hj, List.ne_nil_of_mem hv⟩))).trans_le
      (h.head_le hv).2
  refine ⟨pre, m, post, y, ys, (SortedLineReader.scanMin 1 0 line r.lastSecondMin lines).2, rfl,
    ⟨hq, fun j v hv => ?_, hlt⟩, ?_, ?_, ?_⟩
  · have hj := (h.live j).mpr (List.ne_nil_of_mem hv)
    rcases List.mem_append.mp hj with hj | hj
    · exact (hlt j ((h.mem_pre j).mp hj).1 v hv).le
    · rcases List.mem_cons.mp hj with rfl | hj
      · exact hmin ▸ (h.head_le hv).2
      · exact (hfound.le _ (List.mem_map_of_mem hj)).trans (h.head_le hv).2
  · rintro ⟨j, hj, hjne⟩ v
    have hpre := (h.mem_pre j).mpr ⟨hj, hjne⟩
    obtain ⟨hmem, hleast⟩ := hfound.least (by simpa using List.ne_nil_of_mem hpre)
    constructor
    · intro hv i hi u hu
      have hi := (h.mem_pre i).mpr ⟨hi, List.ne_nil_of_mem hu⟩
      exact hv.trans_le ((hleast _ (List.mem_map_of_mem hi)).trans (h.head_le hu).2)
    · intro hv
      obtain ⟨i, hi, heq⟩ := List.mem_map.mp hmem
      obtain ⟨him, hine⟩ := (h.mem_pre i).mp hi
      obtain ⟨u, hu⟩ := List.exists_mem_of_ne_nil _ hine
      exact heq ▸ hv i him _ (h.head_le hu).1
  · intro hnone
    refine hfound.kept ?_
    rw [List.map_eq_nil_iff, List.eq_nil_iff_forall_not_mem]
    exact fun j hj => ((h.mem_pre j).mp hj).2 (hnone j ((h.mem_pre j).mp hj).1)
  · rw [SortedLineReader.consumeScanned, hlines]
    rw [List.length_map] at hidx
    exact hidx ▸ rfl

theorem View.consumeMinLine_cases (h : View r ids Q)
    (hvalid : ∀ i, r.lastMinIdx = some i → i < ids.length) :
    (∃ pre m post x xs, ids = pre ++ m :: post ∧ r.lastMinIdx = some pre.length ∧
      Q m = x :: xs ∧ x < r.lastSecondMin ∧ r.consumeMinLine = r.consumeLine pre.length) ∨
    ((∀ pre m post x xs, ids = pre ++ m :: post → r.lastMinIdx = some pre.length →
      Q m = x :: xs → ¬ x < r.lastSecondMin) ∧ r.consumeMinLine = r.consumeScanned) := by
  rw [SortedLineReader.consumeMinLine]
  cases hidx : r.lastMinIdx with
  | none => exact .inr ⟨nofun, rfl⟩
  | some i =>
    obtain ⟨pre, rest, rfl, rfl⟩ : ∃ pre rest, ids = pre ++ rest ∧ i = pre.length :=
      ⟨ids.take i, ids.drop i, (List.take_append_drop i ids).symm,
        (List.length_take_of_le (hvalid i hidx).le).symm⟩
    obtain ⟨m, post, rfl⟩ := List.exists_cons_of_ne_nil
      (show rest ≠ [] by rintro rfl; simpa using hvalid _ hidx)
    obtain ⟨x, xs, hq⟩ := List.exists_cons_of_ne_nil ((h.live m).mp (by simp))
    dsimp only
    rw [h.getElem?_bufs hq]
    dsimp only
    split_ifs with hlt
    · exact .inl ⟨pre, m, post, x, xs, rfl, rfl, hq, hlt, rfl⟩
    · refine .inr ⟨fun pre' m' post' x' xs' hids hlen hq' => ?_, rfl⟩
      obtain ⟨rfl, hcons⟩ := List.append_inj hids (Option.some.inj hlen)
      obtain ⟨rfl, rfl⟩ := List.cons_eq_cons.mp hcons
      obtain ⟨rfl, rfl⟩ := List.cons_eq_cons.mp (hq.symm.trans hq')
      exact hlt

end Views

section Merges

structure Inv (r : SortedLineReader) (ids : List ℕ) (Q : ℕ → List Bytes) : Prop
    extends View r ids Q where
  low : ∀ m, (∀ j < m, Q j = []) → ∀ v ∈ Q m, r.lastSecondMin ≤ v
  remembers : ∀ i, r.lastMinIdx = some i → ∃ pre m post, ids = pre ++ m :: post ∧
    pre.length = i ∧ SecondMin Q m r.lastSecondMin
  empty : ∀ j, [] ∈ Q j → Q j = [[]] ∧ r.lastMinIdx = none

def Pending (r : SortedLineReader) (ids : List ℕ) (Q : ℕ → List Bytes) : Prop :=
  ∃ pre m post x xs, ids = pre ++ m :: post ∧ r.lastMinIdx = some pre.length ∧ Q m = x :: xs ∧
    (∃ j < m, Q j ≠ []) ∧ (∀ j < m, ∀ v ∈ Q j, x < v) ∧ ∃ k, m < k ∧ ∃ z ∈ Q k, z < x

variable {r : SortedLineReader} {ids pre post : List ℕ} {m : ℕ} {Q : ℕ → List Bytes}
  {y : Bytes} {ys : List Bytes}

/-- A step of the merge keeps the invariant and may leave a line that overtakes. -/
theorem Inv.of_next (h : View r (pre ++ m :: post) Q) (hidx : r.lastMinIdx = some pre.length)
    (hsecond : SecondMin Q m r.lastSecondMin)
    (hlow : ∀ m, (∀ j < m, Q j = []) → ∀ v ∈ Q m, r.lastSecondMin ≤ v)
    (hempty : ∀ j, [] ∈ Q j → Q j = [[]]) (hnext : IsNext Q m y ys) :
    ∃ r', r.consumeLine pre.length = some (y, r') ∧
      Inv r' (left pre m post ys) (Function.update Q m ys) ∧
      (Pending r' (left pre m post ys) (Function.update Q m ys) ↔
        ∃ x, ys.head? = some x ∧ Overtakes Q m y x) := by
  obtain ⟨r', hconsume, hview, hsecond', hidx'⟩ := h.consumeLine hnext.queue
  have hother : ∀ j < m, Function.update Q m ys j = Q j := fun j hj =>
    Function.update_of_ne hj.ne _ _
  have hlater : ∀ k, m < k → Function.update Q m ys k = Q k := fun k hk =>
    Function.update_of_ne hk.ne' _ _
  rw [hidx] at hidx'
  refine ⟨r', hconsume, ⟨hview, fun m' hbefore v hv => ?_, fun i hi => ?_, fun j hj => ?_⟩, ?_, ?_⟩
  · have hv' := hnext.mem_of_update hv
    rw [hsecond']
    by_cases hall : ∀ j < m', Q j = []
    · exact hlow m' hall v hv'
    -- the queue before `m'` that is empty now is the one the line was taken from
    · obtain ⟨j, hj, hne⟩ : ∃ j < m', Q j ≠ [] := by simpa using hall
      obtain rfl : j = m := by
        by_contra hjm
        exact hne (Function.update_of_ne hjm ys Q ▸ hbefore j hj)
      have hfirst : ∀ i < j, Q i = [] := fun i hi => hother i hi ▸ hbefore i (hi.trans hj)
      exact (hlow j hfirst y (by simp [hnext.queue])).trans (hnext.le m' v hv')
  · rw [hidx'] at hi
    split_ifs at hi with hys
    refine ⟨pre, m, post, if_neg hys, Option.some.inj hi, ?_⟩
    rw [hsecond']
    rintro ⟨j, hj, hne⟩ v
    rw [hsecond ⟨j, hj, hother j hj ▸ hne⟩ v]
    exact forall₂_congr fun i hi => by rw [hother i hi]
  · have hmem := hnext.mem_of_update hj
    have hy : y = [] := eq_nil_of_le_nil (hnext.le j [] hmem)
    have hm := hempty m (by simp [hnext.queue, hy])
    obtain ⟨-, rfl⟩ := List.cons_eq_cons.mp (hnext.queue.symm.trans hm)
    have hjm : j ≠ m := by
      rintro rfl
      simp at hj
    exact ⟨(Function.update_of_ne hjm [] Q).trans (hempty j hmem), hidx'⟩
  · rintro ⟨pre', m', post', x, xs, hids, hlast, hq', ⟨j, hj, hne⟩, hbelow, k, hk, z, hz, hzx⟩
    rw [hidx'] at hlast
    split_ifs at hlast with hys
    rw [left, if_neg hys] at hids
    obtain ⟨rfl, hcons⟩ := List.append_inj hids (Option.some.inj hlast)
    obtain ⟨rfl, rfl⟩ := List.cons_eq_cons.mp hcons
    rw [Function.update_self] at hq'
    exact ⟨x, by rw [hq']; rfl, hnext.overtakes_iff.mpr ⟨⟨j, hj, hother j hj ▸ hne⟩,
      fun i hi v hv => hbelow i hi v (by rwa [hother i hi]), k, hk, z, hlater k hk ▸ hz, hzx⟩⟩
  · rintro ⟨x, hx, hover⟩
    obtain ⟨xs, rfl⟩ := List.head?_eq_some_iff.mp hx
    obtain ⟨⟨j, hj, hne⟩, hbelow, k, hk, z, hz, hzx⟩ := hnext.overtakes_iff.mp hover
    exact ⟨pre, m, post, x, xs, if_neg (by simp), hidx', Function.update_self .., ⟨j, hj,
      (hother j hj).symm ▸ hne⟩, fun i hi v hv => hbelow i hi v (by rwa [← hother i hi]), k, hk, z,
      (hlater k hk).symm ▸ hz, hzx⟩

theorem Inv.valid (h : Inv r ids Q) (i : ℕ) (hi : r.lastMinIdx = some i) : i < ids.length := by
  obtain ⟨pre, m, post, rfl, rfl, -⟩ := h.remembers i hi
  simp

/-- A call takes the next line of the merge, unless a line overtakes. -/
theorem Inv.consumeMinLine (h : Inv r ids Q) (hne : ids ≠ []) (hpending : ¬ Pending r ids Q) :
    ∃ m y ys ids' r', IsNext Q m y ys ∧ r.consumeMinLine = some (y, r') ∧
      Inv r' ids' (Function.update Q m ys) ∧
      (Pending r' ids' (Function.update Q m ys) ↔ ∃ x, ys.head? = some x ∧ Overtakes Q m y x) := by
  have hempty : ∀ j, [] ∈ Q j → Q j = [[]] := fun j hj => (h.empty j hj).1
  rcases h.consumeMinLine_cases h.valid with
    ⟨pre, m, post, x, xs, rfl, hidx, hq, hlt, hcall⟩ | ⟨-, hcall⟩
  · obtain ⟨pre', m', post', hids, hlen, hsecond⟩ := h.remembers _ hidx
    obtain ⟨rfl, hcons⟩ := List.append_inj hids.symm hlen
    obtain ⟨rfl, rfl⟩ := List.cons_eq_cons.mp hcons
    have hex : ∃ j < m', Q j ≠ [] := by
      by_contra hnone
      exact (h.low m' (by simpa using hnone) x (by simp [hq])).not_gt hlt
    have hbelow := (hsecond hex x).mp hlt
    have hnext : IsNext Q m' x xs := by
      refine ⟨hq, fun j v hv => ?_, hbelow⟩
      rcases lt_trichotomy j m' with hj | rfl | hj
      · exact (hbelow j hj v hv).le
      · have hhead := (h.head_le hv).2
        rwa [hq] at hhead
      · exact not_lt.mp fun hlt' =>
          hpending ⟨_, _, _, x, xs, rfl, hidx, hq, hex, hbelow, j, hj, v, hv, hlt'⟩
    obtain ⟨r', hconsume, hinv, hiff⟩ := Inv.of_next h.toView hidx hsecond h.low hempty hnext
    exact ⟨m', x, xs, _, r', hnext, hcall.trans hconsume, hinv, hiff⟩
  · obtain ⟨pre, m, post, y, ys, second, rfl, hnext, hsecond, hkept, hscan⟩ :=
      h.toView.consumeScanned hne
    have hlow : ∀ m', (∀ j < m', Q j = []) → ∀ v ∈ Q m', second ≤ v := by
      intro m' hfirst v hv
      by_cases hex : ∃ j < m, Q j ≠ []
      · refine not_lt.mp fun hlt => ?_
        obtain ⟨j, hj, hjne⟩ := hex
        have hm' : m' ≤ j := not_lt.mp fun hjm => hjne (hfirst j hjm)
        exact lt_irrefl v ((hsecond ⟨j, hj, hjne⟩ v).mp hlt m' (hm'.trans_lt hj) v hv)
      · rw [hkept (by simpa using hex)]
        exact h.low m' hfirst v hv
    obtain ⟨r', hconsume, hinv, hiff⟩ := Inv.of_next (h.withLast second _) rfl hsecond hlow hempty hnext
    exact ⟨m, y, ys, _, r', hnext, hcall.trans (hscan.trans hconsume), hinv, hiff⟩

end Merges

section Runs

variable {r r' : SortedLineReader} {ids pre post : List ℕ} {m : ℕ} {Q : ℕ → List Bytes}
  {y : Bytes} {ys : List Bytes}

theorem View.step (h : View r (pre ++ m :: post) Q) (hidx : r.lastMinIdx = some pre.length)
    (hq : Q m = y :: ys) :
    ∃ r' ids', r.consumeLine pre.length = some (y, r') ∧
      View r' ids' (Function.update Q m ys) ∧ (∀ i, r'.lastMinIdx = some i → i < ids'.length) ∧
      ((pre ++ m :: post).flatMap Q).Perm (y :: ids'.flatMap (Function.update Q m ys)) := by
  obtain ⟨r', hconsume, hview, -, hidx'⟩ := h.consumeLine hq
  refine ⟨r', _, hconsume, hview, fun i hi => ?_, h.perm_left hq⟩
  rw [hidx', hidx] at hi
  split_ifs at hi with hys
  obtain rfl := Option.some.inj hi
  simp [left, hys]

theorem View.consumeMinLine (h : View r ids Q) (hne : ids ≠ [])
    (hvalid : ∀ i, r.lastMinIdx = some i → i < ids.length) :
    ∃ y r' ids' Q', r.consumeMinLine = some (y, r') ∧ View r' ids' Q' ∧
      (∀ i, r'.lastMinIdx = some i → i < ids'.length) ∧
      (ids.flatMap Q).Perm (y :: ids'.flatMap Q') := by
  rcases h.consumeMinLine_cases hvalid with
    ⟨pre, m, post, x, xs, rfl, hidx, hq, -, hcall⟩ | ⟨-, hcall⟩
  · obtain ⟨r', ids', hconsume, hview⟩ := h.step hidx hq
    exact ⟨x, r', ids', _, hcall.trans hconsume, hview⟩
  · obtain ⟨pre, m, post, y, ys, second, rfl, hnext, -, -, hscan⟩ := h.consumeScanned hne
    obtain ⟨r', ids', hconsume, hview⟩ := (h.withLast second _).step rfl hnext.queue
    exact ⟨y, r', ids', _, hcall.trans (hscan.trans hconsume), hview⟩

theorem printLoop_nil (h : View r [] Q) (fuel : ℕ) : printLoop fuel r = some [] := by
  rw [printLoop.eq_def, if_pos (by rw [h.bufs]; rfl)]

theorem printLoop_succ (h : View r ids Q) (hne : ids ≠ [])
    (hstep : r.consumeMinLine = some (y, r')) (fuel : ℕ) :
    printLoop (fuel + 1) r = (printLoop fuel r').map (y :: ·) := by
  rw [printLoop, if_neg (by simpa [h.bufs] using hne), hstep]
  cases hout : printLoop fuel r' <;> simp [hout]

theorem printLoop_zero (h : View r ids Q) (hne : ids ≠ []) : printLoop 0 r = none := by
  rw [printLoop, if_neg (by simpa [h.bufs] using hne)]

theorem printLoop_perm_nil (h : View r [] Q) (fuel : ℕ) :
    (∀ out, printLoop fuel r = some out → out.Perm (([] : List ℕ).flatMap Q)) ∧
      ((([] : List ℕ).flatMap Q).length ≤ fuel → (printLoop fuel r).isSome) := by
  rw [printLoop_nil h]
  exact ⟨fun out hout => by simp [← Option.some.inj hout], fun _ => rfl⟩

/-- Every run writes each line once, and ends. -/
theorem printLoop_perm (h : View r ids Q) (hvalid : ∀ i, r.lastMinIdx = some i → i < ids.length)
    (fuel : ℕ) :
    (∀ out, printLoop fuel r = some out → out.Perm (ids.flatMap Q)) ∧
      ((ids.flatMap Q).length ≤ fuel → (printLoop fuel r).isSome) := by
  induction fuel generalizing r ids Q with
  | zero =>
    rcases List.eq_nil_or_concat' ids with rfl | ⟨pre, m, rfl⟩
    · exact printLoop_perm_nil h 0
    · refine ⟨fun out hout => ?_, fun hlen => ?_⟩
      · simp [printLoop_zero h (by simp)] at hout
      · have hm := (h.live m).mp (by simp)
        simp_all
  | succ fuel ih =>
    by_cases hids : ids = []
    · subst hids
      exact printLoop_perm_nil h (fuel + 1)
    · obtain ⟨y, r', ids', Q', hstep, hview, hvalid', hperm⟩ := h.consumeMinLine hids hvalid
      obtain ⟨hout', hsome'⟩ := ih hview hvalid'
      rw [printLoop_succ h hids hstep]
      refine ⟨fun out hout => ?_, fun hlen => ?_⟩
      · obtain ⟨out', hrun, rfl⟩ := Option.map_eq_some_iff.mp hout
        exact ((hout' out' hrun).cons y).trans hperm.symm
      · rw [hperm.length_eq, List.length_cons] at hlen
        simpa using hsome' (by omega)

theorem not_sorted_of_pending (h : Inv r ids Q) (hpending : Pending r ids Q) {fuel : ℕ}
    {out : List Bytes} (hout : printLoop fuel r = some out) :
    ¬ (out.filter (· ≠ [])).Pairwise (· ≤ ·) := by
  obtain ⟨pre, m, post, x, xs, rfl, hidx, hq, hex, hbelow, k, hk, z, hz, hzx⟩ := hpending
  obtain ⟨pre', m', post', hids, hlen, hsecond⟩ := h.remembers _ hidx
  obtain ⟨rfl, hcons⟩ := List.append_inj hids.symm hlen
  obtain ⟨rfl, rfl⟩ := List.cons_eq_cons.mp hcons
  have hlt : x < r.lastSecondMin := (hsecond hex x).mpr hbelow
  obtain ⟨r', ids', hconsume, hview, hvalid, -⟩ := h.toView.step hidx hq
  have hcall : r.consumeMinLine = some (x, r') := by
    rw [SortedLineReader.consumeMinLine, hidx]
    dsimp only
    rw [h.getElem?_bufs hq]
    exact (if_pos hlt).trans hconsume
  have hne : ∀ j, [] ∉ Q j := fun j hj => by simp [(h.empty j hj).2] at hidx
  cases fuel with
  | zero => simp [printLoop_zero h.toView (by simp)] at hout
  | succ fuel =>
    rw [printLoop_succ h.toView (by simp) hcall] at hout
    obtain ⟨out', hrun, rfl⟩ := Option.map_eq_some_iff.mp hout
    have hz' : z ∈ Function.update Q m' xs k := by rwa [Function.update_of_ne hk.ne']
    have hmem : z ∈ out' := ((printLoop_perm hview hvalid fuel).1 out' hrun).mem_iff.mpr
      (List.mem_flatMap.mpr ⟨k, (hview.live k).mpr (List.ne_nil_of_mem hz'), hz'⟩)
    have hx : x ≠ [] := fun heq => hne m' (by simp [hq, heq])
    have hz0 : z ≠ [] := fun heq => hne k (heq ▸ hz)
    rw [List.filter_cons_of_pos (by simpa using hx), List.pairwise_cons]
    exact fun hsorted =>
      (hsorted.1 z (List.mem_filter.mpr ⟨hmem, by simpa using hz0⟩)).not_gt hzx

theorem Inv.sorted_iff_of_nil (h : Inv r [] Q) {fuel : ℕ} {out : List Bytes}
    (hout : printLoop fuel r = some out) :
    (out.filter (· ≠ [])).Pairwise (· ≤ ·) ↔ ¬ (Pending r [] Q ∨ HasOvertaking Q) := by
  rw [printLoop_nil h.toView] at hout
  obtain rfl := Option.some.inj hout
  refine iff_of_true (by simp) ?_
  rintro (⟨pre, m, post, x, xs, hids, -⟩ | ⟨m, y, x, hpair, -⟩)
  · simp at hids
  · have hm : Q m = [] := by simpa using mt (h.live m).mpr (by simp)
    simp [hm] at hpair

/-- A run writes the lines in order exactly if none overtakes. -/
theorem printLoop_sorted_iff (h : Inv r ids Q) {fuel : ℕ} {out : List Bytes}
    (hout : printLoop fuel r = some out) :
    (out.filter (· ≠ [])).Pairwise (· ≤ ·) ↔ ¬ (Pending r ids Q ∨ HasOvertaking Q) := by
  induction fuel generalizing r ids Q out with
  | zero =>
    by_cases hids : ids = []
    · subst hids
      exact h.sorted_iff_of_nil hout
    · simp [printLoop_zero h.toView hids] at hout
  | succ fuel ih =>
    by_cases hids : ids = []
    · subst hids
      exact h.sorted_iff_of_nil hout
    by_cases hpending : Pending r ids Q
    · exact iff_of_false (not_sorted_of_pending h hpending hout) (not_not.mpr (.inl hpending))
    obtain ⟨m, y, ys, ids', r', hnext, hstep, hinv, hiff⟩ := h.consumeMinLine hids hpending
    have hperm := (printLoop_perm h.toView h.valid (fuel + 1)).1 out hout
    rw [printLoop_succ h.toView hids hstep] at hout
    obtain ⟨out', hrun, rfl⟩ := Option.map_eq_some_iff.mp hout
    have hle : ∀ v ∈ out', y ≤ v := fun v hv => by
      obtain ⟨j, -, hj⟩ := List.mem_flatMap.mp (hperm.mem_iff.mp (List.mem_cons_of_mem y hv))
      exact hnext.le j v hj
    have hfilter : ((y :: out').filter (· ≠ [])).Pairwise (· ≤ ·) ↔
        (out'.filter (· ≠ [])).Pairwise (· ≤ ·) := by
      by_cases hy : y = []
      · rw [List.filter_cons_of_neg (by simpa using hy)]
      · rw [List.filter_cons_of_pos (by simpa using hy), List.pairwise_cons]
        exact and_iff_right fun v hv => hle v (List.mem_of_mem_filter hv)
    rw [hfilter, ih hinv hrun, hiff, ← hnext.hasOvertaking_iff, or_iff_right hpending]

end Runs

section Buffers

def pad (lines : List Bytes) : List Bytes := if lines = [] then [[]] else lines

def startLines (bufs : List (List Bytes)) (j : ℕ) : List Bytes := (bufs.map pad).getD j []

def Merges (bufs : List (List Bytes)) : Prop :=
  ∃ out, sortedPrint (bufs.map List.flatten) = some out ∧ ∃ lines : List Bytes,
    out.flatten = lines.flatten ∧ lines.Perm bufs.flatten ∧ lines.Pairwise (· ≤ ·)

theorem map_range_getD (bufs : List (List Bytes)) :
    (List.range bufs.length).map (fun j => bufs.getD j []) = bufs := by
  refine List.ext_getElem (by simp) fun j hj hj' => ?_
  simp [List.getD_eq_getElem?_getD, hj']

theorem map_startLines (bufs : List (List Bytes)) :
    (List.range bufs.length).map (startLines bufs) = bufs.map pad := by
  have h := map_range_getD (bufs.map pad)
  rwa [List.length_map] at h

theorem length_le_flatten {b : List Bytes} (h : ∀ l ∈ b, IsLine l) :
    b.length ≤ b.flatten.length := by
  induction b with
  | nil => simp
  | cons l b ih =>
    rw [List.forall_mem_cons] at h
    have hl := List.length_pos_iff.mpr h.1.ne_nil
    have hb := ih h.2
    simp only [List.flatten_cons, List.length_append, List.length_cons]
    omega

theorem flatten_pad {bufs : List (List Bytes)} (h : ∀ b ∈ bufs, ∀ l ∈ b, IsLine l) :
    ((bufs.map pad).flatten.filter (· ≠ [])) = bufs.flatten ∧
      (bufs.map pad).flatten.length ≤ (bufs.map List.flatten).flatten.length + bufs.length := by
  induction bufs with
  | nil => simp
  | cons b bufs ih =>
    rw [List.forall_mem_cons] at h
    obtain ⟨hfilter, hlength⟩ := ih h.2
    have hb : (pad b).filter (· ≠ []) = b := by
      unfold pad
      split_ifs with hnil
      · simp [hnil]
      · exact List.filter_eq_self.mpr fun l hl => by simpa using (h.1 l hl).ne_nil
    have hbytes : (pad b).length ≤ b.flatten.length + 1 := by
      have hlines := length_le_flatten h.1
      unfold pad
      split_ifs
      · simp
      · omega
    simp only [List.map_cons, List.flatten_cons, List.filter_append, List.length_append,
      List.length_cons]
    rw [hb, hfilter]
    exact ⟨rfl, by omega⟩

theorem flatten_injective {ls ls' : List Bytes} (h : ∀ l ∈ ls, IsLine l) (h' : ∀ l ∈ ls', IsLine l)
    (heq : ls.flatten = ls'.flatten) : ls = ls' := by
  induction ls generalizing ls' with
  | nil =>
    cases ls' with
    | nil => rfl
    | cons l ls' => simp [(h' l List.mem_cons_self).ne_nil] at heq
  | cons l ls ih =>
    rw [List.forall_mem_cons] at h
    cases ls' with
    | nil => simp [h.1.ne_nil] at heq
    | cons l' ls' =>
      rw [List.forall_mem_cons] at h'
      rw [List.flatten_cons, List.flatten_cons] at heq
      have hcut := congrArg cutLine heq
      rw [cutLine_of_isLine h.1, cutLine_of_isLine h'.1] at hcut
      obtain ⟨rfl, hrest⟩ := Prod.mk.inj hcut
      rw [ih h.2 h'.2 hrest]

variable {bufs : List (List Bytes)}

theorem startLines_cases (j : ℕ) :
    startLines bufs j = [[]] ∨ startLines bufs j = [] ∨ startLines bufs j ∈ bufs := by
  rw [startLines, List.getD_eq_getElem?_getD, List.getElem?_map]
  cases hb : bufs[j]? with
  | none => exact .inr (.inl rfl)
  | some b =>
    by_cases hnil : b = []
    · exact .inl (if_pos hnil)
    · have hpad : pad b = b := if_neg hnil
      simpa [hpad] using Or.inr (Or.inr (List.mem_of_getElem? hb))

theorem inv_init (hlines : ∀ b ∈ bufs, ∀ l ∈ b, IsLine l)
    (hsorted : ∀ b ∈ bufs, b.Pairwise (· ≤ ·)) :
    Inv (.init (bufs.map List.flatten)) (List.range bufs.length) (startLines bufs) := by
  have hall : ∀ j, startLines bufs j = [[]] ∨
      (∀ l ∈ startLines bufs j, IsLine l) ∧ (startLines bufs j).Pairwise (· ≤ ·) := fun j => by
    rcases @startLines_cases bufs j with hj | hj | hj
    · exact .inl hj
    · exact .inr (by simp [hj])
    · exact .inr ⟨hlines _ hj, hsorted _ hj⟩
  refine ⟨⟨?_, List.pairwise_lt_range, fun j => ?_, fun j l hl => ?_, fun j => ?_⟩,
    fun _ _ v _ => not_lt.mp (List.not_lt_nil v), nofun, fun j hj => ⟨?_, rfl⟩⟩
  · have hmap := congrArg (List.map fun q => (q.headD [], q.tail.flatten)) (map_startLines bufs)
    rw [List.map_map, List.map_map] at hmap
    rw [SortedLineReader.init, List.map_map]
    refine Eq.trans (List.map_congr_left fun b hb => ?_) hmap.symm
    cases b with
    | nil => rfl
    | cons l ls => exact cutLine_of_isLine (hlines _ hb l List.mem_cons_self) ls.flatten
  · rw [List.mem_range, startLines, List.getD_eq_getElem?_getD, List.getElem?_map]
    by_cases hj : j < bufs.length
    · have hpad : pad bufs[j] ≠ [] := by
        unfold pad
        split_ifs with hb <;> simp [hb]
      simp [hj, hpad]
    · simp [hj]
  · rcases hall j with hj | ⟨hj, -⟩
    · simp [hj] at hl
    · exact hj l (List.mem_of_mem_tail hl)
  · rcases hall j with hj | ⟨-, hj⟩
    · simp [hj]
    · exact hj
  · rcases hall j with hj | ⟨hline, -⟩
    · exact hj
    · exact absurd rfl (hline [] hj).ne_nil

end Buffers

/--
`SortedPrint` ends and writes every line once.  The lines are in ascending order exactly if
no line, following another one of its buffer, is below all lines that are left of earlier
buffers but above a line of a later buffer.
-/
theorem merges_iff {bufs : List (List Bytes)} (hlines : ∀ b ∈ bufs, ∀ l ∈ b, IsLine l)
    (hsorted : ∀ b ∈ bufs, b.Pairwise (· ≤ ·)) :
    (∃ out, sortedPrint (bufs.map List.flatten) = some out ∧
      (out.filter (· ≠ [])).Perm bufs.flatten) ∧
      (Merges bufs ↔ ¬ HasOvertaking (startLines bufs)) := by
  have hinv := inv_init hlines hsorted
  obtain ⟨hfilter, hlength⟩ := flatten_pad hlines
  have hstart : (List.range bufs.length).flatMap (startLines bufs) = (bufs.map pad).flatten := by
    rw [List.flatMap_def, map_startLines]
  obtain ⟨hperm, hsome⟩ := printLoop_perm hinv.toView hinv.valid
    ((bufs.map List.flatten).flatten.length + (bufs.map List.flatten).length)
  rw [hstart] at hperm hsome
  obtain ⟨out, hout⟩ := Option.isSome_iff_exists.mp (hsome (by simpa using hlength))
  have hlinesPerm : (out.filter (· ≠ [])).Perm bufs.flatten := hfilter ▸ (hperm out hout).filter _
  have hiff := printLoop_sorted_iff hinv hout
  have hnone : ¬ Pending (.init (bufs.map List.flatten)) (List.range bufs.length)
      (startLines bufs) := fun ⟨_, _, _, _, _, _, hidx, _⟩ => nomatch hidx
  rw [or_iff_right hnone] at hiff
  refine ⟨⟨out, hout, hlinesPerm⟩, ?_⟩
  rw [← hiff]
  constructor
  · rintro ⟨out', hout', lines, hflat, hperm', hascending⟩
    obtain rfl : out = out' := Option.some.inj (hout.symm.trans hout')
    have hline : ∀ l ∈ bufs.flatten, IsLine l := fun l hl => by
      obtain ⟨b, hb, hl⟩ := List.mem_flatten.mp hl
      exact hlines b hb l hl
    obtain rfl : out.filter (· ≠ []) = lines := by
      refine flatten_injective (fun l hl => hline l (hlinesPerm.mem_iff.mp hl))
        (fun l hl => hline l (hperm'.mem_iff.mp hl)) ?_
      rw [← hflat]
      exact List.flatten_filter_ne_nil
    exact hascending
  · intro hascending
    exact ⟨out, hout, _, List.flatten_filter_ne_nil.symm, hlinesPerm, hascending⟩

/-- Three buffers; the shortcut prints `c` before `b`. -/
def threeBufs : List (List Bytes) := [[[100, 10]], [[97, 10], [99, 10]], [[98, 10]]]

theorem isLine_threeBufs : ∀ b ∈ threeBufs, ∀ l ∈ b, IsLine l := by
  simp only [threeBufs, List.forall_mem_cons, List.not_mem_nil, IsEmpty.forall_iff, implies_true,
    and_true]
  exact ⟨⟨[100], by decide, rfl⟩, ⟨⟨[97], by decide, rfl⟩, ⟨[99], by decide, rfl⟩⟩,
    ⟨[98], by decide, rfl⟩⟩

theorem merges_iff_threeBufs :
    (∃ out, sortedPrint (threeBufs.map List.flatten) = some out ∧
      (out.filter (· ≠ [])).Perm threeBufs.flatten) ∧
      (Merges threeBufs ↔ ¬ HasOvertaking (startLines threeBufs)) :=
  merges_iff isLine_threeBufs (by decide)

theorem not_merges_threeBufs :
    sortedPrint (threeBufs.map List.flatten) =
      some [[97, 10], [99, 10], [98, 10], [100, 10]] ∧ ¬ Merges threeBufs := by
  have hrun : sortedPrint (threeBufs.map List.flatten) =
      some [[97, 10], [99, 10], [98, 10], [100, 10]] := by
    decide +kernel
  refine ⟨hrun, ?_⟩
  rintro ⟨out, hout, lines, hflat, hperm, hsorted⟩
  obtain rfl := Option.some.inj (hrun.symm.trans hout)
  have hlines : lines = [[97, 10], [98, 10], [99, 10], [100, 10]] :=
    (hperm.trans (by decide)).eq_of_pairwise (fun _ _ _ _ => le_antisymm) hsorted (by decide)
  rw [hlines] at hflat
  revert hflat
  decide

end SortedPrint
end HeypAgents
