import HeypAgents.Lib.SortedRuns
import HeypAgents.Logs.Iptables
import Mathlib.Algebra.Order.BigOperators.Group.List

/-!
# The rules of an iptables dump

Three results about `ReadIPTablesEnforcementRules`: what a line amounts to (it is skipped,
gives a rule, is rejected, or is never finished), on which dumps the function ends, and which
rules it computes.
-/

namespace HeypAgents
namespace Logs

open ByteText

section Lines

/-- The last value that the items give. -/
def lastValue {α : Type*} (value : Item → Option α) (its : List Item) (default : α) : α :=
  ((its.filterMap value).getLast?).getD default

def targetValue : Item → Option Bytes
  | .setting .target v => some v
  | _ => none

def dscpValue : Item → Option Bytes
  | .setting .dscp v => some v
  | _ => none

def classValue : Item → Option TCHandle
  | .setClass h => some h
  | _ => none

def Faulty (its : List Item) : Prop :=
  (∃ flag, .missing flag ∈ its) ∨ (∃ m, .badClass m ∈ its) ∨
    (lastValue targetValue its [] = ascii "CLASSIFY" ∧ lastValue classValue its {} = {}) ∨
    (lastValue targetValue its [] = ascii "DSCP" ∧ lastValue dscpValue its [] = [])

def IsAppend (ts : List Bytes) : Prop := ts.head? = some (ascii "-A")
deriving Decidable

def IsInsert (ts : List Bytes) : Prop := ts.head? = some (ascii "-I")
deriving Decidable

def Rejected (ts : List Bytes) : Prop := IsInsert ts ∨ IsAppend ts ∧ Faulty (items ts)

def Hangs (ts : List Bytes) : Prop := IsAppend ts ∧ EndsInOpenClass ts
deriving Decidable

/-- The errors an item adds. -/
def itemErrs : Item → List String
  | .badClass m => ["failed to parse class: " ++ m]
  | .missing .setClass => []
  | .missing _ => [missingValueMesg]
  | _ => []

variable {p : IptFieldParser} {its : List Item} {ts : List Bytes} {fuel : ℕ}

theorem errs_foldl : (its.foldl IptFieldParser.apply p).errs = p.errs ++ its.flatMap itemErrs := by
  induction its generalizing p with
  | nil => simp
  | cons it its ih =>
    have hit : (p.apply it).errs = p.errs ++ itemErrs it := by
      cases it with
      | setting flag v => cases flag <;> simp [IptFieldParser.apply, itemErrs]
      | setClass h => simp [IptFieldParser.apply, itemErrs]
      | badClass m => rfl
      | missing flag =>
        cases flag <;> simp [IptFieldParser.apply, itemErrs, IptFieldParser.addErr]
    rw [List.foldl_cons, ih, hit, List.flatMap_cons, List.append_assoc]

theorem foldl_clean {α : Type*} {get : IptFieldParser → α} {value : Item → Option α}
    (hclean : its.flatMap itemErrs = []) (hopen : .missing .setClass ∉ its)
    (hget : ∀ p it, (∀ flag, it ≠ .missing flag) → get (p.apply it) = (value it).getD (get p)) :
    get (its.foldl IptFieldParser.apply p) = lastValue value its (get p) := by
  induction its generalizing p with
  | nil => rfl
  | cons it its ih =>
    obtain ⟨hit, hits⟩ := List.append_eq_nil_iff.mp hclean
    have hflag : ∀ flag, it ≠ .missing flag := by
      rintro flag rfl
      cases flag with
      | setClass => exact hopen List.mem_cons_self
      | _ => cases hit
    rw [List.foldl_cons, ih hits (fun hmem => hopen (List.mem_cons_of_mem _ hmem)),
      hget p it hflag]
    cases hvalue : value it <;> simp [lastValue, hvalue, List.getLast?_cons]

def finished (ts : List Bytes) : IptFieldParser :=
  { (items ts).foldl IptFieldParser.apply {} with fields := [] }.check

theorem parseRule_append (happend : IsAppend ts) (hopen : ¬ EndsInOpenClass ts)
    (hfuel : ts.length ≤ fuel) :
    IptFieldParser.parseRule fuel ts =
      some ((finished ts).rule, (finished ts).didRet, joinErrs (finished ts).errs) := by
  obtain ⟨rest, rfl⟩ : ∃ rest, ts = ascii "-A" :: rest := List.head?_eq_some_iff.mp happend
  have hloop := @complete_items {} fuel _ (fun hmem => hopen (missing_setClass_iff.mp hmem)) hfuel
  simp only [IptFieldParser.parseRule, IptFieldParser.parse, if_true]
  rw [hloop]
  rfl

theorem parseRule_hangs (h : Hangs ts) : IptFieldParser.parseRule fuel ts = none := by
  obtain ⟨happend, hopen⟩ := h
  obtain ⟨rest, rfl⟩ : ∃ rest, ts = ascii "-A" :: rest := List.head?_eq_some_iff.mp happend
  simp only [IptFieldParser.parseRule, IptFieldParser.parse, if_true]
  rw [@complete_hangs {} fuel _ (missing_setClass_iff.mpr hopen)]
  rfl

theorem parseRule_insert (h : IsInsert ts) :
    ∃ rule, IptFieldParser.parseRule fuel ts = some (rule, false, some insertRuleMesg) := by
  obtain ⟨rest, rfl⟩ : ∃ rest, ts = ascii "-I" :: rest := List.head?_eq_some_iff.mp h
  exact ⟨_, rfl⟩

theorem parseRule_skip (happend : ¬ IsAppend ts) (hinsert : ¬ IsInsert ts) :
    ∃ rule, IptFieldParser.parseRule fuel ts = some (rule, false, some unknownRecMesg) := by
  cases ts with
  | nil => exact ⟨_, rfl⟩
  | cons t ts =>
    have hA : t ≠ ascii "-A" := fun h => happend (congrArg some h)
    have hI : t ≠ ascii "-I" := fun h => hinsert (congrArg some h)
    refine ⟨{ dstIP := [], qos := [], classID := {} }, ?_⟩
    simp only [IptFieldParser.parseRule, IptFieldParser.parse, if_neg hA, if_neg hI]
    rfl

theorem flatMap_itemErrs_eq_nil (hopen : .missing .setClass ∉ its) :
    its.flatMap itemErrs = [] ↔ ¬ ((∃ flag, .missing flag ∈ its) ∨ ∃ m, .badClass m ∈ its) := by
  rw [List.flatMap_eq_nil_iff]
  constructor
  · rintro h (⟨flag, hflag⟩ | ⟨m, hm⟩)
    · cases flag with
      | setClass => exact hopen hflag
      | _ => cases h _ hflag
    · cases h _ hm
  · intro h it hit
    cases it with
    | missing flag => exact absurd (.inl ⟨flag, hit⟩) h
    | badClass m => exact absurd (.inr ⟨m, hit⟩) h
    | _ => rfl

def blankErrs (p : IptFieldParser) : List String :=
  if p.target = ascii "CLASSIFY" then
    if p.classID = {} then ["got blank class ID for CLASSIFY rule"] else []
  else if p.target = ascii "DSCP" then
    if p.qos = [] then ["got blank dscp for DSCP rule"] else []
  else []

theorem errs_check : p.check.errs = p.errs ++ blankErrs p := by
  unfold IptFieldParser.check blankErrs
  split_ifs <;> simp [IptFieldParser.addErr]

theorem blankErrs_eq_nil :
    blankErrs p = [] ↔ ¬ (p.target = ascii "CLASSIFY" ∧ p.classID = {} ∨
      p.target = ascii "DSCP" ∧ p.qos = []) := by
  have hne : ascii "CLASSIFY" ≠ ascii "DSCP" := by decide
  unfold blankErrs
  split_ifs with hclassify hclass hdscp hqos <;> simp_all

theorem errs_finished_eq :
    (finished ts).errs = (items ts).flatMap itemErrs ++
      blankErrs ((items ts).foldl IptFieldParser.apply {}) := by
  rw [finished, errs_check, errs_foldl]
  rfl

/-- An item that is not missing sets at most one of the three fields. -/
theorem fields_apply (p : IptFieldParser) (it : Item) (hit : ∀ flag, it ≠ .missing flag) :
    (p.apply it).target = (targetValue it).getD p.target ∧
      (p.apply it).qos = (dscpValue it).getD p.qos ∧
      (p.apply it).classID = (classValue it).getD p.classID := by
  cases it with
  | setting flag v => cases flag <;> exact ⟨rfl, rfl, rfl⟩
  | missing flag => exact absurd rfl (hit flag)
  | _ => exact ⟨rfl, rfl, rfl⟩

/-- An append line has an error exactly if it is faulty. -/
theorem errs_finished (hopen : ¬ EndsInOpenClass ts) :
    (finished ts).errs = [] ↔ ¬ Faulty (items ts) := by
  have hmissing : .missing .setClass ∉ items ts := fun hmem => hopen (missing_setClass_iff.mp hmem)
  have hitems := flatMap_itemErrs_eq_nil hmissing
  rw [errs_finished_eq, List.append_eq_nil_iff, Faulty, ← or_assoc, not_or, ← hitems]
  refine and_congr_right fun hclean => ?_
  have htarget := @foldl_clean {} _ _ IptFieldParser.target _ hclean hmissing
    fun p it hit => (fields_apply p it hit).1
  have hqos := @foldl_clean {} _ _ IptFieldParser.qos _ hclean hmissing
    fun p it hit => (fields_apply p it hit).2.1
  have hclass := @foldl_clean {} _ _ IptFieldParser.classID _ hclean hmissing
    fun p it hit => (fields_apply p it hit).2.2
  rw [blankErrs_eq_nil, htarget, hqos, hclass]

theorem ne_of_head {s t : String} (h : s.toList.head? ≠ t.toList.head?) : s ≠ t := by
  rintro rfl
  exact h rfl

theorem ne_unknownRecMesg {e : String} (he : e ∈ (finished ts).errs) : e ≠ unknownRecMesg := by
  rw [errs_finished_eq, List.mem_append, List.mem_flatMap] at he
  rcases he with ⟨it, -, hit⟩ | hblank
  · cases it with
    | badClass m =>
      obtain rfl := List.mem_singleton.mp hit
      exact ne_of_head (by simp [unknownRecMesg])
    | missing flag =>
      cases flag with
      | setClass => cases hit
      | _ =>
        obtain rfl := List.mem_singleton.mp hit
        exact ne_of_head (by simp [unknownRecMesg, missingValueMesg])
    | _ => cases hit
  · unfold blankErrs at hblank
    split_ifs at hblank
    all_goals
      first
      | obtain rfl := List.mem_singleton.mp hblank
        exact ne_of_head (by simp [unknownRecMesg])
      | cases hblank

theorem joinErrs_ne {errs : List String} (h : ∀ e ∈ errs, e ≠ unknownRecMesg) :
    joinErrs errs ≠ some unknownRecMesg := by
  match errs with
  | [] => exact nofun
  | [e] => exact fun heq => h e List.mem_cons_self (Option.some.inj heq)
  | e₁ :: e₂ :: errs =>
    intro heq
    refine absurd (Option.some.inj heq) (ne_of_head ?_)
    simp [unknownRecMesg]

theorem joinErrs_eq_none {errs : List String} : joinErrs errs = none ↔ errs = [] := by
  match errs with
  | [] => exact ⟨fun _ => rfl, fun _ => rfl⟩
  | [e] => simp [joinErrs]
  | e₁ :: e₂ :: errs => simp [joinErrs]

end Lines

def dst (r : RuleAndRet) : Bytes := r.1.dstIP

theorem dst_mergeRule (last next : RuleAndRet) : dst (mergeRule last next) = dst last := by
  unfold mergeRule
  split_ifs <;> rfl

/-- The merge in place never leaves the slices. -/
theorem mergeRules_eq (rules : List RuleAndRet) :
    mergeRules rules = some ((SortedRuns.mergeRuns dst mergeRule rules).map Prod.fst) := by
  have hstep : mergeStep = SortedRuns.compactStep dst mergeRule := by
    funext s i
    unfold mergeStep SortedRuns.compactStep dst
    congr!
  cases rules with
  | nil => rfl
  | cons r rules =>
    obtain ⟨ys, last, hrun, htake⟩ :=
      @SortedRuns.compact_eq _ _ _ dst mergeRule (r :: rules) (List.cons_ne_nil r rules)
    have hpos : 0 < (r :: rules).length := Nat.succ_pos _
    rw [mergeRules, hstep, hrun, Option.map_some, if_pos hpos, htake]

section Termination

variable {quote : Bytes → String} {fuel : ℕ} {line : Bytes} {lines : List Bytes}
  {rules : List RuleAndRet}

theorem readRules_rejected (hline : Rejected (fields line)) (hends : ¬ Hangs (fields line))
    (hfuel : (fields line).length ≤ fuel) :
    ∃ e, readRules quote fuel (line :: lines) rules = some (.error e) := by
  rcases hline with hinsert | ⟨happend, hfaulty⟩
  · obtain ⟨rule, hparse⟩ := @parseRule_insert _ fuel hinsert
    exact ⟨_, by simp only [readRules, hparse]; rw [if_neg (by decide)]⟩
  · have hopen : ¬ EndsInOpenClass (fields line) := fun h => hends ⟨happend, h⟩
    have hparse := parseRule_append happend hopen hfuel
    cases hjoin : joinErrs (finished (fields line)).errs with
    | none => exact absurd hfaulty ((errs_finished hopen).mp (joinErrs_eq_none.mp hjoin))
    | some e =>
      have hne : e ≠ unknownRecMesg := by
        rintro rfl
        exact joinErrs_ne (fun e => ne_unknownRecMesg) hjoin
      rw [hjoin] at hparse
      exact ⟨_, by simp only [readRules, hparse]; rw [if_neg hne]⟩

theorem readRules_continues (hline : ¬ Rejected (fields line)) (hends : ¬ Hangs (fields line))
    (hfuel : (fields line).length ≤ fuel) :
    ∃ rules', readRules quote fuel (line :: lines) rules = readRules quote fuel lines rules' := by
  by_cases happend : IsAppend (fields line)
  · have hopen : ¬ EndsInOpenClass (fields line) := fun h => hends ⟨happend, h⟩
    have hfaulty : ¬ Faulty (items (fields line)) := fun h => hline (.inr ⟨happend, h⟩)
    have hparse := parseRule_append happend hopen hfuel
    rw [joinErrs_eq_none.mpr ((errs_finished hopen).mpr hfaulty)] at hparse
    exact ⟨_, by simp only [readRules, hparse]; rfl⟩
  · have hinsert : ¬ IsInsert (fields line) := fun h => hline (.inl h)
    obtain ⟨rule, hparse⟩ := @parseRule_skip _ fuel happend hinsert
    exact ⟨rules, by simp only [readRules, hparse, if_true]⟩

theorem readRules_hangs (hline : Hangs (fields line)) :
    readRules quote fuel (line :: lines) rules = none := by
  simp only [readRules, parseRule_hangs hline]

def HangsShielded (lines : List Bytes) : Prop :=
  ∀ pre line post, lines = pre ++ line :: post → Hangs (fields line) →
    ∃ earlier ∈ pre, Rejected (fields earlier)

theorem hangsShielded_cons (hline : ¬ Rejected (fields line)) (hends : ¬ Hangs (fields line)) :
    HangsShielded (line :: lines) ↔ HangsShielded lines := by
  constructor
  · intro h pre l post heq hl
    obtain ⟨earlier, hmem, hrejected⟩ := h (line :: pre) l post (by rw [heq]; rfl) hl
    rcases List.mem_cons.mp hmem with rfl | hmem
    · exact absurd hrejected hline
    · exact ⟨earlier, hmem, hrejected⟩
  · intro h pre l post heq hl
    cases pre with
    | nil =>
      obtain ⟨rfl, -⟩ := List.cons.inj heq
      exact absurd hl hends
    | cons l₀ pre =>
      obtain ⟨rfl, hrest⟩ := List.cons.inj heq
      obtain ⟨earlier, hmem, hrejected⟩ := h pre l post hrest hl
      exact ⟨earlier, List.mem_cons_of_mem _ hmem, hrejected⟩

theorem readRules_terminates (h : HangsShielded lines)
    (hfuel : ∀ line ∈ lines, (fields line).length ≤ fuel) :
    (readRules quote fuel lines rules).isSome := by
  induction lines generalizing rules with
  | nil => rfl
  | cons line lines ih =>
    have hends : ¬ Hangs (fields line) := by
      intro hline
      obtain ⟨earlier, hmem, -⟩ := h [] line lines rfl hline
      cases hmem
    have hlen := hfuel line List.mem_cons_self
    by_cases hline : Rejected (fields line)
    · obtain ⟨e, he⟩ := @readRules_rejected quote _ _ lines rules hline hends hlen
      rw [he]
      rfl
    · obtain ⟨rules', hnext⟩ := @readRules_continues quote _ _ lines rules hline hends hlen
      rw [hnext]
      exact ih ((hangsShielded_cons hline hends).mp h)
        fun l hl => hfuel l (List.mem_cons_of_mem _ hl)

theorem parseRule_mono {ts : List Bytes} {r : EnforcementRule × Bool × Option String} {k : ℕ}
    (h : IptFieldParser.parseRule k ts = some r) (hk : k ≤ fuel) :
    IptFieldParser.parseRule fuel ts = some r := by
  obtain ⟨p, hp, rfl⟩ := Option.map_eq_some_iff.mp h
  have hparse : IptFieldParser.parse fuel { fields := ts } = some p := by
    unfold IptFieldParser.parse at hp ⊢
    split at hp
    · exact hp
    · split_ifs at hp ⊢
      · exact While.complete_mono hp hk
      · exact hp
      · exact hp
  rw [IptFieldParser.parseRule, hparse]
  rfl

theorem readRules_mono {r : Except String (List RuleAndRet)} {k : ℕ}
    (h : readRules quote k lines rules = some r) (hk : k ≤ fuel) :
    readRules quote fuel lines rules = some r := by
  induction lines generalizing rules with
  | nil => exact h
  | cons line lines ih =>
    rw [readRules] at h ⊢
    cases hparse : IptFieldParser.parseRule k (fields line) with
    | none => simp [hparse] at h
    | some result =>
      rw [parseRule_mono hparse hk]
      rw [hparse] at h
      obtain ⟨rule, didRet, _ | e⟩ := result
      · exact ih h
      · dsimp only at h ⊢
        split_ifs at h ⊢
        · exact ih h
        · exact h

theorem readRules_diverges (h : ¬ HangsShielded lines) :
    readRules quote fuel lines rules = none := by
  by_contra hsome
  obtain ⟨r, hr⟩ := Option.ne_none_iff_exists'.mp hsome
  clear hsome
  induction lines generalizing rules fuel with
  | nil => exact h fun pre line post heq => by simp at heq
  | cons line lines ih =>
    by_cases hends : Hangs (fields line)
    · rw [readRules_hangs hends] at hr
      cases hr
    by_cases hline : Rejected (fields line)
    · refine h fun pre l post heq hl => ?_
      cases pre with
      | nil =>
        obtain ⟨rfl, -⟩ := List.cons.inj heq
        exact absurd hl hends
      | cons l₀ pre =>
        obtain ⟨rfl, -⟩ := List.cons.inj heq
        exact ⟨line, List.mem_cons_self, hline⟩
    · have hmore := readRules_mono hr (Nat.le_add_right fuel (fields line).length)
      obtain ⟨rules', hnext⟩ := @readRules_continues quote (fuel + (fields line).length) line
        lines rules hline hends (Nat.le_add_left _ _)
      rw [hnext] at hmore
      exact ih (mt (hangsShielded_cons hline hends).mpr h) hmore

/--
The rules of a dump are read, or an error is returned, exactly if every append line whose
last token is a `--set-class` that no flag takes as its value comes after a line that is
rejected.
-/
theorem readIPTables_terminates_iff (quote : Bytes → String) (src : Source) :
    (∃ fuel result, readIPTablesEnforcementRules quote fuel src = some result) ↔
      HangsShielded (scanned src) := by
  constructor
  · rintro ⟨fuel, result, hresult⟩
    by_contra hhangs
    rw [readIPTablesEnforcementRules, readRules_diverges hhangs] at hresult
    cases hresult
  · intro h
    refine ⟨((scanned src).map fun line => (fields line).length).sum, ?_⟩
    have hfuel : ∀ line ∈ scanned src,
        (fields line).length ≤ ((scanned src).map fun line => (fields line).length).sum :=
      fun line hline => List.single_le_sum (fun _ _ => Nat.zero_le _) _ (List.mem_map_of_mem hline)
    obtain ⟨result, hresult⟩ := Option.isSome_iff_exists.mp
      (@readRules_terminates quote _ _ [] h hfuel)
    rw [readIPTablesEnforcementRules, hresult]
    cases result with
    | error e => exact ⟨_, rfl⟩
    | ok rules =>
      cases hscan : scanErr src with
      | some e => exact ⟨_, rfl⟩
      | none => exact ⟨_, by dsimp only; rw [mergeRules_eq]; rfl⟩

/-- A dump cut off in the middle of a rule. -/
theorem not_terminates_truncated_dump :
    ¬ ∃ fuel result, readIPTablesEnforcementRules (fun _ => "") fuel
      { text := ascii "-A OUTPUT -d 10.0.0.1/32 -j CLASSIFY --set-class" } = some result := by
  rintro ⟨fuel, result, hresult⟩
  have hlines : scanned { text := ascii "-A OUTPUT -d 10.0.0.1/32 -j CLASSIFY --set-class" } =
      [ascii "-A OUTPUT -d 10.0.0.1/32 -j CLASSIFY --set-class"] := by
    decide +kernel
  have hhangs : Hangs (fields (ascii "-A OUTPUT -d 10.0.0.1/32 -j CLASSIFY --set-class")) := by
    decide +kernel
  rw [readIPTablesEnforcementRules, hlines, readRules_hangs hhangs] at hresult
  cases hresult

end Termination

section FirstMatch

def untilReturn (rs : List RuleAndRet) : List RuleAndRet :=
  rs.takeWhile (fun r => !r.2) ++ (rs.dropWhile fun r => !r.2).take 1

/-- The last value that is not blank. -/
def lastNonblank {α : Type*} [DecidableEq α] (blank : α) (values : List α) : α :=
  ((values.filter fun v => v ≠ blank).getLast?).getD blank

section Walk

variable {α : Type*} [DecidableEq α] {blank : α}

theorem untilReturn_cons (r : RuleAndRet) (rs : List RuleAndRet) :
    untilReturn (r :: rs) = if r.2 then [r] else r :: untilReturn rs := by
  cases hr : r.2 <;> simp [untilReturn, hr]

theorem lastNonblank_singleton (a : α) : lastNonblank blank [a] = a := by
  by_cases ha : a = blank <;> simp [lastNonblank, ha]

theorem lastNonblank_cons_cons (a b : α) (values : List α) :
    lastNonblank blank ((if b ≠ blank then b else a) :: values) =
      lastNonblank blank (a :: b :: values) := by
  by_cases hb : b = blank
  · simp [lastNonblank, hb]
  · by_cases ha : a = blank <;> simp [lastNonblank, hb, ha, List.getLast?_cons]

/-- The merge of the lines of one destination walks them up to the first return. -/
theorem foldl_mergeRule {get : EnforcementRule → α}
    (hget : ∀ last next : RuleAndRet, last.2 = false →
      get (mergeRule last next).1 = if get next.1 ≠ blank then get next.1 else get last.1)
    (first : RuleAndRet) (rest : List RuleAndRet) :
    get (rest.foldl mergeRule first).1 =
      lastNonblank blank ((untilReturn (first :: rest)).map fun r => get r.1) := by
  induction rest generalizing first with
  | nil =>
    have huntil : untilReturn [first] = [first] := by
      rw [untilReturn_cons]
      split_ifs <;> rfl
    rw [huntil]
    exact (lastNonblank_singleton _).symm
  | cons next rest ih =>
    rw [List.foldl_cons, ih, untilReturn_cons, untilReturn_cons first]
    cases hret : first.2 with
    | true =>
      have hsame : mergeRule first next = first := by simp [mergeRule, hret]
      rw [hsame, if_pos hret, if_pos rfl]
    | false =>
      have hnext : (mergeRule first next).2 = next.2 := by simp [mergeRule, hret]
      rw [hnext, if_neg Bool.false_ne_true, untilReturn_cons]
      split_ifs
      · simpa [hget first next hret] using lastNonblank_cons_cons _ _ []
      · simpa [hget first next hret] using lastNonblank_cons_cons _ _ _

theorem qos_mergeRule (last next : RuleAndRet) (h : last.2 = false) :
    (mergeRule last next).1.qos = if next.1.qos ≠ [] then next.1.qos else last.1.qos := by
  simp [mergeRule, h]

theorem classID_mergeRule (last next : RuleAndRet) (h : last.2 = false) :
    (mergeRule last next).1.classID =
      if next.1.classID ≠ {} then next.1.classID else last.1.classID := by
  simp [mergeRule, h]

end Walk

def ParsesTo (line : Bytes) (r : RuleAndRet) : Prop :=
  ∃ fuel, IptFieldParser.parseRule fuel (fields line) = some (r.1, r.2, none)

def appendLines (lines : List Bytes) : List Bytes := lines.filter fun line => IsAppend (fields line)

variable {quote : Bytes → String} {lines : List Bytes} {parsed : List RuleAndRet}

theorem readRules_parsed (hinsert : ∀ line ∈ lines, ¬ IsInsert (fields line))
    (hparsed : List.Forall₂ ParsesTo (appendLines lines) parsed) (rules : List RuleAndRet) :
    ∃ N, ∀ fuel ≥ N, readRules quote fuel lines rules = some (.ok (rules ++ parsed)) := by
  induction lines generalizing parsed rules with
  | nil =>
    cases hparsed
    exact ⟨0, fun fuel _ => by simp [readRules]⟩
  | cons line lines ih =>
    have hrest : ∀ line ∈ lines, ¬ IsInsert (fields line) :=
      fun l hl => hinsert l (List.mem_cons_of_mem _ hl)
    by_cases happend : IsAppend (fields line)
    · rw [appendLines, List.filter_cons_of_pos (by simpa using happend)] at hparsed
      obtain ⟨r, parsed', ⟨k, hk⟩, hparsed', rfl⟩ := List.forall₂_cons_left_iff.mp hparsed
      obtain ⟨N, hN⟩ := ih hrest hparsed' (rules ++ [r])
      refine ⟨max k N, fun fuel hfuel => ?_⟩
      rw [readRules, parseRule_mono hk (le_of_max_le_left hfuel)]
      rw [List.append_cons]
      exact hN fuel (le_of_max_le_right hfuel)
    · rw [appendLines, List.filter_cons_of_neg (by simpa using happend)] at hparsed
      obtain ⟨N, hN⟩ := ih hrest hparsed rules
      refine ⟨N, fun fuel hfuel => ?_⟩
      obtain ⟨rule, hskip⟩ := @parseRule_skip _ fuel happend (hinsert line List.mem_cons_self)
      simp only [readRules, hskip, if_true]
      exact hN fuel hfuel

/--
For a dump without insert lines and without lines that are too long, whose append lines all
parse, the result has one rule per destination in ascending order, with the last QoS and the
last class of the lines for this destination up to the first return.
-/
theorem readIPTables_firstMatch (quote : Bytes → String) (src : Source)
    (hlong : scanErr src = none) (hinsert : ∀ line ∈ scanned src, ¬ IsInsert (fields line))
    (hparsed : List.Forall₂ ParsesTo (appendLines (scanned src)) parsed) :
    ∃ N rules, (∀ fuel ≥ N, readIPTablesEnforcementRules quote fuel src = some (.ok rules)) ∧
      (rules.map EnforcementRule.dstIP).Pairwise (· < ·) ∧
      (∀ d, d ∈ rules.map EnforcementRule.dstIP ↔ d ∈ parsed.map dst) ∧
      ∀ rule ∈ rules,
        rule.qos = lastNonblank []
          ((untilReturn (parsed.filter fun r => dst r = rule.dstIP)).map fun r => r.1.qos) ∧
        rule.classID = lastNonblank {}
          ((untilReturn (parsed.filter fun r => dst r = rule.dstIP)).map fun r => r.1.classID) := by
  obtain ⟨N, hN⟩ := @readRules_parsed quote _ _ hinsert hparsed []
  obtain ⟨hascending, hkeys, hfold⟩ :=
    SortedRuns.mergeRuns_insertionSort (fun a b _ => dst_mergeRule a b) parsed rfl
  refine ⟨N, (SortedRuns.mergeRuns dst mergeRule (sortRules parsed)).map Prod.fst, ?_, ?_, ?_, ?_⟩
  · intro fuel hfuel
    rw [readIPTablesEnforcementRules, hN fuel hfuel, List.nil_append]
    dsimp only
    rw [hlong]
    dsimp only
    rw [mergeRules_eq]
    rfl
  · rw [List.map_map]
    exact hascending
  · intro d
    rw [List.map_map]
    exact hkeys d
  · intro rule hrule
    obtain ⟨y, hy, rfl⟩ := List.mem_map.mp hrule
    obtain ⟨first, rest, hgroup, hyfold⟩ := hfold y hy
    have hlines : (parsed.filter fun r => dst r = y.1.dstIP) = first :: rest := by
      rw [← hgroup]
      unfold SortedRuns.group
      congr!
    rw [hlines, hyfold]
    exact ⟨foldl_mergeRule qos_mergeRule first rest, foldl_mergeRule classID_mergeRule first rest⟩

def twoDestinations : Source where
  text := ascii "*mangle\n" ++ ascii "-A OUTPUT -d 10.0.0.2/32 -j DSCP --set-dscp 0x12\n" ++
    ascii "-A OUTPUT -d 10.0.0.2/32 -j RETURN\n" ++
    ascii "-A OUTPUT -d 10.0.0.1/32 -j CLASSIFY --set-class 1:3\n" ++
    ascii "-A OUTPUT -d 10.0.0.2/32 -j DSCP --set-dscp 0x00\n"

theorem readIPTables_firstMatch_two_destinations :
    scanErr twoDestinations = none ∧
      (∀ line ∈ scanned twoDestinations, ¬ IsInsert (fields line)) ∧
      ∃ N rules, ∀ fuel ≥ N,
        readIPTablesEnforcementRules (fun _ => "") fuel twoDestinations = some (.ok rules) := by
  have hlong : scanErr twoDestinations = none := by
    decide +kernel
  have hinsert : ∀ line ∈ scanned twoDestinations, ¬ IsInsert (fields line) := by
    decide +kernel
  have hlines : appendLines (scanned twoDestinations) =
      [ascii "-A OUTPUT -d 10.0.0.2/32 -j DSCP --set-dscp 0x12",
        ascii "-A OUTPUT -d 10.0.0.2/32 -j RETURN",
        ascii "-A OUTPUT -d 10.0.0.1/32 -j CLASSIFY --set-class 1:3",
        ascii "-A OUTPUT -d 10.0.0.2/32 -j DSCP --set-dscp 0x00"] := by
    decide +kernel
  have hparsed : List.Forall₂ ParsesTo (appendLines (scanned twoDestinations))
      [(⟨ascii "10.0.0.2", ascii "0x12", {}⟩, false), (⟨ascii "10.0.0.2", [], {}⟩, true),
        (⟨ascii "10.0.0.1", [], ⟨1, 3⟩⟩, false),
        (⟨ascii "10.0.0.2", ascii "0x00", {}⟩, false)] := by
    rw [hlines]
    refine .cons ⟨8, ?_⟩ (.cons ⟨8, ?_⟩ (.cons ⟨8, ?_⟩ (.cons ⟨8, ?_⟩ .nil))) <;> decide +kernel
  obtain ⟨N, rules, hrun, -⟩ :=
    readIPTables_firstMatch (fun _ => "") twoDestinations hlong hinsert hparsed
  exact ⟨hlong, hinsert, N, rules, hrun⟩

def insertDump : Source where
  text := ascii "-I OUTPUT -j ACCEPT\n-A OUTPUT -d 10.0.0.1/32 -j RETURN\n"

/-- The insert line is an error although the append line parses. -/
theorem no_rules_with_insert_line :
    (∀ line ∈ appendLines (scanned insertDump), ∃ r, ParsesTo line r) ∧
      ¬ ∃ fuel rules,
        readIPTablesEnforcementRules (fun _ => "") fuel insertDump = some (.ok rules) := by
  constructor
  · have hlines : appendLines (scanned insertDump) =
        [ascii "-A OUTPUT -d 10.0.0.1/32 -j RETURN"] := by
      decide +kernel
    rw [hlines]
    intro line hline
    obtain rfl := List.mem_singleton.mp hline
    exact ⟨(⟨ascii "10.0.0.1", [], {}⟩, true), 6, by decide +kernel⟩
  · rintro ⟨fuel, rules, hresult⟩
    have hlines : scanned insertDump =
        [ascii "-I OUTPUT -j ACCEPT", ascii "-A OUTPUT -d 10.0.0.1/32 -j RETURN"] := by
      decide +kernel
    obtain ⟨rule, hparse⟩ :=
      @parseRule_insert (fields (ascii "-I OUTPUT -j ACCEPT")) fuel (by decide +kernel)
    rw [readIPTablesEnforcementRules, hlines, readRules, hparse] at hresult
    cases hresult

end FirstMatch

end Logs
end HeypAgents
