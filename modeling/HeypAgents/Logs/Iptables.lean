import HeypAgents.Logs.TcClasses
import Mathlib.Data.List.Sort
import Mathlib.Data.List.TakeWhile

/-!
# Rules of an iptables dump

`ReadIPTablesEnforcementRules` parses the `-A` lines of a dump, sorts the rules by
destination and merges the rules of one destination in place.

The token loop of a line takes a flag together with its value, and takes the value of
`--set-class` a second time, as a flag, if it is not a handle.  A `--set-class` at the end of
the line has no value to take, so that the loop stays where it is.  `items` reads the tokens
of a line once and for all: it says which tokens are flags with a value, and the loop is
shown to end with the values of the items, or never to end.
-/

namespace HeypAgents
namespace Logs

open ByteText

structure EnforcementRule where
  dstIP : Bytes
  qos : Bytes
  classID : TCHandle
deriving DecidableEq, Repr

structure IptFieldParser where
  fields : List Bytes := []
  errs : List String := []
  dstIP : Bytes := []
  target : Bytes := []
  classID : TCHandle := {}
  qos : Bytes := []
deriving DecidableEq, Repr

namespace IptFieldParser

def addErr (p : IptFieldParser) (e : String) : IptFieldParser := { p with errs := p.errs ++ [e] }

def getNext (p : IptFieldParser) : Bytes × IptFieldParser :=
  match p.fields with
  | _ :: s :: rest => (s, { p with fields := s :: rest })
  | _ => ([], p.addErr missingValueMesg)

def advance (p : IptFieldParser) : IptFieldParser := { p with fields := p.fields.tail }

/-- One iteration of the loop over the fields. -/
def parseField (p : IptFieldParser) : IptFieldParser :=
  match p.fields with
  | [] => p
  | f :: _ =>
    if f = ascii "-d" then
      let (v, p) := p.getNext
      { p with dstIP := trimSuffix v (ascii "/32") }.advance
    else if f = ascii "-j" then
      let (v, p) := p.getNext
      { p with target := v }.advance
    else if f = ascii "--set-class" then
      let (v, p) := p.getNext
      match tcHandle v with
      -- The loop continues without the advance at its end.
      | .error m => p.addErr ("failed to parse class: " ++ m)
      | .ok h => { p with classID := h }.advance
    else if f = ascii "--set-dscp" then
      let (v, p) := p.getNext
      { p with qos := v }.advance
    else p.advance

def hasFields (p : IptFieldParser) : Bool := !p.fields.isEmpty

/-- `parse`; `none` as long as the loop has not ended after `fuel` iterations. -/
def parse (fuel : ℕ) (p : IptFieldParser) : Option IptFieldParser :=
  match p.fields with
  | [] => some (p.addErr unknownRecMesg)
  | f :: _ =>
    if f = ascii "-A" then While.complete hasFields parseField fuel p
    else if f = ascii "-I" then some (p.addErr insertRuleMesg)
    else some (p.addErr unknownRecMesg)

/-- The checks after the loop. -/
def check (p : IptFieldParser) : IptFieldParser :=
  if p.target = ascii "CLASSIFY" then
    if p.classID = {} then p.addErr "got blank class ID for CLASSIFY rule" else p
  else if p.target = ascii "DSCP" then
    if p.qos = [] then p.addErr "got blank dscp for DSCP rule" else p
  else p

def rule (p : IptFieldParser) : EnforcementRule :=
  { dstIP := p.dstIP, qos := p.qos, classID := p.classID }

def didRet (p : IptFieldParser) : Bool := p.target = ascii "RETURN"

/-- `ParseRule` on the fields of a line: rule, return flag and error. -/
def parseRule (fuel : ℕ) (fields : List Bytes) : Option (EnforcementRule × Bool × Option String) :=
  (parse fuel { fields := fields }).map fun p =>
    let p := p.check
    (p.rule, p.didRet, joinErrs p.errs)

end IptFieldParser

/-- A rule with its return flag. -/
abbrev RuleAndRet := EnforcementRule × Bool

/-- The loop over the lines. -/
def readRules (quote : Bytes → String) (fuel : ℕ) :
    List Bytes → List RuleAndRet → Option (Except String (List RuleAndRet))
  | [], rules => some (.ok rules)
  | line :: lines, rules =>
    match IptFieldParser.parseRule fuel (fields line) with
    | none => none
    | some (rule, didRet, none) => readRules quote fuel lines (rules ++ [(rule, didRet)])
    | some (_, _, some e) =>
      if e = unknownRecMesg then readRules quote fuel lines rules
      else some (.error ("line " ++ quote line ++ ": " ++ e))

/-- A set field of the next rule wins, unless the last one returns. -/
def mergeRule (last next : RuleAndRet) : RuleAndRet :=
  if last.2 then last
  else
    ({ last.1 with
        qos := if next.1.qos ≠ [] then next.1.qos else last.1.qos
        classID := if next.1.classID ≠ {} then next.1.classID else last.1.classID },
      next.2)

/-- One iteration of the merge in place: the slices and the index of the last merged rule;
`none` where an index is out of range. -/
def mergeStep (s : List RuleAndRet × ℕ) (i : ℕ) : Option (List RuleAndRet × ℕ) := do
  let next ← s.1[i]?
  let last ← s.1[s.2]?
  if next.1.dstIP = last.1.dstIP then
    return (s.1.set s.2 (mergeRule last next), s.2)
  else
    let _ ← s.1[s.2 + 1]?
    return (s.1.set (s.2 + 1) next, s.2 + 1)

/-- Merge the runs of rules with one destination in place. -/
def mergeRules (rules : List RuleAndRet) : Option (List EnforcementRule) :=
  ((List.range' 1 (rules.length - 1)).foldlM mergeStep (rules, 0)).map fun s =>
    if 0 < rules.length then (s.1.take (s.2 + 1)).map Prod.fst else s.1.map Prod.fst

/-- `sort.Stable` by destination. -/
def sortRules (rules : List RuleAndRet) : List RuleAndRet :=
  rules.insertionSort fun a b => a.1.dstIP ≤ b.1.dstIP

/-- `ReadIPTablesEnforcementRules`; `none` while it still runs. -/
def readIPTablesEnforcementRules (quote : Bytes → String) (fuel : ℕ) (src : Source) :
    Option (Except String (List EnforcementRule)) :=
  match readRules quote fuel (scanned src) [] with
  | none => none
  | some (.error e) => some (.error e)
  | some (.ok rules) =>
    match scanErr src with
    | some e => some (.error ("failed to read input: " ++ e))
    | none => (mergeRules (sortRules rules)).map .ok

section Items

/-- The flags that always take a value; `--set-class` takes one that is a handle. -/
inductive Flag where
  | dst
  | target
  | dscp
  | setClass
deriving DecidableEq, Repr

def flagOf (token : Bytes) : Option Flag :=
  if token = ascii "-d" then some .dst
  else if token = ascii "-j" then some .target
  else if token = ascii "--set-class" then some .setClass
  else if token = ascii "--set-dscp" then some .dscp
  else none

/-- What a line says: a value for a flag, a class that is no handle, and a flag without a
value at the end of the line. -/
inductive Item where
  | setting (flag : Flag) (value : Bytes)
  | setClass (h : TCHandle)
  | badClass (mesg : String)
  | missing (flag : Flag)
deriving DecidableEq, Repr

def items : List Bytes → List Item
  | [] => []
  | [f] =>
    match flagOf f with
    | none => []
    | some flag => [.missing flag]
  | f :: v :: rest =>
    match flagOf f with
    | none => items (v :: rest)
    | some .setClass =>
      match tcHandle v with
      | .error m => .badClass m :: items (v :: rest)
      | .ok h => .setClass h :: items rest
    | some flag => .setting flag v :: items rest

def IptFieldParser.apply (p : IptFieldParser) : Item → IptFieldParser
  | .setting .dst v => { p with dstIP := trimSuffix v (ascii "/32") }
  | .setting .target v => { p with target := v }
  | .setting .dscp v => { p with qos := v }
  | .setting .setClass _ => p
  | .setClass h => { p with classID := h }
  | .badClass m => p.addErr ("failed to parse class: " ++ m)
  | .missing .dst => { p with dstIP := [] }.addErr missingValueMesg
  | .missing .target => { p with target := [] }.addErr missingValueMesg
  | .missing .dscp => { p with qos := [] }.addErr missingValueMesg
  | .missing .setClass => p

variable {p : IptFieldParser} {f v : Bytes} {rest : List Bytes} {fuel : ℕ}

def IptFieldParser.parseFlag (p : IptFieldParser) : Option Flag → IptFieldParser
  | none => p.advance
  | some .dst => { p.getNext.2 with dstIP := trimSuffix p.getNext.1 (ascii "/32") }.advance
  | some .target => { p.getNext.2 with target := p.getNext.1 }.advance
  | some .dscp => { p.getNext.2 with qos := p.getNext.1 }.advance
  | some .setClass =>
    match tcHandle p.getNext.1 with
    | .error m => p.getNext.2.addErr ("failed to parse class: " ++ m)
    | .ok h => { p.getNext.2 with classID := h }.advance

theorem parseField_eq (hp : p.fields = f :: rest) : p.parseField = p.parseFlag (flagOf f) := by
  simp only [IptFieldParser.parseField, hp, flagOf]
  split_ifs <;> rfl

theorem flagOf_setClass : flagOf (ascii "--set-class") = some .setClass := by
  decide

theorem eq_of_flagOf_setClass (hf : flagOf f = some .setClass) : f = ascii "--set-class" := by
  unfold flagOf at hf
  split_ifs at hf with hdst htarget hclass hdscp <;> first | exact hclass | cases hf

theorem parseField_stuck (hp : p.fields = [ascii "--set-class"]) :
    p.parseField.fields = [ascii "--set-class"] := by
  have hnext : p.getNext = ([], p.addErr missingValueMesg) := by
    simp only [IptFieldParser.getNext, hp]
  have hempty : tcHandle [] = .error "need parent:child handle" := by
    decide
  rw [parseField_eq hp, flagOf_setClass]
  simp only [IptFieldParser.parseFlag, hnext, hempty]
  exact hp

theorem complete_succ (hp : p.fields = f :: rest) (hfuel : (f :: rest).length ≤ fuel) :
    ∃ k, rest.length ≤ k ∧
      While.complete IptFieldParser.hasFields IptFieldParser.parseField fuel p =
        While.complete IptFieldParser.hasFields IptFieldParser.parseField k
          (p.parseFlag (flagOf f)) := by
  cases fuel with
  | zero => simp at hfuel
  | succ k =>
    refine ⟨k, by simpa using hfuel, ?_⟩
    rw [While.complete_of_cond (by simp [IptFieldParser.hasFields, hp]), parseField_eq hp]

theorem parseFlag_badClass {m : String} (hv : tcHandle v = .error m) :
    IptFieldParser.parseFlag { p with fields := f :: v :: rest } (some .setClass) =
      { p.apply (.badClass m) with fields := v :: rest } := by
  simp [IptFieldParser.parseFlag, IptFieldParser.getNext, hv, IptFieldParser.apply,
    IptFieldParser.addErr]

theorem parseFlag_setClass {h : TCHandle} (hv : tcHandle v = .ok h) :
    IptFieldParser.parseFlag { p with fields := f :: v :: rest } (some .setClass) =
      { p.apply (.setClass h) with fields := rest } := by
  simp [IptFieldParser.parseFlag, IptFieldParser.getNext, hv, IptFieldParser.apply,
    IptFieldParser.advance]

theorem parseFlag_setting {flag : Flag} (hflag : flag ≠ .setClass) :
    IptFieldParser.parseFlag { p with fields := f :: v :: rest } (some flag) =
      { p.apply (.setting flag v) with fields := rest } := by
  cases flag with
  | setClass => exact absurd rfl hflag
  | _ => rfl

/--
The token loop ends with the values of the items, unless the line ends with a `--set-class`
without value.
-/
theorem complete_items {ts : List Bytes} (hts : .missing .setClass ∉ items ts)
    (hfuel : ts.length ≤ fuel) :
    While.complete IptFieldParser.hasFields IptFieldParser.parseField fuel { p with fields := ts } =
      some { (items ts).foldl IptFieldParser.apply p with fields := [] } := by
  fun_induction items ts generalizing p fuel with
  | case1 => exact While.complete_of_not_cond rfl fuel
  | case2 f hf =>
    obtain ⟨k, -, hstep⟩ := @complete_succ { p with fields := [f] } f [] fuel rfl hfuel
    rw [hstep, hf]
    exact While.complete_of_not_cond rfl k
  | case3 f flag hf =>
    obtain ⟨k, -, hstep⟩ := @complete_succ { p with fields := [f] } f [] fuel rfl hfuel
    rw [hstep, hf]
    cases flag with
    | setClass => simp at hts
    | _ => exact While.complete_of_not_cond rfl k
  | case4 f v rest hf ih =>
    obtain ⟨k, hk, hstep⟩ :=
      @complete_succ { p with fields := f :: v :: rest } f (v :: rest) fuel rfl hfuel
    rw [hstep, hf]
    exact @ih p k hts hk
  | case5 f v rest hf m hm ih =>
    obtain ⟨k, hk, hstep⟩ :=
      @complete_succ { p with fields := f :: v :: rest } f (v :: rest) fuel rfl hfuel
    rw [hstep, hf, parseFlag_badClass hm]
    exact ih (fun hmem => hts (List.mem_cons_of_mem _ hmem)) hk
  | case6 f v rest hf h hh ih =>
    obtain ⟨k, hk, hstep⟩ :=
      @complete_succ { p with fields := f :: v :: rest } f (v :: rest) fuel rfl hfuel
    rw [hstep, hf, parseFlag_setClass hh]
    exact ih (fun hmem => hts (List.mem_cons_of_mem _ hmem)) (Nat.le_of_succ_le hk)
  | case7 f v rest flag hne hf ih =>
    obtain ⟨k, hk, hstep⟩ :=
      @complete_succ { p with fields := f :: v :: rest } f (v :: rest) fuel rfl hfuel
    rw [hstep, hf, parseFlag_setting hne]
    exact ih (fun hmem => hts (List.mem_cons_of_mem _ hmem)) (Nat.le_of_succ_le hk)

theorem complete_eq_none_of_parseFlag (hp : p.fields = f :: rest)
    (hnext : ∀ k, While.complete IptFieldParser.hasFields IptFieldParser.parseField k
      (p.parseFlag (flagOf f)) = none) :
    While.complete IptFieldParser.hasFields IptFieldParser.parseField fuel p = none := by
  have hcond : p.hasFields = true := by simp [IptFieldParser.hasFields, hp]
  cases fuel with
  | zero => rw [While.complete, if_pos hcond]
  | succ k => rw [While.complete_of_cond hcond, parseField_eq hp, hnext k]

/-- The token loop does not end on a line that ends with a `--set-class` without value. -/
theorem complete_hangs {ts : List Bytes} (hts : .missing .setClass ∈ items ts) :
    While.complete IptFieldParser.hasFields IptFieldParser.parseField fuel { p with fields := ts } =
      none := by
  fun_induction items ts generalizing p fuel with
  | case1 => cases hts
  | case2 f hf => cases hts
  | case3 f flag hf =>
    obtain rfl : Flag.setClass = flag := by simpa using hts
    obtain rfl := eq_of_flagOf_setClass hf
    refine While.complete_eq_none (I := fun p => p.fields = [ascii "--set-class"]) ?_ ?_ fuel rfl
    · intro q hq
      simp [IptFieldParser.hasFields, hq]
    · exact fun q => parseField_stuck
  | case4 f v rest hf ih =>
    refine complete_eq_none_of_parseFlag rfl fun k => ?_
    rw [hf]
    exact @ih p k hts
  | case5 f v rest hf m hm ih =>
    refine complete_eq_none_of_parseFlag rfl fun k => ?_
    rw [hf, parseFlag_badClass hm]
    exact ih (by simpa using hts)
  | case6 f v rest hf h hh ih =>
    refine complete_eq_none_of_parseFlag rfl fun k => ?_
    rw [hf, parseFlag_setClass hh]
    exact ih (by simpa using hts)
  | case7 f v rest flag hne hf ih =>
    refine complete_eq_none_of_parseFlag rfl fun k => ?_
    rw [hf, parseFlag_setting hne]
    exact ih (by simpa using hts)

end Items

section OpenClass

def takesValue (token : Bytes) : Bool :=
  token = ascii "-d" || token = ascii "-j" || token = ascii "--set-dscp"

def valueRun (ts : List Bytes) : ℕ := (ts.reverse.takeWhile takesValue).length

/-- The last token is a `--set-class` that no flag before it takes as its value. -/
def EndsInOpenClass (ts : List Bytes) : Prop :=
  ts.getLast? = some (ascii "--set-class") ∧ Even (valueRun ts.dropLast)

instance : DecidablePred EndsInOpenClass := fun ts =>
  inferInstanceAs
    (Decidable (ts.getLast? = some (ascii "--set-class") ∧ Even (valueRun ts.dropLast)))

variable {f v : Bytes} {ts rest : List Bytes}

theorem takesValue_iff : takesValue f = true ↔ ∃ flag, flagOf f = some flag ∧ flag ≠ .setClass := by
  unfold takesValue flagOf
  split_ifs with hdst htarget hclass hdscp
  · simp [hdst]
  · simp [htarget]
  · simp [hclass]
    decide
  · simp [hdscp]
  · simp [hdst, htarget, hdscp]

theorem valueRun_cons :
    valueRun (f :: ts) =
      if ts.all takesValue then ts.length + (if takesValue f then 1 else 0) else valueRun ts := by
  unfold valueRun
  rw [List.reverse_cons, List.takeWhile_append]
  by_cases hall : ts.all takesValue
  · have hself : ts.reverse.takeWhile takesValue = ts.reverse :=
      List.takeWhile_eq_self_iff.mpr fun t ht =>
        List.all_eq_true.mp hall t (List.mem_reverse.mp ht)
    rw [if_pos (congrArg List.length hself), if_pos hall]
    by_cases hf : takesValue f <;> simp [hf]
  · rw [if_neg hall, if_neg]
    intro hlen
    have hself := (List.takeWhile_prefix takesValue).eq_of_length hlen
    rw [List.takeWhile_eq_self_iff] at hself
    exact hall (List.all_eq_true.mpr fun t ht => hself t (List.mem_reverse.mpr ht))

theorem valueRun_of_all (h : ts.all takesValue = true) : valueRun ts = ts.length := by
  cases ts with
  | nil => rfl
  | cons t ts =>
    obtain ⟨ht, hts⟩ := Bool.and_eq_true_iff.mp h
    rw [valueRun_cons, if_pos hts, if_pos ht]
    rfl

theorem valueRun_cons_of_not (hf : takesValue f = false) : valueRun (f :: ts) = valueRun ts := by
  rw [valueRun_cons]
  split_ifs with hall
  · simp_all
  · simp [valueRun_of_all hall]
  · rfl

theorem even_valueRun_cons_cons (hf : takesValue f = true) :
    Even (valueRun (f :: v :: ts)) ↔ Even (valueRun ts) := by
  cases hv : takesValue v with
  | false =>
    have hrest : ¬ (v :: ts).all takesValue := by simp [hv]
    rw [valueRun_cons, if_neg hrest, valueRun_cons_of_not hv]
  | true =>
    rw [valueRun_cons, valueRun_cons]
    by_cases hall : ts.all takesValue
    · rw [valueRun_of_all hall]
      simp [hv, hall, hf, Nat.even_add_one]
    · simp [hv, hall]

theorem endsInOpenClass_cons_cons :
    EndsInOpenClass (f :: v :: ts) ↔
      (v :: ts).getLast? = some (ascii "--set-class") ∧
        Even (valueRun (f :: (v :: ts).dropLast)) := by
  simp [EndsInOpenClass]

theorem flagOf_of_tcHandle {h : TCHandle} (hv : tcHandle v = .ok h) : flagOf v = none := by
  unfold flagOf
  split_ifs with hdst htarget hclass hdscp
  · subst hdst
    cases hv
  · subst htarget
    cases hv
  · subst hclass
    cases hv
  · subst hdscp
    cases hv
  · rfl

theorem takesValue_of_flagOf (hf : flagOf f = none ∨ flagOf f = some .setClass) :
    takesValue f = false := by
  by_contra htakes
  obtain ⟨flag, hflag, hne⟩ := takesValue_iff.mp (Bool.of_not_eq_false htakes)
  rcases hf with hf | hf <;> rw [hf] at hflag
  · cases hflag
  · exact hne (Option.some.inj hflag).symm

theorem endsInOpenClass_cons_of_not (hf : takesValue f = false) :
    EndsInOpenClass (f :: v :: ts) ↔ EndsInOpenClass (v :: ts) := by
  rw [endsInOpenClass_cons_cons, valueRun_cons_of_not hf]
  rfl

/--
A class is open at the end of the line exactly if the last token is `--set-class`, directly
after an even number of flags that take the next token.
-/
theorem missing_setClass_iff : .missing .setClass ∈ items ts ↔ EndsInOpenClass ts := by
  fun_induction items ts with
  | case1 => simp [EndsInOpenClass]
  | case2 f hf =>
    have hne : f ≠ ascii "--set-class" := by
      rintro rfl
      rw [flagOf_setClass] at hf
      cases hf
    simp [EndsInOpenClass, hne]
  | case3 f flag hf =>
    have hiff : Flag.setClass = flag ↔ f = ascii "--set-class" := by
      constructor
      · rintro rfl
        exact eq_of_flagOf_setClass hf
      · rintro rfl
        exact Option.some.inj (flagOf_setClass.symm.trans hf)
    simp [EndsInOpenClass, valueRun, hiff]
  | case4 f v rest hf ih =>
    rw [ih, endsInOpenClass_cons_of_not (takesValue_of_flagOf (.inl hf))]
  | case5 f v rest hf m hm ih =>
    rw [endsInOpenClass_cons_of_not (takesValue_of_flagOf (.inr hf)), ← ih]
    simp
  | case6 f v rest hf h hh ih =>
    have hv := flagOf_of_tcHandle hh
    rw [endsInOpenClass_cons_of_not (takesValue_of_flagOf (.inr hf)), List.mem_cons, ih]
    cases rest with
    | nil =>
      have hne : v ≠ ascii "--set-class" := by
        rintro rfl
        rw [flagOf_setClass] at hv
        cases hv
      simp [EndsInOpenClass, hne]
    | cons r rest =>
      rw [endsInOpenClass_cons_of_not (takesValue_of_flagOf (.inl hv))]
      simp
  | case7 f v rest flag hne hf ih =>
    have htakes := takesValue_iff.mpr ⟨flag, hf, hne⟩
    rw [List.mem_cons, ih, endsInOpenClass_cons_cons]
    cases rest with
    | nil => simp [EndsInOpenClass, valueRun, htakes]
    | cons r rest =>
      rw [List.dropLast_cons_of_ne_nil (List.cons_ne_nil r rest),
        even_valueRun_cons_cons htakes]
      simp [EndsInOpenClass]

end OpenClass

end Logs
end HeypAgents
