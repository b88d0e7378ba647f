import HeypAgents.HostAgent.ParseSS

/-!
# Memory safety of the parser

An invariant of the state that every value of a program keeps is kept by the whole code of
a field.  It is used with this one: whether the pointer to the auxiliary data is null does
not change, a next-field variable becomes true only in code that is executed, and the
cumulative usage is the conversion of an unsigned number.  For a sound program this keeps
the loop from writing through a null pointer.  What is left is the access to the address
fields, which does not check that they exist.
-/

namespace HeypAgents
namespace ParseSS

open MemoryFaults StringView

variable {Double : Type} (d : Doubles Double)

theorem returns_lastChar (s : View) : Returns (lastChar s) := by
  unfold lastChar
  split
  · rename_i hpos
    refine returns_index ?_
    unfold sizeSub
    split <;> omega
  · exact returns_pure _

theorem returns_parseBpsSS (s : View) : Returns (parseBpsSS d s) := by
  unfold parseBpsSS
  split
  · refine (returns_lastChar _).bind fun last => Returns.bind ?_ fun number => returns_pure _
    unfold withoutUnit
    split
    · exact returns_substr (Nat.zero_le _)
    · exact returns_pure _
  · exact returns_pure _

theorem returns_withoutJunk (s : View) : Returns (withoutJunk s) := by
  unfold withoutJunk
  split
  · exact returns_substr (Nat.zero_le _)
  · exact returns_pure _

theorem returns_parseMsSS (hasJunk : Bool) (s : View) : Returns (parseMsSS hasJunk s) := by
  unfold parseMsSS
  refine Returns.bind ?_ fun s => returns_pure _
  split
  · exact returns_withoutJunk s
  · exact returns_pure _

theorem returns_readValue (format : ValueFormat) (field : View) :
    Returns (readValue d format field) := by
  unfold readValue
  split
  · exact returns_pure _
  · exact returns_pure _
  · exact returns_pure _
  · exact (returns_parseBpsSS d field).bind fun _ => returns_pure _
  · exact (returns_parseMsSS _ field).bind fun _ => returns_pure _

/-! ## The code of a field -/

section Invariant

variable {d} {inv : State Double → Prop} {st : State Double}

def ParseValue.Keeps (d : Doubles Double) (inv : State Double → Prop) (code : ParseValue) : Prop :=
  ∀ field st, inv st → Ensures (code.run d field st) inv

theorem ensures_runParts {subFields : List View} {i : ℕ} {parts : List ParseValue}
    (h : ∀ code ∈ parts, code.Keeps d inv) (hlen : i + parts.length ≤ subFields.length)
    (hst : inv st) : Ensures (runParts d subFields i parts st) inv := by
  induction parts generalizing i st with
  | nil => exact ensures_pure hst
  | cons code parts ih =>
    obtain ⟨hcode, hparts⟩ := List.forall_mem_cons.mp h
    rw [List.length_cons] at hlen
    refine Ensures.bind (returns_index (by omega)) fun field _ => ?_
    exact (hcode field st hst).bind fun st' hst' => ih hparts (by omega) hst'

theorem ensures_runMaybeParts {subFields : List View} {i : ℕ} {parts : List ParseValue}
    (h : ∀ code ∈ parts, code.Keeps d inv) (hst : inv st) :
    Ensures (runMaybeParts d subFields i parts st) inv := by
  induction parts generalizing i st with
  | nil => exact ensures_pure hst
  | cons code parts ih =>
    obtain ⟨hcode, hparts⟩ := List.forall_mem_cons.mp h
    unfold runMaybeParts
    split
    · rename_i hlt
      refine Ensures.bind (returns_index hlt) fun field _ => ?_
      exact (hcode field st hst).bind fun st' hst' => ih hparts hst'
    · exact ih hparts hst

theorem ensures_runNamedPart {parts : List (String × ParseValue)} (field : View)
    (h : ∀ part ∈ parts, part.2.Keeps d inv) (hst : inv st) :
    Ensures (runNamedPart d parts st field) inv := by
  unfold runNamedPart
  split
  · rename_i part hpart
    exact h part (List.mem_of_find?_eq_some hpart) _ st hst
  · exact ensures_pure hst

def FieldCode.values : FieldCode → List ParseValue
  | .value code => [code]
  | .sep _ parts _ | .maybeSep _ parts _ => parts
  | .composite parts _ => parts.map Prod.snd

/-- What all values of a field keep, the field keeps. -/
theorem FieldCode.ensures_run {code : FieldCode} (field : View)
    (h : ∀ value ∈ code.values, value.Keeps d inv) (hst : inv st) :
    Ensures (code.run d field st) inv := by
  cases code with
  | value code => exact h code List.mem_cons_self field st hst
  | sep delimiter parts name =>
    simp only [FieldCode.run]
    split
    · exact ensures_throw _
    · rename_i hlen
      exact ensures_runParts h (by omega) hst
  | maybeSep delimiter parts name =>
    simp only [FieldCode.run]
    split
    · exact ensures_throw _
    · exact ensures_runMaybeParts h hst
  | composite parts name =>
    have hparts : ∀ part ∈ parts, part.2.Keeps d inv :=
      fun part hpart => h part.2 (List.mem_map_of_mem hpart)
    simp only [FieldCode.run]
    split
    · exact ensures_throw _
    · rename_i hparens
      have hopen : startsWith field "(" = true := by
        simp only [Bool.or_eq_true, Bool.not_eq_true', not_or, Bool.not_eq_false] at hparens
        exact hparens.1
      refine Ensures.bind (returns_substr (length_le_of_startsWith hopen)) fun field _ => ?_
      exact ensures_foldlM (fun st' hst' subField _ =>
        ensures_runNamedPart subField hparts hst') hst

end Invariant

/-! ## Assignments -/

def IsCounter (bytes : ℤ) : Prop := ∃ printed : ℕ, printed < 2 ^ 64 ∧ bytes = asInt64 printed

structure Holds (hasAux : Bool) (nextIs : List String) (st : State Double) : Prop where
  aux : st.aux.isSome = hasAux
  nextIs : st.nextIs = nextIs
  counter : IsCounter st.cumUsageBytes

structure ParseValue.Fits (hasAux : Bool) (code : ParseValue) : Prop where
  aux : code.dst.isAux = true → hasAux = true
  counter : code.dst = .cumUsageBytes → code.format = .part .uint

section Assignments

variable {d} {hasAux : Bool} {nextIs : List String} {st : State Double}

theorem ensures_assign {dst : Dest} {value : AuxValue Double}
    (haux : dst.isAux = true → hasAux = true)
    (hcounter : dst = .cumUsageBytes → IsCounter (value.toInt64 d))
    (hst : Holds hasAux nextIs st) : Ensures (assign d dst value st) (Holds hasAux nextIs) := by
  unfold assign
  split
  · rename_i haux'
    exact ensures_pure ⟨by rw [← hst.aux, haux']; rfl, hst.nextIs, hst.counter⟩
  · rename_i hnull
    have hsome := hst.aux.trans (haux rfl)
    rw [hnull] at hsome
    cases hsome
  · exact ensures_pure ⟨hst.aux, hst.nextIs, hst.counter⟩
  · exact ensures_pure ⟨hst.aux, hst.nextIs, hcounter rfl⟩

theorem lt_of_simpleAtou {width : ℕ} {text : View} {value : ℕ}
    (h : simpleAtou width text = some value) : value < 2 ^ width := by
  simp only [simpleAtou, Option.bind_eq_bind, Option.bind_eq_some_iff] at h
  obtain ⟨sign, -, h⟩ := h
  split at h
  · cases h
  · obtain ⟨value', -, h⟩ := Option.bind_eq_some_iff.mp h
    split_ifs at h with hlt
    cases h
    exact hlt

theorem ensures_readValue {format : ValueFormat} (field : View) :
    Ensures (readValue d format field) fun value =>
      format = .part .uint → ∀ v ∈ value, IsCounter (v.toInt64 d) := by
  by_cases huint : format = .part .uint
  · subst huint
    refine ensures_pure fun _ v hv => ?_
    obtain ⟨printed, hprinted, rfl⟩ := Option.map_eq_some_iff.mp hv
    exact ⟨printed, lt_of_simpleAtou hprinted, rfl⟩
  · exact Ensures.mono (returns_readValue d format field) fun _ _ h => absurd h huint

theorem ParseValue.Fits.keeps {code : ParseValue} (h : code.Fits hasAux) :
    code.Keeps d (Holds hasAux nextIs) := by
  intro field st hst
  refine (ensures_readValue field).bind fun value hvalue => ?_
  cases value with
  | none => exact ensures_throw _
  | some v => exact ensures_assign h.aux (fun hdst => hvalue (h.counter hdst) v rfl) hst

end Assignments

/-! ## Programs -/

def LateCode.values : LateCode → List ParseValue
  | .stripPrefixThen code => code.values
  | .setFlag _ | .nextField => []

def LateCode.flagIsAux : LateCode → Bool
  | .setFlag dst => dst.isAux
  | _ => false

structure Program.Sound (p : Program) : Prop where
  flag : ∀ late ∈ p.late, late.code.flagIsAux = true → late.checkAux = true
  late : ∀ late ∈ p.late, ∀ code ∈ late.code.values, code.Fits late.checkAux
  early : ∀ early ∈ p.early, ∀ late ∈ p.late, late.code = .nextField →
    late.name = early.name → ∀ code ∈ early.code.values, code.Fits late.checkAux

instance (hasAux : Bool) (code : ParseValue) : Decidable (code.Fits hasAux) :=
  decidable_of_iff
    ((code.dst.isAux = true → hasAux = true) ∧
      (code.dst = .cumUsageBytes → code.format = .part .uint))
    ⟨fun h => ⟨h.1, h.2⟩, fun h => ⟨h.aux, h.counter⟩⟩

instance (p : Program) : Decidable p.Sound :=
  decidable_of_iff
    ((∀ late ∈ p.late, late.code.flagIsAux = true → late.checkAux = true) ∧
      (∀ late ∈ p.late, ∀ code ∈ late.code.values, code.Fits late.checkAux) ∧
      ∀ early ∈ p.early, ∀ late ∈ p.late, late.code = .nextField →
        late.name = early.name → ∀ code ∈ early.code.values, code.Fits late.checkAux)
    ⟨fun h => ⟨h.1, h.2.1, h.2.2⟩, fun h => ⟨h.flag, h.late, h.early⟩⟩

theorem sound_program : program.Sound := by
  decide +kernel

theorem ParseValue.Fits.mono {code : ParseValue} {checkAux hasAux : Bool}
    (h : code.Fits checkAux) (haux : checkAux = true → hasAux = true) : code.Fits hasAux :=
  ⟨fun hdst => haux (h.aux hdst), h.counter⟩

structure Recognised (lates : List Late) (st st' : State Double) : Prop where
  aux : st'.aux.isSome = st.aux.isSome
  nextIs : ∀ name ∈ st'.nextIs, name ∈ st.nextIs ∨ ∃ late ∈ lates, late.name = name ∧
    late.code = .nextField ∧ (late.checkAux = true → st.aux.isSome = true)
  counter : IsCounter st'.cumUsageBytes

theorem Holds.recognised {lates : List Late} {st st' : State Double}
    (h : Holds st.aux.isSome st.nextIs st') : Recognised lates st st' :=
  ⟨h.aux, fun _ hname => .inl (h.nextIs ▸ hname), h.counter⟩

theorem Recognised.cons {late : Late} {lates : List Late} {st st' : State Double}
    (h : Recognised lates st st') : Recognised (late :: lates) st st' := by
  refine ⟨h.aux, fun name hname => (h.nextIs name hname).imp_right ?_, h.counter⟩
  rintro ⟨late', hlate', hrest⟩
  exact ⟨late', List.mem_cons_of_mem late hlate', hrest⟩

theorem ensures_runLate (field : View) {st : State Double} (hst : IsCounter st.cumUsageBytes)
    {lates : List Late} (hflag : ∀ late ∈ lates, late.code.flagIsAux = true → late.checkAux = true)
    (hlate : ∀ late ∈ lates, ∀ code ∈ late.code.values, code.Fits late.checkAux) :
    Ensures (runLate d field st lates) (Recognised lates st) := by
  have hold : Holds st.aux.isSome st.nextIs st := ⟨rfl, rfl, hst⟩
  induction lates with
  | nil => exact ensures_pure hold.recognised
  | cons late lates ih =>
    obtain ⟨hflag', hflags⟩ := List.forall_mem_cons.mp hflag
    obtain ⟨hfits, hlates⟩ := List.forall_mem_cons.mp hlate
    have hskip : Ensures (runLate d field st lates) (Recognised (late :: lates) st) :=
      (ih hflags hlates).mono fun _ hrest => hrest.cons
    unfold runLate
    split
    · exact hskip
    rename_i hguard
    have hcheck : late.checkAux = true → st.aux.isSome = true := by
      intro hcheck
      rw [hcheck, Bool.true_and, Option.isNone_iff_eq_none] at hguard
      exact Option.isSome_iff_ne_none.mpr hguard
    split
    · rename_i code hcode
      rw [hcode] at hfits
      split
      · exact (FieldCode.ensures_run _ (fun value hvalue =>
          ((hfits value hvalue).mono hcheck).keeps) hold).mono fun _ hrun => hrun.recognised
      · exact hskip
    · rename_i dst hcode
      rw [hcode] at hflag'
      split
      · have hone : IsCounter ((AuxValue.flag true).toInt64 d) := ⟨1, by omega, rfl⟩
        exact (ensures_assign (fun haux => hcheck (hflag' haux)) (fun _ => hone) hold).mono
          fun _ hrun => hrun.recognised
      · exact hskip
    · rename_i hcode
      split
      · refine ensures_pure ⟨rfl, fun name hname => ?_, hst⟩
        rcases List.mem_cons.mp hname with rfl | hname
        · exact .inr ⟨late, List.mem_cons_self, rfl, hcode, hcheck⟩
        · exact .inl hname
      · exact hskip

structure Expects (p : Program) (st : State Double) : Prop where
  next : ∀ early ∈ p.early, early.name ∈ st.nextIs →
    ∀ code ∈ early.code.values, code.Fits st.aux.isSome
  counter : IsCounter st.cumUsageBytes

theorem Expects.ensures_parseField {p : Program} (hp : p.Sound) {st : State Double}
    (hst : Expects p st) {field : View} (hfield : field ≠ []) :
    Ensures (parseField d p st field) (Expects p) := by
  unfold parseField
  split
  · rename_i early hfind
    have hearly := List.mem_of_find?_eq_some hfind
    have hnext : early.name ∈ st.nextIs := by simpa using List.find?_some hfind
    have hkeeps : ∀ code ∈ early.code.values, code.Keeps d (Holds st.aux.isSome st.nextIs) :=
      fun code hcode => (hst.next early hearly hnext code hcode).keeps
    refine (FieldCode.ensures_run field hkeeps ⟨rfl, rfl, hst.counter⟩).bind fun st' hst' => ?_
    refine ensures_pure ⟨fun early' hearly' hnext' => ?_, hst'.counter⟩
    have hold : early'.name ∈ st.nextIs := hst'.nextIs ▸ (List.mem_filter.mp hnext').1
    change ∀ code ∈ early'.code.values, code.Fits st'.aux.isSome
    rw [hst'.aux]
    exact hst.next early' hearly' hold
  · refine Ensures.bind (returns_index (List.length_pos_iff.mpr hfield)) fun first _ => ?_
    refine (ensures_runLate d field hst.counter
      (fun late hlate => hp.flag late (List.mem_filter.mp hlate).1)
      (fun late hlate => hp.late late (List.mem_filter.mp hlate).1)).mono fun st' hst' => ?_
    refine ⟨fun early hearly hnext code hcode => ?_, hst'.counter⟩
    rw [hst'.aux]
    rcases hst'.nextIs _ hnext with hold | ⟨late, hlate, hname, hnextField, hcheck⟩
    · exact hst.next early hearly hold code hcode
    · exact (hp.early early hearly late (List.mem_filter.mp hlate).1 hnextField hname code
        hcode).mono hcheck

/-- The generated code is memory safe for fields that are not empty. -/
theorem ensures_parseFieldsSS {p : Program} (hp : p.Sound) {fields : List View}
    (hfields : ∀ field ∈ fields, field ≠ []) (aux : Option (AuxInfo Double)) :
    Ensures (parseFieldsSS d p fields { aux := aux }) fun st => IsCounter st.cumUsageBytes := by
  have hstart : Expects p ({ aux := aux } : State Double) := by
    refine ⟨fun early _ hnext => ?_, 0, by omega, rfl⟩
    cases hnext
  exact (ensures_foldlM (fun st hst field hfield =>
    hst.ensures_parseField d hp (hfields field hfield)) hstart).mono fun _ hst => hst.counter

/-! ## Lines -/

theorem exists_statusOf {α : Type} {x : Checked String α} (h : Returns x) :
    ∃ r, statusOf x = pure r := by
  obtain ⟨r, hr, -⟩ := h
  refine ⟨r, ?_⟩
  rw [statusOf, hr]
  rfl

theorem returns_statusOf {α : Type} {x : Checked String α} (h : Returns x) :
    Returns (statusOf x) := by
  obtain ⟨r, hr⟩ := exists_statusOf h
  rw [hr]
  exact returns_pure r

theorem returns_status {α : Type} (r : Except String α) :
    Returns (ExceptT.mk (.ok r) : Checked String α) :=
  ⟨r, rfl, fun _ _ => trivial⟩

theorem ensures_parseLineSS (hostIdToUse : UInt64) {line : View} (collectAux : Bool)
    (hfields : 5 ≤ (fieldsOf line).length) :
    Ensures (parseLineSS d hostIdToUse line collectAux) fun parsed =>
      IsCounter parsed.cumUsageBytes := by
  have hnonempty : ∀ field ∈ fieldsOf line, field ≠ [] :=
    fun field hfield => ne_nil_of_mem_splitSkipWhitespace hfield
  refine Ensures.bind (returns_index (by omega)) fun srcField _ => ?_
  refine Ensures.bind (returns_statusOf (returns_parseHostPort srcField)) fun srcStatus _ => ?_
  refine Ensures.bind (returns_index (by omega)) fun dstField _ => ?_
  refine Ensures.bind (returns_statusOf (returns_parseHostPort dstField)) fun dstStatus _ => ?_
  refine Ensures.bind (returns_status srcStatus) fun src _ => ?_
  refine Ensures.bind (returns_status dstStatus) fun dst _ => ?_
  exact (ensures_parseFieldsSS d sound_program hnonempty _).bind fun st hst => ensures_pure hst

theorem length_of_returns {hostIdToUse : UInt64} {line : View} {collectAux : Bool}
    (h : Returns (parseLineSS d hostIdToUse line collectAux)) : 5 ≤ (fieldsOf line).length := by
  by_contra hfew
  by_cases hsrc : (fieldsOf line).length ≤ 3
  · exact not_ensures_bind (not_returns_index hsrc) h
  · obtain ⟨srcField, hsrcField⟩ := exists_index (not_le.mp hsrc)
    obtain ⟨srcStatus, hsrcStatus⟩ := exists_statusOf (returns_parseHostPort srcField)
    unfold parseLineSS at h
    rw [hsrcField, pure_bind, hsrcStatus, pure_bind] at h
    exact not_ensures_bind (not_returns_index (by omega)) h

/-- `ParseLineSS` returns iff the line has both address fields. -/
theorem returns_parseLineSS_iff (hostIdToUse : UInt64) (line : View) (collectAux : Bool) :
    Returns (parseLineSS d hostIdToUse line collectAux) ↔ 5 ≤ (fieldsOf line).length :=
  ⟨length_of_returns d, fun h => (ensures_parseLineSS d hostIdToUse collectAux h).returns⟩

/-- A line without addresses, read without any use of doubles. -/
theorem not_returns_parseLineSS_short :
    (parseLineSS (⟨fun _ => none, fun _ _ => 0⟩ : Doubles ℚ) 1 "ESTAB 0 0".toList false).run =
      .error .outOfRange := by
  decide +kernel

end ParseSS
end HeypAgents
