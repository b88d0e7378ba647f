import HeypAgents.HostAgent.ParseSSSafety

/-!
# Parsing with and without the auxiliary data

Without the pointer to the auxiliary data, the code that it guards is skipped, also that
which recognises the name of a value in the next field.  Such a value is then looked at
as if it were a field of its own.  The state without the pointer is the one with it,
without the auxiliary data and without the names whose recognition is guarded (`erase`);
every field keeps it so, because a value that is a rate begins like a number, and no
field of the usage does.
-/

namespace HeypAgents
namespace ParseSS

open MemoryFaults StringView

variable {Double : Type} {d : Doubles Double}

/-! ## Numbers and names -/

def beginsNumber (c : Char) : Bool := c.isDigit || ['+', '-', '.', 'i', 'I', 'n', 'N'].contains c

def Doubles.ReadsNumbers (d : Doubles Double) : Prop :=
  ∀ text, (d.simpleAtod text).isSome →
    ∃ c, (text.dropWhile isSpace).head? = some c ∧ beginsNumber c = true

def beginsName (c : Char) : Bool := !beginsNumber c && !isSpace c

theorem exists_number_of_parseBpsSS {s : View} {value : ℤ}
    (h : (parseBpsSS d s).run = .ok (.ok (some value))) :
    ∃ n, (d.simpleAtod (s.take n)).isSome := by
  unfold parseBpsSS at h
  split_ifs at h with hbps
  · obtain ⟨last, -, h⟩ := run_bind_eq_iff.mp h
    obtain ⟨number, hnumber, h⟩ := run_bind_eq_iff.mp h
    obtain ⟨v, hv, -⟩ := Option.map_eq_some_iff.mp (run_pure_eq_iff.mp h)
    have hprefix : ∃ n, number = s.take n := by
      rw [withoutUnit, stripSuffix, if_pos hbps] at hnumber
      split_ifs at hnumber
      · rw [substr, substrFrom, if_pos (Nat.zero_le _), pure_bind, run_pure_eq_iff] at hnumber
        exact ⟨_, by rw [← hnumber, List.drop_zero, List.take_take]⟩
      · exact ⟨_, (run_pure_eq_iff.mp hnumber).symm⟩
    obtain ⟨n, rfl⟩ := hprefix
    exact ⟨n, Option.isSome_iff_exists.mpr ⟨v, hv⟩⟩
  · cases run_pure_eq_iff.mp h

variable {c : Char}

theorem parseBpsSS_of_beginsName (hd : d.ReadsNumbers) (hc : beginsName c = true)
    (rest : View) (value : ℤ) : (parseBpsSS d (c :: rest)).run ≠ .ok (.ok (some value)) := by
  intro h
  obtain ⟨n, hn⟩ := exists_number_of_parseBpsSS h
  obtain ⟨c', hc', hnumber⟩ := hd _ hn
  simp only [beginsName, Bool.and_eq_true, Bool.not_eq_true'] at hc
  cases n with
  | zero => cases hc'
  | succ n =>
    rw [List.take_succ_cons, List.dropWhile_cons_of_neg (by simp [hc.2]), List.head?_cons] at hc'
    obtain rfl := Option.some.inj hc'
    rw [hc.1] at hnumber
    cases hnumber

theorem splitSkipWhitespace_cons {c delimiter : Char} (hc : beginsName c = true)
    (hne : c ≠ delimiter) (rest : View) :
    ∃ piece pieces, splitSkipWhitespace [delimiter] (c :: rest) = (c :: piece) :: pieces := by
  simp only [beginsName, Bool.and_eq_true, Bool.not_eq_true'] at hc
  have hkept : ∀ piece, stripAsciiWhitespace (c :: piece) ≠ [] := by
    intro piece hempty
    rw [stripAsciiWhitespace, List.dropWhile_cons_of_neg (by simp [hc.2]),
      List.rdropWhile_eq_nil_iff] at hempty
    have hspace := hempty c List.mem_cons_self
    rw [hc.2] at hspace
    cases hspace
  obtain ⟨piece, pieces, hrest⟩ := List.exists_cons_of_ne_nil
    (List.splitOnP_ne_nil (fun c => [delimiter].contains c) rest)
  rw [splitSkipWhitespace, List.splitOnP_cons_eq_if_modifyHead, if_neg (by simpa using hne), hrest]
  refine ⟨piece, pieces.filter _, List.filter_cons_of_pos ?_⟩
  simpa using hkept piece

def FieldCode.readsRate (c : Char) : FieldCode → Bool
  | .value code => code.format = .part .bps
  | .maybeSep delimiter (code :: _) _ => code.format = .part .bps && c ≠ delimiter
  | _ => false

variable {code : ParseValue}

theorem ParseValue.run_of_beginsName (hd : d.ReadsNumbers)
    (hrate : code.format = .part .bps) (hc : beginsName c = true) (rest : View)
    (st st' : State Double) : (code.run d (c :: rest) st).run ≠ .ok (.ok st') := by
  intro h
  obtain ⟨value, hvalue, h⟩ := run_bind_eq_iff.mp h
  cases value with
  | none => exact run_throw_ne _ h
  | some v =>
    rw [hrate] at hvalue
    obtain ⟨rate, hparsed, hsome⟩ := run_bind_eq_iff.mp hvalue
    obtain ⟨bps, rfl, -⟩ := Option.map_eq_some_iff.mp (run_pure_eq_iff.mp hsome)
    exact parseBpsSS_of_beginsName hd hc rest bps hparsed

/-- A field that begins like a name is no value of such code. -/
theorem FieldCode.run_of_beginsName (hd : d.ReadsNumbers) {code : FieldCode}
    (hrate : code.readsRate c = true) (hc : beginsName c = true) (rest : View)
    (st st' : State Double) : (code.run d (c :: rest) st).run ≠ .ok (.ok st') := by
  cases code with
  | value code => exact code.run_of_beginsName hd (by simpa [readsRate] using hrate) hc rest st st'
  | maybeSep delimiter parts name =>
    cases parts with
    | nil => cases hrate
    | cons first parts =>
      simp only [readsRate, Bool.and_eq_true, decide_eq_true_eq] at hrate
      obtain ⟨piece, pieces, hpieces⟩ := splitSkipWhitespace_cons hc hrate.2 rest
      simp only [FieldCode.run, hpieces, List.length_cons]
      rw [if_neg (by omega), runMaybeParts, if_pos (by simp)]
      intro h
      obtain ⟨field, hfield, h⟩ := run_bind_eq_iff.mp h
      obtain rfl := run_pure_eq_iff.mp hfield
      obtain ⟨st₁, hst₁, -⟩ := run_bind_eq_iff.mp h
      exact first.run_of_beginsName hd hrate.1 hc piece st st₁ hst₁
  | sep delimiter parts name => cases hrate
  | composite parts name => cases hrate

/-! ## Recognition of a field -/

section Recognition

variable {field : View} {st : State Double}

def Late.recognises (late : Late) (field : View) : Bool :=
  match late.code with
  | .stripPrefixThen _ => startsWith field (late.name ++ ":")
  | _ => field = late.name.toList

def Late.run (d : Doubles Double) (field : View) (st : State Double) (late : Late) :
    Checked String (State Double) :=
  match late.code with
  | .stripPrefixThen code => code.run d (stripPrefix field (late.name ++ ":")) st
  | .setFlag dst => assign d dst (.flag true) st
  | .nextField => pure { st with nextIs := late.name :: st.nextIs }

theorem runLate_eq (lates : List Late) :
    runLate d field st lates =
      match lates.find? fun late =>
          !(late.checkAux && st.aux.isNone) && late.recognises field with
      | some late => late.run d field st
      | none => pure st := by
  induction lates with
  | nil => rfl
  | cons late lates ih =>
    rw [runLate, List.find?_cons, ih]
    cases hskip : late.checkAux && st.aux.isNone
    · cases hcode : late.code with
      | stripPrefixThen code =>
        simp only [Late.recognises, hcode]
        cases hrec : startsWith field (late.name ++ ":") <;> simp [Late.run, hcode]
      | setFlag dst =>
        by_cases hrec : field = late.name.toList <;> simp [Late.recognises, Late.run, hcode, hrec]
      | nextField =>
        by_cases hrec : field = late.name.toList <;> simp [Late.recognises, Late.run, hcode, hrec]
    · simp

theorem Late.takeWhile_of_recognises {late : Late} (hname : ':' ∉ late.name.toList)
    (h : late.recognises field = true) : field.takeWhile (fun c => c ≠ ':') = late.name.toList := by
  have hall : ∀ c ∈ late.name.toList, decide (c ≠ ':') = true := by
    intro c hc
    exact decide_eq_true fun heq => hname (heq ▸ hc)
  have hcases : (∃ rest, field = late.name.toList ++ ':' :: rest) ∨ field = late.name.toList := by
    unfold Late.recognises at h
    split at h
    · obtain ⟨rest, hrest⟩ := List.isPrefixOf_iff_prefix.mp h
      refine .inl ⟨rest, ?_⟩
      rw [← hrest]
      simp
    · exact .inr (of_decide_eq_true h)
  rcases hcases with ⟨rest, rfl⟩ | rfl
  · rw [List.takeWhile_append_of_pos hall, List.takeWhile_cons_of_neg (by simp), List.append_nil]
  · exact List.takeWhile_eq_self_iff.mpr hall

end Recognition

/-! ## Programs whose auxiliary data is apart -/

def FieldCode.dests (code : FieldCode) : List Dest := code.values.map ParseValue.dst

def LateCode.dests : LateCode → List Dest
  | .stripPrefixThen code => code.dests
  | .setFlag dst => [dst]
  | .nextField => []

structure Program.AuxApart (p : Program) : Prop where
  names : ∀ late ∈ p.late, ':' ∉ late.name.toList
  unique : ∀ late ∈ p.late, ∀ late' ∈ p.late, late.name = late'.name →
    late.checkAux = late'.checkAux
  dests : ∀ late ∈ p.late, ∀ dst ∈ late.code.dests, dst.isAux = late.checkAux
  next : ∀ late ∈ p.late, late.code = .nextField → ∃ early ∈ p.early, early.name = late.name
  early : ∀ late ∈ p.late, late.code = .nextField → ∀ early ∈ p.early,
    early.name = late.name → ∀ dst ∈ early.code.dests, dst.isAux = late.checkAux
  /-- The values after a guarded name are rates, with which no other name is confused. -/
  rates : ∀ late ∈ p.late, late.code = .nextField → late.checkAux = true → ∀ early ∈ p.early,
    early.name = late.name → ∀ late' ∈ p.late, late'.checkAux = false →
      (late'.name.toList.head?.all fun c => beginsName c && early.code.readsRate c) = true

instance (p : Program) : Decidable p.AuxApart :=
  decidable_of_iff
    ((∀ late ∈ p.late, ':' ∉ late.name.toList) ∧
      (∀ late ∈ p.late, ∀ late' ∈ p.late, late.name = late'.name → late.checkAux = late'.checkAux) ∧
      (∀ late ∈ p.late, ∀ dst ∈ late.code.dests, dst.isAux = late.checkAux) ∧
      (∀ late ∈ p.late, late.code = .nextField → ∃ early ∈ p.early, early.name = late.name) ∧
      (∀ late ∈ p.late, late.code = .nextField → ∀ early ∈ p.early,
        early.name = late.name → ∀ dst ∈ early.code.dests, dst.isAux = late.checkAux) ∧
      ∀ late ∈ p.late, late.code = .nextField → late.checkAux = true → ∀ early ∈ p.early,
        early.name = late.name → ∀ late' ∈ p.late, late'.checkAux = false →
          (late'.name.toList.head?.all fun c => beginsName c && early.code.readsRate c) = true)
    ⟨fun h => ⟨h.1, h.2.1, h.2.2.1, h.2.2.2.1, h.2.2.2.2.1, h.2.2.2.2.2⟩,
      fun h => ⟨h.names, h.unique, h.dests, h.next, h.early, h.rates⟩⟩

theorem auxApart_program : program.AuxApart := by
  decide +kernel

def Program.guards (p : Program) (name : String) : Bool :=
  p.late.any fun late => late.checkAux && late.name == name

theorem Program.AuxApart.guards_name {p : Program} (hp : p.AuxApart) {late : Late}
    (hlate : late ∈ p.late) : p.guards late.name = late.checkAux := by
  rw [Bool.eq_iff_iff, guards, List.any_eq_true]
  constructor
  · rintro ⟨late', hlate', hguard⟩
    rw [Bool.and_eq_true, beq_iff_eq] at hguard
    rw [hp.unique late hlate late' hlate' hguard.2.symm]
    exact hguard.1
  · intro hcheck
    exact ⟨late, hlate, by simp [hcheck]⟩

def Program.erase (p : Program) (st : State Double) : State Double :=
  { st with aux := none, nextIs := st.nextIs.filter fun name => !p.guards name }

/-! ## The code of a field -/

section Values

variable {p : Program} {st : State Double} {n : List String} {dst : Dest}

theorem simulates_assign (hdst : dst.isAux = false) (value : AuxValue Double) :
    Simulates p.erase (assign d dst value st) (assign d dst value (p.erase st)) := by
  cases dst with
  | aux field => cases hdst
  | curUsageBps => exact simulates_pure p.erase _
  | cumUsageBytes => exact simulates_pure p.erase _

theorem ParseValue.simulates_run (hdst : code.dst.isAux = false)
    (field : View) : Simulates p.erase (code.run d field st) (code.run d field (p.erase st)) := by
  refine simulates_bind_same fun value => ?_
  cases value with
  | none => exact simulates_throw _ _
  | some v => exact simulates_assign hdst v

theorem simulates_runParts {parts : List ParseValue}
    (h : ∀ code ∈ parts, code.dst.isAux = false) (subFields : List View) (i : ℕ) :
    Simulates p.erase (runParts d subFields i parts st)
      (runParts d subFields i parts (p.erase st)) := by
  induction parts generalizing i st with
  | nil => exact simulates_pure _ _
  | cons code parts ih =>
    obtain ⟨hcode, hparts⟩ := List.forall_mem_cons.mp h
    refine simulates_bind_same fun field => ?_
    exact (code.simulates_run hcode field).bind fun st' _ => ih hparts (i + 1)

theorem simulates_runMaybeParts {parts : List ParseValue}
    (h : ∀ code ∈ parts, code.dst.isAux = false) (subFields : List View) (i : ℕ) :
    Simulates p.erase (runMaybeParts d subFields i parts st)
      (runMaybeParts d subFields i parts (p.erase st)) := by
  induction parts generalizing i st with
  | nil => exact simulates_pure _ _
  | cons code parts ih =>
    obtain ⟨hcode, hparts⟩ := List.forall_mem_cons.mp h
    simp only [runMaybeParts]
    split
    · refine simulates_bind_same fun field => ?_
      exact (code.simulates_run hcode field).bind fun st' _ => ih hparts (i + 1)
    · exact ih hparts (i + 1)

theorem simulates_runNamedPart {parts : List (String × ParseValue)}
    (h : ∀ part ∈ parts, part.2.dst.isAux = false) (field : View) :
    Simulates p.erase (runNamedPart d parts st field) (runNamedPart d parts (p.erase st) field) := by
  unfold runNamedPart
  split
  · rename_i part hpart
    exact part.2.simulates_run (h part (List.mem_of_find?_eq_some hpart)) _
  · exact simulates_pure _ _

/-- Code without auxiliary values does the same without the pointer. -/
theorem FieldCode.simulates_run {code : FieldCode} (h : ∀ dst ∈ code.dests, dst.isAux = false)
    (field : View) : Simulates p.erase (code.run d field st) (code.run d field (p.erase st)) := by
  have hvalues : ∀ value ∈ code.values, value.dst.isAux = false :=
    fun value hvalue => h _ (List.mem_map_of_mem hvalue)
  cases code with
  | value code => exact code.simulates_run (hvalues code List.mem_cons_self) field
  | sep delimiter parts name =>
    simp only [FieldCode.run]
    split
    · exact simulates_throw _ _
    · exact simulates_runParts hvalues _ _
  | maybeSep delimiter parts name =>
    simp only [FieldCode.run]
    split
    · exact simulates_throw _ _
    · exact simulates_runMaybeParts hvalues _ _
  | composite parts name =>
    have hparts : ∀ part ∈ parts, part.2.dst.isAux = false :=
      fun part hpart => hvalues part.2 (List.mem_map_of_mem hpart)
    simp only [FieldCode.run]
    split
    · exact simulates_throw _ _
    · refine simulates_bind_same fun field => ?_
      exact simulates_foldlM
        (fun st (_ : True) subField _ => simulates_runNamedPart hparts subField)
        (fun _ _ _ _ _ _ => trivial) trivial

structure Assigned (n : List String) (st : State Double) : Prop where
  aux : st.aux.isSome = true
  nextIs : st.nextIs = n

theorem ensures_assigned {value : AuxValue Double} (hst : Assigned n st) :
    Ensures (assign d dst value st) (Assigned n) := by
  unfold assign
  split
  · exact ensures_pure ⟨rfl, hst.nextIs⟩
  · rename_i hnull
    have hsome := hst.aux
    rw [hnull] at hsome
    cases hsome
  · exact ensures_pure ⟨hst.aux, hst.nextIs⟩
  · exact ensures_pure ⟨hst.aux, hst.nextIs⟩

theorem ParseValue.keeps_assigned (code : ParseValue) : code.Keeps d (Assigned n) := by
  intro field st hst
  refine Ensures.bind (returns_readValue d code.format field) fun value _ => ?_
  cases value with
  | none => exact ensures_throw _
  | some v => exact ensures_assigned hst

theorem ensures_assign_erase {value : AuxValue Double} (hdst : dst.isAux = true)
    {e : State Double} (hst : st.aux.isSome = true ∧ p.erase st = e) :
    Ensures (assign d dst value st) fun st' => st'.aux.isSome = true ∧ p.erase st' = e := by
  unfold assign
  split
  · exact ensures_pure ⟨rfl, hst.2⟩
  · rename_i hnull
    have hsome := hst.1
    rw [hnull] at hsome
    cases hsome
  · cases hdst
  · cases hdst

theorem ParseValue.keeps_erase (hdst : code.dst.isAux = true)
    (e : State Double) : code.Keeps d fun st' => st'.aux.isSome = true ∧ p.erase st' = e := by
  intro field st hst
  refine Ensures.bind (returns_readValue d code.format field) fun value _ => ?_
  cases value with
  | none => exact ensures_throw _
  | some v => exact ensures_assign_erase hdst hst

end Values

/-! ## Fields -/

section Fields

variable {p : Program} {st st' : State Double} {field : View} {late : Late}

structure Program.Pending (p : Program) (st : State Double) : Prop where
  aux : st.aux.isSome = true
  next : st.nextIs = [] ∨ ∃ late ∈ p.late, late.code = .nextField ∧ st.nextIs = [late.name]

theorem Late.pending_run (hlate : late ∈ p.late) (haux : st.aux.isSome = true)
    (hnext : st.nextIs = []) (hrun : (late.run d field st).run = .ok (.ok st')) :
    p.Pending st' := by
  have hassigned : Assigned [] st := ⟨haux, hnext⟩
  unfold Late.run at hrun
  split at hrun
  · obtain ⟨haux', hnext'⟩ := (FieldCode.ensures_run _
      (fun value _ => value.keeps_assigned) hassigned).of_run hrun
    exact ⟨haux', .inl hnext'⟩
  · obtain ⟨haux', hnext'⟩ := (ensures_assigned hassigned).of_run hrun
    exact ⟨haux', .inl hnext'⟩
  · rename_i hcode
    obtain rfl := run_pure_eq_iff.mp hrun
    exact ⟨haux, .inr ⟨late, hlate, hcode, by rw [hnext]⟩⟩

theorem Late.simulates_run (hp : p.AuxApart) (hlate : late ∈ p.late)
    (hcheck : late.checkAux = false) :
    Simulates p.erase (late.run d field st) (late.run d field (p.erase st)) := by
  have hdests := hp.dests late hlate
  rw [hcheck] at hdests
  unfold Late.run
  split
  · rename_i code hcode
    rw [hcode] at hdests
    exact FieldCode.simulates_run hdests _
  · rename_i dst hcode
    rw [hcode] at hdests
    exact simulates_assign (hdests dst List.mem_cons_self) _
  · have hkept : p.erase { st with nextIs := late.name :: st.nextIs } =
        { p.erase st with nextIs := late.name :: (p.erase st).nextIs } := by
      simp [Program.erase, hp.guards_name hlate, hcheck]
    rw [← hkept]
    exact simulates_pure _ _

theorem Late.erase_run (hp : p.AuxApart) (hlate : late ∈ p.late) (hcheck : late.checkAux = true)
    (haux : st.aux.isSome = true) (hrun : (late.run d field st).run = .ok (.ok st')) :
    p.erase st' = p.erase st := by
  have hdests := hp.dests late hlate
  rw [hcheck] at hdests
  have hst : st.aux.isSome = true ∧ p.erase st = p.erase st := ⟨haux, rfl⟩
  unfold Late.run at hrun
  split at hrun
  · rename_i code hcode
    rw [hcode] at hdests
    exact ((FieldCode.ensures_run _ (fun value hvalue => value.keeps_erase
      (hdests _ (List.mem_map_of_mem hvalue)) _) hst).of_run hrun).2
  · rename_i dst hcode
    rw [hcode] at hdests
    exact ((ensures_assign_erase (hdests dst List.mem_cons_self) hst).of_run hrun).2
  · obtain rfl := run_pure_eq_iff.mp hrun
    simp [Program.erase, hp.guards_name hlate, hcheck]

theorem Program.AuxApart.checkAux_eq (hp : p.AuxApart) {late' : Late} (hlate : late ∈ p.late)
    (hlate' : late' ∈ p.late) (hrec : late.recognises field = true)
    (hrec' : late'.recognises field = true) : late.checkAux = late'.checkAux := by
  refine hp.unique late hlate late' hlate' (String.toList_inj.mp ?_)
  rw [← late.takeWhile_of_recognises (hp.names late hlate) hrec,
    late'.takeWhile_of_recognises (hp.names late' hlate') hrec']

variable {lates : List Late}

theorem runLate_of_guarded
    (h : ∀ late ∈ lates, late.recognises field = true → late.checkAux = true) :
    runLate d field (p.erase st) lates = pure (p.erase st) := by
  have hnone : lates.find? (fun late =>
      !(late.checkAux && (p.erase st).aux.isNone) && late.recognises field) = none := by
    rw [List.find?_eq_none]
    intro late hlate hfound
    simp only [Program.erase, Option.isNone_none, Bool.and_true, Bool.and_eq_true,
      Bool.not_eq_true'] at hfound
    rw [h late hlate hfound.2] at hfound
    cases hfound.1
  rw [runLate_eq, hnone]

/-- One case of the switch does the same without the pointer. -/
theorem simulates_runLate (hp : p.AuxApart) (haux : st.aux.isSome = true)
    (hlates : ∀ late ∈ lates, late ∈ p.late) :
    Simulates p.erase (runLate d field st lates) (runLate d field (p.erase st) lates) := by
  have hguard : ∀ late : Late, (!(late.checkAux && st.aux.isNone) && late.recognises field) =
      late.recognises field := by
    intro late
    rw [Option.isNone_eq_false_iff.mpr haux]
    simp
  intro st' hrun
  rw [runLate_eq] at hrun
  simp only [hguard] at hrun
  cases hfind : lates.find? fun late => late.recognises field with
  | none =>
    rw [hfind] at hrun
    obtain rfl := run_pure_eq_iff.mp hrun
    rw [runLate_of_guarded fun late hlate hrec =>
      absurd hrec (List.find?_eq_none.mp hfind late hlate)]
    rfl
  | some late =>
    rw [hfind] at hrun
    have hmem := List.mem_of_find?_eq_some hfind
    have hrec : late.recognises field = true := by simpa using List.find?_some hfind
    have hsame : ∀ late' ∈ lates, late'.recognises field = true →
        late'.checkAux = late.checkAux := fun late' hlate' hrec' =>
      hp.checkAux_eq (hlates late' hlate') (hlates late hmem) hrec' hrec
    cases hcheck : late.checkAux with
    | true =>
      rw [runLate_of_guarded fun late' hlate' hrec' => (hsame late' hlate' hrec').trans hcheck,
        Late.erase_run hp (hlates late hmem) hcheck haux hrun]
      rfl
    | false =>
      have hfind' : lates.find? (fun late =>
          !(late.checkAux && (p.erase st).aux.isNone) && late.recognises field) =
            some late := by
        rw [← hfind, ← List.head?_filter, ← List.head?_filter]
        refine congrArg List.head? (List.filter_congr fun late' hlate' => ?_)
        cases hrec' : late'.recognises field with
        | false => simp
        | true => simp [hsame late' hlate' hrec', hcheck]
      rw [runLate_eq, hfind']
      exact Late.simulates_run hp (hlates late hmem) hcheck st' hrun

theorem pending_runLate (hlates : ∀ late ∈ lates, late ∈ p.late)
    (haux : st.aux.isSome = true) (hnext : st.nextIs = [])
    (hrun : (runLate d field st lates).run = .ok (.ok st')) : p.Pending st' := by
  rw [runLate_eq] at hrun
  split at hrun
  · rename_i late hfind
    exact Late.pending_run (hlates late (List.mem_of_find?_eq_some hfind)) haux hnext hrun
  · obtain rfl := run_pure_eq_iff.mp hrun
    exact ⟨haux, .inl hnext⟩

theorem mem_of_mem_filter_head {first : Char} :
    ∀ late ∈ p.late.filter (fun late => late.name.toList.head? = some first), late ∈ p.late :=
  fun _ hlate => (List.mem_filter.mp hlate).1

theorem parseField_of_nextIs_nil (hnext : st.nextIs = []) :
    parseField d p st field = (do
      let first ← index field 0
      runLate d field st (p.late.filter fun late => late.name.toList.head? = some first)) := by
  have hnone : p.early.find? (fun early => st.nextIs.contains early.name) = none := by
    rw [List.find?_eq_none]
    simp [hnext]
  rw [parseField, hnone]

theorem exists_early (hp : p.AuxApart) (hlate : late ∈ p.late) (hcode : late.code = .nextField) :
    ∃ early ∈ p.early, early.name = late.name ∧
      ∀ (st : State Double) field, st.nextIs = [late.name] → parseField d p st field = (do
        let st ← early.code.run d field st
        return { st with nextIs := st.nextIs.filter fun name => name ≠ early.name }) := by
  obtain ⟨early₀, hearly₀, hname₀⟩ := hp.next late hlate hcode
  cases hfind : p.early.find? fun early => [late.name].contains early.name with
  | none =>
    have hnot := List.find?_eq_none.mp hfind early₀ hearly₀
    simp [hname₀] at hnot
  | some early =>
    have hname : early.name = late.name := by simpa using List.find?_some hfind
    refine ⟨early, List.mem_of_find?_eq_some hfind, hname, fun st field hnext => ?_⟩
    rw [parseField, hnext, hfind]

theorem exists_runLate_of_rate (hd : d.ReadsNumbers) (hp : p.AuxApart) (hlate : late ∈ p.late)
    (hcode : late.code = .nextField) (hcheck : late.checkAux = true) {early : Early}
    (hearly : early ∈ p.early) (hname : early.name = late.name) (hfield : field ≠ [])
    (hrun : (early.code.run d field st).run = .ok (.ok st')) :
    ∃ first, (index field 0 : Checked String Char).run = .ok (.ok first) ∧
      (runLate d field (p.erase st)
        (p.late.filter fun late => late.name.toList.head? = some first)).run =
          .ok (.ok (p.erase st)) := by
  obtain ⟨first, rest, rfl⟩ := List.exists_cons_of_ne_nil hfield
  refine ⟨first, rfl, ?_⟩
  rw [runLate_of_guarded]
  · rfl
  · intro late' hlate' _
    obtain ⟨hlate', hfirst⟩ := List.mem_filter.mp hlate'
    by_contra hunguarded
    have hrates := hp.rates late hlate hcode hcheck early hearly hname late' hlate'
      (Bool.not_eq_true _ ▸ hunguarded)
    rw [of_decide_eq_true hfirst, Option.all_some, Bool.and_eq_true] at hrates
    exact FieldCode.run_of_beginsName hd hrates.2 hrates.1 rest st st' hrun

/-- A field is parsed alike with and without the pointer. -/
theorem simulates_parseField (hd : d.ReadsNumbers) (hp : p.AuxApart) (hst : p.Pending st)
    (hfield : field ≠ []) :
    Simulates p.erase (parseField d p st field) (parseField d p (p.erase st) field) := by
  rcases hst.next with hnext | ⟨late, hlate, hcode, hnext⟩
  · have hnext' : (p.erase st).nextIs = [] := by simp [Program.erase, hnext]
    rw [parseField_of_nextIs_nil hnext, parseField_of_nextIs_nil hnext']
    exact simulates_bind_same fun first =>
      simulates_runLate hp hst.aux mem_of_mem_filter_head
  · obtain ⟨early, hearly, hname, hparse⟩ := @exists_early _ d _ _ hp hlate hcode
    have hdests := hp.early late hlate hcode early hearly hname
    have hguards := hp.guards_name hlate
    rw [hparse st field hnext]
    cases hcheck : late.checkAux with
    | false =>
      rw [hcheck] at hdests hguards
      have hnext' : (p.erase st).nextIs = [late.name] := by simp [Program.erase, hnext, hguards]
      rw [hparse _ field hnext']
      refine (FieldCode.simulates_run hdests field).bind fun st' _ => ?_
      have hkept : p.erase { st' with nextIs := st'.nextIs.filter fun name => name ≠ early.name } =
          { p.erase st' with
            nextIs := (p.erase st').nextIs.filter fun name => name ≠ early.name } := by
        simp only [Program.erase, List.filter_filter, Bool.and_comm]
      rw [← hkept]
      exact simulates_pure _ _
    | true =>
      rw [hcheck] at hdests hguards
      have hnext' : (p.erase st).nextIs = [] := by simp [Program.erase, hnext, hguards]
      intro st' hrun
      obtain ⟨st₁, hrun₁, hrun⟩ := run_bind_eq_iff.mp hrun
      obtain rfl := run_pure_eq_iff.mp hrun
      have hassigned := (FieldCode.ensures_run field
        (fun value _ => value.keeps_assigned) ⟨hst.aux, hnext⟩).of_run hrun₁
      have herased : p.erase st₁ = p.erase st :=
        ((FieldCode.ensures_run field (fun value hvalue => value.keeps_erase
          (hdests _ (List.mem_map_of_mem hvalue)) _) ⟨hst.aux, rfl⟩).of_run hrun₁).2
      have hempty : p.erase { st₁ with
          nextIs := st₁.nextIs.filter fun name => name ≠ early.name } = p.erase st := by
        rw [← herased]
        simp [Program.erase, hassigned.nextIs, hname, hguards]
      rw [hempty, parseField_of_nextIs_nil hnext']
      exact run_bind_eq_iff.mpr (exists_runLate_of_rate hd hp hlate hcode hcheck hearly hname
        hfield hrun₁)

theorem pending_parseField (hp : p.AuxApart) (hst : p.Pending st)
    (hrun : (parseField d p st field).run = .ok (.ok st')) : p.Pending st' := by
  rcases hst.next with hnext | ⟨late, hlate, hcode, hnext⟩
  · rw [parseField_of_nextIs_nil hnext] at hrun
    obtain ⟨first, -, hrun⟩ := run_bind_eq_iff.mp hrun
    exact pending_runLate mem_of_mem_filter_head hst.aux hnext hrun
  · obtain ⟨early, -, hname, hparse⟩ := @exists_early _ d _ _ hp hlate hcode
    rw [hparse st field hnext] at hrun
    obtain ⟨st₁, hrun₁, hrun⟩ := run_bind_eq_iff.mp hrun
    obtain rfl := run_pure_eq_iff.mp hrun
    obtain ⟨haux, hnext₁⟩ := (FieldCode.ensures_run field
      (fun value _ => value.keeps_assigned) ⟨hst.aux, hnext⟩).of_run hrun₁
    exact ⟨haux, .inl (by simp [hnext₁, hname])⟩

end Fields

/-! ## Lines -/

/-- The generated code does the same without the pointer. -/
theorem simulates_parseFieldsSS (hd : d.ReadsNumbers) {p : Program} (hp : p.AuxApart)
    {fields : List View} (hfields : ∀ field ∈ fields, field ≠ []) :
    Simulates p.erase (parseFieldsSS d p fields { aux := some [] })
      (parseFieldsSS d p fields { aux := none }) :=
  simulates_foldlM
    (fun st (hst : p.Pending st) field hfield =>
      simulates_parseField hd hp hst (hfields field hfield))
    (fun _ hst _ _ _ hrun => pending_parseField hp hst hrun) ⟨rfl, .inl rfl⟩

/--
Whenever a line is parsed with the auxiliary data, it is parsed without it, to the same flow
and the same usage.
-/
theorem parseLineSS_without_aux (hd : d.ReadsNumbers) (hostIdToUse : UInt64) (line : View)
    (parsed : LineSS Double)
    (hparsed : (parseLineSS d hostIdToUse line true).run = .ok (.ok parsed)) :
    (parseLineSS d hostIdToUse line false).run = .ok (.ok { parsed with aux := none }) := by
  have hnonempty : ∀ field ∈ fieldsOf line, field ≠ [] :=
    fun field hfield => ne_nil_of_mem_splitSkipWhitespace hfield
  have hsim : Simulates (fun parsed => { parsed with aux := none })
      (parseLineSS d hostIdToUse line true) (parseLineSS d hostIdToUse line false) := by
    refine simulates_bind_same fun srcField => simulates_bind_same fun srcStatus => ?_
    refine simulates_bind_same fun dstField => simulates_bind_same fun dstStatus => ?_
    refine simulates_bind_same fun src => simulates_bind_same fun dst => ?_
    exact (simulates_parseFieldsSS hd auxApart_program hnonempty).bind fun st _ =>
      simulates_pure _ _
  exact hsim parsed hparsed

def twelve : Doubles ℚ where
  simpleAtod text := if text = "12".toList then some 12 else none
  toInt64 value multiplier := (value * multiplier).floor

theorem readsNumbers_twelve : twelve.ReadsNumbers := by
  intro text hsome
  have htext : text = "12".toList := by
    by_contra hne
    have hnone : twelve.simpleAtod text = none := if_neg hne
    rw [hnone] at hsome
    cases hsome
  rw [htext]
  exact ⟨'1', by decide +kernel, by decide +kernel⟩

def pacedLine : View :=
  "ESTAB 0 0 10.0.0.1:80 10.0.0.2:4580 bytes_sent:7 send 12Mbps pacing_rate 12bps".toList

theorem parseLineSS_paced_without_aux :
    ∃ parsed, (parseLineSS twelve 1 pacedLine true).run = .ok (.ok parsed) ∧
      parsed.curUsageBps = 12000000 ∧ parsed.cumUsageBytes = 7 ∧
      (parseLineSS twelve 1 pacedLine false).run = .ok (.ok { parsed with aux := none }) := by
  have hparsed : (parseLineSS twelve 1 pacedLine true).run = .ok (.ok {
      flow := { hostId := 1, srcAddr := "10.0.0.1", dstAddr := "10.0.0.2", protocol := .tcp,
                srcPort := 80, dstPort := 4580 }
      curUsageBps := 12000000
      cumUsageBytes := 7
      aux := some [("pacing_rate", .int64 12)] }) := by
    decide +kernel
  exact ⟨_, hparsed, rfl, rfl, parseLineSS_without_aux readsNumbers_twelve 1 pacedLine _ hparsed⟩

end ParseSS
end HeypAgents
