import HeypAgents.HostAgent.Urls
import HeypAgents.Proto.Flows
import Mathlib.Data.List.Sort

/-!
# Lines of the socket statistics

`ParseLineSS` reads a line that `ss` prints for a connection.  The code for the named
fields is generated from a table: `genParser` is the generator, a `Program` is what it
generates, and `parseFieldsSS` runs a program over the fields of a line.

Only some of the values are usage; the others are auxiliary and are written through a
pointer that may be null.  Code that writes them has to be guarded by a check of the
pointer, either directly or, for a value that is in the field after its name, by the
check that guards the recognition of the name (`Program.Sound`).
-/

namespace HeypAgents
namespace ParseSS

open MemoryFaults StringView

structure Doubles (Double : Type) where
  simpleAtod : View → Option Double
  toInt64 : Double → ℕ → ℤ

def asInt64 (n : ℕ) : ℤ := Int.bmod n (2 ^ 64)

def bpsMultiplier (last : Char) : ℕ :=
  match last with
  | 'k' | 'K' => 10 ^ 3
  | 'm' | 'M' => 10 ^ 6
  | 'g' | 'G' => 10 ^ 9
  | 't' | 'T' => 10 ^ 12
  | _ => 1

def lastChar (s : View) : Checked String Char :=
  if 0 < s.length then index s (sizeSub s.length 1) else pure (Char.ofNat 0)

def withoutUnit (multiplier : ℕ) (s : View) : Checked String View :=
  if multiplier ≠ 1 then substr s 0 (sizeSub s.length 1) else pure s

/-- `none` when the text is not a rate. -/
def parseBpsSS {Double : Type} (d : Doubles Double) (s : View) : Checked String (Option ℤ) :=
  if endsWith s "bps" then do
    let last ← lastChar (stripSuffix s "bps")
    let number ← withoutUnit (bpsMultiplier last) (stripSuffix s "bps")
    return (d.simpleAtod number).map fun val => d.toInt64 val (bpsMultiplier last)
  else return none

/-- The text before an opening parenthesis. -/
def withoutJunk (s : View) : Checked String View :=
  match s.idxOf? '(' with
  | some ind => substr s 0 ind
  | none => pure s

/-- `none` when the text is not a number of milliseconds. -/
def parseMsSS (hasJunk : Bool) (s : View) : Checked String (Option ℤ) := do
  let s ← (if hasJunk then withoutJunk s else pure s : Checked String View)
  return if endsWith s "ms" then simpleAtoi 64 (stripSuffix s "ms") else none

/-! ## The generator -/

/-- The formats of the parts of a field. -/
inductive PartFormat where
  | int
  | uint
  | double
  | bps
deriving DecidableEq, Repr

inductive NextFormat where
  | bps
  | maybeSep (sep : Char) (parts : List (String × PartFormat))
deriving DecidableEq, Repr

inductive Format where
  | value (format : PartFormat)
  | ms (hasJunk : Bool)
  | flag
  | sep (sep : Char) (parts : List (String × PartFormat))
  | composite (parts : List (String × PartFormat))
  | nextField (next : NextFormat)
deriving DecidableEq, Repr

/-- `TCP_STAT_DESC`. -/
def tcpStatDesc : List (String × Format) :=
  [("wscale", .sep ',' [("snd_wscale", .int), ("rcv_wscale", .int)]), ("rto", .value .double),
    ("backoff", .value .int),
    ("rtt", .sep '/' [("rtt", .double), ("rttvar", .double)]),
    ("ato", .value .double),
    ("qack", .value .int),
    ("mss", .value .int),
    ("pmtu", .value .uint),
    ("rcvmss", .value .int),
    ("advmss", .value .int),
    ("cwnd", .value .uint),
    ("ssthresh", .value .int),
    ("bytes_sent", .value .uint),
    ("bytes_retrans", .value .uint),
    ("bytes_acked", .value .uint),
    ("bytes_received", .value .uint),
    ("segs_out", .value .uint),
    ("segs_in", .value .uint),
    ("data_segs_out", .value .uint),
    ("data_segs_in", .value .uint),
    ("bbr", .composite
      [("bw", .bps), ("mrtt", .double), ("pacing_gain", .double), ("cwnd_gain", .double)]),
    ("send", .nextField .bps),
    ("lastsnd", .value .uint),
    ("lastrcv", .value .uint),
    ("lastack", .value .uint),
    ("pacing_rate", .nextField (.maybeSep '/' [("pacing_rate", .bps), ("pacing_rate_max", .bps)])),
    ("delivery_rate", .nextField .bps),
    ("delivered", .value .uint),
    ("delivered_ce", .value .uint),
    ("app_limited", .flag),
    ("busy", .ms false),
    ("rwnd_limited", .ms true),
    ("sndbuf_limited", .ms true),
    ("unacked", .value .uint),
    ("retrans", .sep '/' [("retrans", .uint), ("retrans_total", .uint)]),
    ("lost", .value .uint),
    ("sacked", .value .uint),
    ("dsack_dups", .value .uint),
    ("fackets", .value .uint),
    ("reordering", .value .int),
    ("reord_seen", .value .int),
    ("rcv_rtt", .value .double),
    ("rcv_space", .value .int),
    ("rcv_ssthresh", .value .uint),
    ("notsent", .value .uint),
    ("minrtt", .value .double)]

/-- What a value is assigned to. -/
inductive Dest where
  | aux (field : String)
  | curUsageBps
  | cumUsageBytes
deriving DecidableEq, Repr

def isAuxKeepName : List String :=
  ["snd_wscale", "rcv_wscale", "backoff", "qack", "mss", "pmtu", "rcvmss", "advmss", "cwnd",
    "ssthresh", "bytes_retrans", "bytes_acked", "bytes_received", "segs_out", "segs_in",
    "data_segs_out", "data_segs_in", "pacing_rate", "pacing_rate_max", "delivery_rate",
    "delivered", "delivered_ce", "app_limited", "unacked", "retrans", "retrans_total", "lost",
    "sacked", "dsack_dups", "fackets", "reordering", "reord_seen", "rcv_space", "rcv_ssthresh"]

def renameMapIsAuxName : List (String × Dest) :=
  [("ato", .aux "ato_ms"), ("busy", .aux "busy_time_ms"), ("bytes_sent", .cumUsageBytes),
    ("lastsnd", .aux "lastsnd_ms"),
    ("lastrcv", .aux "lastrcv_ms"),
    ("lastack", .aux "lastack_ms"),
    ("minrtt", .aux "min_rtt_ms"),
    ("notsent", .aux "not_sent"),
    ("rcv_rtt", .aux "rcv_rtt_ms"),
    ("rto", .aux "rto_ms"),
    ("rtt", .aux "rtt_ms"),
    ("rttvar", .aux "rtt_var_ms"),
    ("rwnd_limited", .aux "rwnd_limited_ms"),
    ("sndbuf_limited", .aux "sndbuf_limited_ms"),
    ("send", .curUsageBps),
    ("bbr:bw", .aux "bbr_bw"),
    ("bbr:mrtt", .aux "bbr_min_rtt_ms"),
    ("bbr:pacing_gain", .aux "bbr_pacing_gain"),
    ("bbr:cwnd_gain", .aux "bbr_cwnd_gain")]

def Dest.isAux : Dest → Bool
  | .aux _ => true
  | _ => false

/-- `none` when the generator raises a `ValueError`. -/
def trName (fname : String) : Option Dest :=
  if fname ∈ isAuxKeepName then some (.aux fname) else renameMapIsAuxName.lookup fname

def fieldIsAux (fname : String) : Option Bool :=
  if fname = "wscale" ∨ fname = "bbr" then some true else (trName fname).map Dest.isAux

inductive ValueFormat where
  | part (format : PartFormat)
  | ms (hasJunk : Bool)
deriving DecidableEq, Repr

/-- Code that parses a value and assigns it; `name` is for the error. -/
structure ParseValue where
  format : ValueFormat
  dst : Dest
  name : String
deriving DecidableEq, Repr

inductive FieldCode where
  | value (code : ParseValue)
  | sep (sep : Char) (parts : List ParseValue) (name : String)
  | maybeSep (sep : Char) (parts : List ParseValue) (name : String)
  | composite (parts : List (String × ParseValue)) (name : String)
deriving DecidableEq, Repr

/-- Code that recognises a field by its name. -/
inductive LateCode where
  | stripPrefixThen (code : FieldCode)
  | setFlag (dst : Dest)
  | nextField
deriving DecidableEq, Repr

/-- Code for a field; with `checkAux` it is skipped if the pointer is null. -/
structure Late where
  name : String
  checkAux : Bool
  code : LateCode
deriving DecidableEq, Repr

/-- Code for the field after `name`. -/
structure Early where
  name : String
  code : FieldCode
deriving DecidableEq, Repr

structure Program where
  early : List Early := []
  late : List Late := []
deriving DecidableEq, Repr

def genParseSep (parts : List (String × PartFormat)) (name : String) : Option (List ParseValue) :=
  parts.mapM fun part =>
    (trName part.1).map fun dst => { format := .part part.2, dst := dst, name := name }

/-- `none` also when the format of a part is not implemented. -/
def genParseComposite (fieldName : String) (parts : List (String × PartFormat)) :
    Option (List (String × ParseValue)) :=
  parts.mapM fun part =>
    if part.2 = .bps ∨ part.2 = .double then
      (trName (fieldName ++ ":" ++ part.1)).map fun dst =>
        (part.1, { format := .part part.2, dst := dst, name := part.1 })
    else none

def genLateCode (name : String) : Format → Option LateCode
  | .value format =>
    (trName name).map fun dst => .stripPrefixThen (.value ⟨.part format, dst, name⟩)
  | .ms hasJunk =>
    (trName name).map fun dst => .stripPrefixThen (.value ⟨.ms hasJunk, dst, name⟩)
  | .flag => (trName name).map fun dst => .setFlag dst
  | .sep sep parts =>
    (genParseSep parts name).map fun parts => .stripPrefixThen (.sep sep parts name)
  | .composite parts =>
    (genParseComposite name parts).map fun parts => .stripPrefixThen (.composite parts name)
  | .nextField _ => some .nextField

def genLate (field : String × Format) : Option Late := do
  let checkAux ← fieldIsAux field.1
  let code ← genLateCode field.1 field.2
  return { name := field.1, checkAux := checkAux, code := code }

def genEarly (field : String × Format) : Option (List Early) :=
  match field.2 with
  | .nextField .bps =>
    (trName field.1).map fun dst => [⟨field.1, .value ⟨.part .bps, dst, field.1⟩⟩]
  | .nextField (.maybeSep sep parts) =>
    (genParseSep parts field.1).map fun parts => [⟨field.1, .maybeSep sep parts field.1⟩]
  | _ => some []

/-- The code is sorted by the names of the fields; `none` when the generator fails. -/
def genParser (desc : List (String × Format)) : Option Program := do
  let late ← desc.mapM genLate
  let early ← desc.mapM genEarly
  return {
    early := early.flatten.insertionSort fun a b => a.name ≤ b.name
    late := late.insertionSort fun a b => a.name ≤ b.name }

theorem isSome_genParser : (genParser tcpStatDesc).isSome = true := by
  decide +kernel

/-- The program that the repository builds. -/
def program : Program := (genParser tcpStatDesc).get isSome_genParser

/-! ## The generated code -/

/-- The values of the fields of `AuxInfo`, by their declared types. -/
inductive AuxValue (Double : Type) where
  | flag (value : Bool)
  | double (value : Double)
  | int64 (value : ℤ)
deriving DecidableEq, Repr

/-- The fields that are set. -/
abbrev AuxInfo (Double : Type) := List (String × AuxValue Double)

/-- The variables of `ParseFieldsSS`; `nextIs` has the names whose `next_is_` is true. -/
structure State (Double : Type) where
  curUsageBps : ℤ := 0
  cumUsageBytes : ℤ := 0
  aux : Option (AuxInfo Double)
  nextIs : List String := []
deriving DecidableEq, Repr

section Run

variable {Double : Type} (d : Doubles Double)

def AuxValue.toInt64 : AuxValue Double → ℤ
  | .flag value => if value then 1 else 0
  | .double value => d.toInt64 value 1
  | .int64 value => value

def assign (dst : Dest) (value : AuxValue Double) (st : State Double) :
    Checked String (State Double) :=
  match dst, st.aux with
  | .aux field, some aux =>
    pure { st with aux := some ((field, value) :: aux.filter fun set => set.1 ≠ field) }
  | .aux _, none => fault .nullPointer
  | .curUsageBps, _ => pure { st with curUsageBps := value.toInt64 d }
  | .cumUsageBytes, _ => pure { st with cumUsageBytes := value.toInt64 d }

def readValue (format : ValueFormat) (field : View) : Checked String (Option (AuxValue Double)) :=
  match format with
  | .part .int => return (simpleAtoi 64 field).map .int64
  | .part .uint => return (simpleAtou 64 field).map fun value => .int64 (asInt64 value)
  | .part .double => return (d.simpleAtod field).map .double
  | .part .bps => do
      let value ← parseBpsSS d field
      return value.map .int64
  | .ms hasJunk => do
      let value ← parseMsSS hasJunk field
      return value.map .int64

def ParseValue.error (code : ParseValue) (field : View) : String :=
  if code.format = .part .double then
    "failed to parse " ++ code.name ++ " field from '" ++ String.ofList field ++ "'"
  else "failed to parse " ++ code.name ++ " field"

def ParseValue.run (code : ParseValue) (field : View) (st : State Double) :
    Checked String (State Double) := do
  match ← readValue d code.format field with
  | some value => assign d code.dst value st
  | none => throw (code.error field)

/-- The parts that stand at the positions from `i` on, if the sub-fields reach so far. -/
def runParts (subFields : List View) : ℕ → List ParseValue → State Double →
    Checked String (State Double)
  | _, [], st => pure st
  | i, code :: parts, st => do
      let field ← index subFields i
      let st ← code.run d field st
      runParts subFields (i + 1) parts st

def runMaybeParts (subFields : List View) : ℕ → List ParseValue → State Double →
    Checked String (State Double)
  | _, [], st => pure st
  | i, code :: parts, st =>
    if i + 1 ≤ subFields.length then do
      let field ← index subFields i
      let st ← code.run d field st
      runMaybeParts subFields (i + 1) parts st
    else runMaybeParts subFields (i + 1) parts st

def runNamedPart (parts : List (String × ParseValue)) (st : State Double) (field : View) :
    Checked String (State Double) :=
  match parts.find? fun part => startsWith field (part.1 ++ ":") with
  | some part => part.2.run d (stripPrefix field (part.1 ++ ":")) st
  | none => pure st

def FieldCode.run (field : View) (st : State Double) : FieldCode → Checked String (State Double)
  | .value code => code.run d field st
  | .sep delimiter parts name =>
    let subFields := splitSkipWhitespace [delimiter] field
    if subFields.length ≠ parts.length then throw ("failed to parse " ++ name ++ " field")
    else runParts d subFields 0 parts st
  | .maybeSep delimiter parts name =>
    let subFields := splitSkipWhitespace [delimiter] field
    if subFields.length < 1 then throw ("failed to parse " ++ name ++ " field")
    else runMaybeParts d subFields 0 parts st
  | .composite parts name =>
    if !startsWith field "(" || !endsWith field ")" then
      throw ("bad composite value for " ++ name ++ " field")
    else do
      let field ← substr field 1 (sizeSub field.length 2)
      (splitSkipWhitespace [','] field).foldlM (runNamedPart d parts) st

def runLate (field : View) (st : State Double) : List Late → Checked String (State Double)
  | [] => pure st
  | late :: rest =>
    if late.checkAux && st.aux.isNone then runLate field st rest
    else
      match late.code with
      | .stripPrefixThen code =>
        if startsWith field (late.name ++ ":") then
          code.run d (stripPrefix field (late.name ++ ":")) st
        else runLate field st rest
      | .setFlag dst =>
        if field = late.name.toList then assign d dst (.flag true) st
        else runLate field st rest
      | .nextField =>
        if field = late.name.toList then pure { st with nextIs := late.name :: st.nextIs }
        else runLate field st rest

/-- One iteration of the loop over the fields. -/
def parseField (p : Program) (st : State Double) (field : View) : Checked String (State Double) :=
  match p.early.find? fun early => st.nextIs.contains early.name with
  | some early => do
      let st ← early.code.run d field st
      return { st with nextIs := st.nextIs.filter fun name => name ≠ early.name }
  | none => do
      let first ← index field 0
      runLate d field st (p.late.filter fun late => late.name.toList.head? = some first)

def parseFieldsSS (p : Program) (fields : List View) (st : State Double) :
    Checked String (State Double) :=
  fields.foldlM (parseField d p) st

/-- What `ParseLineSS` writes when it succeeds. -/
structure LineSS (Double : Type) where
  flow : FlowMarker
  curUsageBps : ℤ
  cumUsageBytes : ℤ
  aux : Option (AuxInfo Double)
deriving DecidableEq, Repr

def fieldsOf (line : View) : List View := splitSkipWhitespace [' ', '\t'] line

def statusOf {α : Type} (x : Checked String α) : Checked String (Except String α) :=
  ExceptT.mk (x.run.map .ok)

def parseLineSS (hostIdToUse : UInt64) (line : View) (collectAux : Bool) :
    Checked String (LineSS Double) := do
  let srcField ← index (fieldsOf line) 3
  let srcStatus ← statusOf (parseHostPort srcField)
  let dstField ← index (fieldsOf line) 4
  let dstStatus ← statusOf (parseHostPort dstField)
  let (srcAddr, srcPort) ← ExceptT.mk (.ok srcStatus)
  let (dstAddr, dstPort) ← ExceptT.mk (.ok dstStatus)
  let st ← parseFieldsSS d program (fieldsOf line) { aux := if collectAux then some [] else none }
  return {
    flow := {
      hostId := hostIdToUse
      srcAddr := String.ofList srcAddr
      dstAddr := String.ofList dstAddr
      protocol := .tcp
      srcPort := srcPort
      dstPort := dstPort }
    curUsageBps := st.curUsageBps
    cumUsageBytes := st.cumUsageBytes
    aux := st.aux }

end Run

end ParseSS
end HeypAgents
