import HeypAgents.Lib.ByteText
import HeypAgents.Lib.While
import Mathlib.Algebra.Order.Ring.Int

/-!
# Class listings of `tc`

`ReadHTBClasses` reads the lines of a class dump into a map by handle.  Error texts that
contain quoted input are built with a parameter `quote`, the quoting of `%q`.
-/

namespace HeypAgents
namespace Logs

open ByteText

structure TCHandle where
  parent : ℤ := 0
  child : ℤ := 0
deriving DecidableEq, Repr

def tcHandle (s : Bytes) : Except String TCHandle :=
  match s.splitOn 58 with
  | [parent, child] =>
    match parseInt 16 parent with
    | .error _ => .error "invalid parent"
    | .ok p =>
      match parseInt 16 child with
      | .error _ => .error "invalid child"
      | .ok c => .ok ⟨p, c⟩
  | _ => .error "need parent:child handle"

structure HTBClass where
  handle : TCHandle := {}
  rateBps : ℤ := 0
  ceilRateBps : ℤ := 0
  burstBytes : ℤ := 0
  ceilBurstBytes : ℤ := 0
deriving DecidableEq, Repr

def unknownRecMesg : String := "unknown rec"
def insertRuleMesg : String := "found -I rule (cannot be handled by ReadIPTablesEnforcementRules)"
def missingValueMesg : String := "missing value for flag"

/-- The text of the error that `errs` make up. -/
def joinErrs : List String → Option String
  | [] => none
  | [e] => some e
  | errs => some ("saw multiple errors:\n\t" ++ "\n\t".intercalate errs)

section Units

variable (quote : Bytes → String)

/-- The text of a failed `strconv.ParseInt`. -/
def numErrorText (num : Bytes) : NumError → String
  | .badSyntax => "strconv.ParseInt: parsing " ++ quote num ++ ": invalid syntax"
  | .outOfRange => "strconv.ParseInt: parsing " ++ quote num ++ ": value out of range"

/-- A number and its unit. -/
def splitUnit (s : Bytes) : Bytes × Bytes := s.span fun b => !(ascii "bBkKmMgGtT").contains b

def isUnit (unit : Bytes) (names : List String) : Bool := names.any fun name => unit == ascii name

/-- `parseTCRate`, with the wrap-around of `int64`. -/
def parseTCRate (s : Bytes) : Except String ℤ :=
  let (num, unit) := splitUnit s
  match parseInt 64 num with
  | .error e => .error ("failed to parse rate: " ++ numErrorText quote num e)
  | .ok v =>
    if isUnit unit ["", "bit", "bps"] then .ok v
    else if isUnit unit ["kbit", "Kbit", "kbps", "Kbps"] then .ok ((v * 1024).bmod (2 ^ 64))
    else if isUnit unit ["mbit", "Mbit", "mbps", "Mbps"] then .ok ((v * 1024 ^ 2).bmod (2 ^ 64))
    else if isUnit unit ["gbit", "Gbit", "gbps", "Gbps"] then .ok ((v * 1024 ^ 3).bmod (2 ^ 64))
    else if isUnit unit ["tbit", "Tbit", "tbps", "Tbps"] then .ok ((v * 1024 ^ 4).bmod (2 ^ 64))
    else .error "failed to parse rate unit: unknown error"

/-- `parseTCSize`, with the wrap-around of `int32`. -/
def parseTCSize (s : Bytes) : Except String ℤ :=
  let (num, unit) := splitUnit s
  match parseInt 32 num with
  | .error e => .error ("failed to parse rate: " ++ numErrorText quote num e)
  | .ok v =>
    if isUnit unit ["", "b"] then .ok v
    else if isUnit unit ["bit"] then .ok (v.tdiv 8)
    else if isUnit unit ["kbit", "Kbit"] then .ok ((v * (1024 / 8)).bmod (2 ^ 32))
    else if isUnit unit ["kb", "Kb", "k", "K"] then .ok ((v * 1024).bmod (2 ^ 32))
    else if isUnit unit ["mbit", "Mbit"] then .ok ((v * (1024 ^ 2 / 8)).bmod (2 ^ 32))
    else if isUnit unit ["mb", "Mb", "m", "M"] then .ok ((v * 1024 ^ 2).bmod (2 ^ 32))
    else if isUnit unit ["gbit", "Gbit"] then .ok ((v * (1024 ^ 3 / 8)).bmod (2 ^ 32))
    else if isUnit unit ["gb", "Gb", "g", "G"] then .ok ((v * 1024 ^ 3).bmod (2 ^ 32))
    else .error "failed to parse rate unit: unknown error"

end Units

structure TcClassParser where
  fields : List Bytes
  errs : List String := []
  got : HTBClass := {}

namespace TcClassParser

variable (quote : Bytes → String)

def addErr (p : TcClassParser) (e : String) : TcClassParser := { p with errs := p.errs ++ [e] }

def getNext (p : TcClassParser) : Option Bytes × TcClassParser :=
  match p.fields with
  | _ :: s :: rest => (some s, { p with fields := s :: rest })
  | _ => (none, p.addErr missingValueMesg)

/-- `getRate` and `getSize`: the next field, read by `parse`; 0 after an error. -/
def getNumber (parse : Bytes → Except String ℤ) (p : TcClassParser) : ℤ × TcClassParser :=
  match p.getNext with
  | (none, p) => (0, p)
  | (some s, p) =>
    match parse s with
    | .ok v => (v, p)
    | .error e => (0, p.addErr e)

def getRate (p : TcClassParser) : ℤ × TcClassParser := p.getNumber (parseTCRate quote)

def getSize (p : TcClassParser) : ℤ × TcClassParser := p.getNumber (parseTCSize quote)

/-- One iteration of the loop over the fields. -/
def parseField (p : TcClassParser) : TcClassParser :=
  let p :=
    match p.fields.head? with
    | none => p
    | some f =>
      if f = ascii "rate" then
        let (v, p) := p.getRate quote
        { p with got := { p.got with rateBps := v } }
      else if f = ascii "ceil" then
        let (v, p) := p.getRate quote
        { p with got := { p.got with ceilRateBps := v } }
      else if f = ascii "burst" then
        let (v, p) := p.getSize quote
        { p with got := { p.got with burstBytes := v } }
      else if f = ascii "cburst" then
        let (v, p) := p.getSize quote
        { p with got := { p.got with ceilBurstBytes := v } }
      else p
  { p with fields := p.fields.tail }

def parse (p : TcClassParser) : TcClassParser :=
  match p.fields with
  | f₀ :: f₁ :: f₂ :: rest =>
    if f₀ ≠ ascii "class" ∧ f₁ ≠ ascii "htb" then p.addErr unknownRecMesg
    else if 58 ∉ f₂ then p.addErr "missing : in handle"
    else
      let p :=
        match tcHandle f₂ with
        | .ok h => { p with got := { p.got with handle := h } }
        | .error m => p.addErr ("failed to parse handle: " ++ m)
      -- Every iteration takes at least one field.
      While.loop (fun p => !p.fields.isEmpty) (parseField quote) rest.length
        { p with fields := rest }
  | _ => p.addErr unknownRecMesg

def parseClass (fields : List Bytes) : HTBClass × Option String :=
  let p := parse quote { fields := fields }
  (p.got, joinErrs p.errs)

end TcClassParser

abbrev HTBClasses := TCHandle → Option HTBClass

def readHTBLines (quote : Bytes → String) : List Bytes → HTBClasses → Except String HTBClasses
  | [], m => .ok m
  | line :: lines, m =>
    match TcClassParser.parseClass quote (fields line) with
    | (c, none) => readHTBLines quote lines (Function.update m c.handle (some c))
    | (_, some e) =>
      if e = unknownRecMesg then readHTBLines quote lines m
      else .error ("line " ++ quote line ++ ": " ++ e)

def readHTBClasses (quote : Bytes → String) (src : Source) : Except String HTBClasses :=
  match readHTBLines quote (scanned src) fun _ => none with
  | .error e => .error e
  | .ok m =>
    match scanErr src with
    | some e => .error ("failed to read input: " ++ e)
    | none => .ok m

end Logs
end HeypAgents
