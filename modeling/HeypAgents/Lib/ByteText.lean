import Mathlib.Algebra.Order.Ring.Nat
import Mathlib.Data.List.Lex

/-!
# Texts of bytes

Strings as lists of bytes in lexicographic order, and the text functions of the Go standard
library on them: the lines of a `bufio.Scanner`, `bytes.Fields`, `strings.Split` and
`strconv.ParseInt`.
-/

namespace HeypAgents

instance instLinearOrderByte : LinearOrder UInt8 where
  le_refl := UInt8.le_refl
  le_trans _ _ _ := UInt8.le_trans
  le_antisymm _ _ := UInt8.le_antisymm
  le_total := UInt8.le_total
  lt_iff_le_not_ge a b := by
    rw [UInt8.not_le]
    exact ⟨fun h => ⟨UInt8.le_of_lt h, h⟩, And.right⟩
  toDecidableLE := inferInstance

abbrev Bytes := List UInt8

namespace ByteText

/-- The bytes of a text of ASCII characters. -/
def ascii (text : String) : Bytes := text.toList.map fun c => c.toNat.toUInt8

/-- A text and how it is read: `eofWithData` tells whether the read that delivers the last
byte also reports the end. -/
structure Source where
  text : Bytes
  eofWithData : Bool := false

def rawLines : Bytes → List (Bytes × Bool)
  | [] => []
  | b :: rest =>
    if b = 10 then ([], true) :: rawLines rest
    else
      match rawLines rest with
      | [] => [([b], false)]
      | (line, ended) :: lines => (b :: line, ended) :: lines

def maxScanTokenSize : ℕ := 65536

def tooLong (src : Source) (line : Bytes × Bool) : Bool :=
  if src.eofWithData && !line.2 then maxScanTokenSize < line.1.length
  else maxScanTokenSize ≤ line.1.length

def dropCR (line : Bytes) : Bytes :=
  if line.getLast? = some 13 then line.dropLast else line

/-- The lines for which `Scan` returns true. -/
def scanned (src : Source) : List Bytes :=
  ((rawLines src.text).takeWhile fun line => !tooLong src line).map fun line => dropCR line.1

/-- The message of `Err` after the last `Scan`. -/
def scanErr (src : Source) : Option String :=
  if (rawLines src.text).any (tooLong src) then some "bufio.Scanner: token too long" else none

def spaceWidth : Bytes → ℕ
  | [] => 0
  | a :: rest =>
    if a = 32 ∨ 9 ≤ a ∧ a ≤ 13 then 1
    else
      match rest with
      | [] => 0
      | b :: rest =>
        if a = 0xC2 ∧ (b = 0x85 ∨ b = 0xA0) then 2
        else
          match rest with
          | [] => 0
          | c :: _ =>
            if a = 0xE1 ∧ b = 0x9A ∧ c = 0x80 ∨
                a = 0xE2 ∧ b = 0x80 ∧ (0x80 ≤ c ∧ c ≤ 0x8A ∨ c = 0xA8 ∨ c = 0xA9 ∨ c = 0xAF) ∨
                a = 0xE2 ∧ b = 0x81 ∧ c = 0x9F ∨ a = 0xE3 ∧ b = 0x80 ∧ c = 0x80 then 3
            else 0

/-- The fields of a text whose first `skip` bytes belong to white space, after the bytes of
an open field. -/
def fieldsFrom : (skip : ℕ) → (field : Bytes) → Bytes → List Bytes
  | _, field, [] => if field = [] then [] else [field]
  | skip + 1, field, _ :: rest => fieldsFrom skip field rest
  | 0, field, b :: rest =>
    match spaceWidth (b :: rest) with
    | 0 => fieldsFrom 0 (field ++ [b]) rest
    | more + 1 =>
      if field = [] then fieldsFrom more [] rest else field :: fieldsFrom more [] rest

def fields (text : Bytes) : List Bytes := fieldsFrom 0 [] text

def trimSuffix (text suffix : Bytes) : Bytes :=
  if suffix <:+ text then text.take (text.length - suffix.length) else text

inductive NumError where
  | badSyntax
  | outOfRange
deriving DecidableEq, Repr

def parseDigits (bitSize : ℕ) : ℕ → Bytes → Except NumError ℕ
  | n, [] => .ok n
  | n, c :: rest =>
    if 48 ≤ c ∧ c ≤ 57 then
      if 2 ^ bitSize ≤ 10 * n + (c.toNat - 48) then .error .outOfRange
      else parseDigits bitSize (10 * n + (c.toNat - 48)) rest
    else .error .badSyntax

/-- `strconv.ParseInt` with base 10. -/
def parseInt (bitSize : ℕ) (text : Bytes) : Except NumError ℤ :=
  let neg := text.head? = some 45
  let digits := if text.head? = some 43 ∨ neg then text.tail else text
  if digits = [] then .error .badSyntax
  else
    match parseDigits bitSize 0 digits with
    | .error e => .error e
    | .ok n =>
      if neg then if 2 ^ (bitSize - 1) < n then .error .outOfRange else .ok (-n)
      else if 2 ^ (bitSize - 1) ≤ n then .error .outOfRange else .ok n

end ByteText
end HeypAgents
