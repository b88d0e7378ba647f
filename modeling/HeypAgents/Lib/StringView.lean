import HeypAgents.Lib.MemoryFaults
import Mathlib.Algebra.Ring.Int.Defs
import Mathlib.Algebra.Ring.Nat
import Mathlib.Data.List.DropRight

/-!
# String views

The operations of `std::string_view` and of the string library of Abseil, over lists of
characters; a character stands for a byte.  A number that is converted from text has an
optional sign, at least one digit, and nothing else but white space around it.
-/

namespace HeypAgents
namespace StringView

open MemoryFaults

abbrev View := List Char

def sizeSub (a b : ℕ) : ℕ :=
  if b ≤ a then a - b else a + 2 ^ 64 - b

/-- `substr(pos)`; an exception if `pos` is past the end. -/
def substrFrom (s : View) (pos : ℕ) : Checked String View :=
  if pos ≤ s.length then pure (s.drop pos) else fault .outOfRange

/-- `substr(pos, n)`. -/
def substr (s : View) (pos n : ℕ) : Checked String View := do
  let rest ← substrFrom s pos
  return rest.take n

/-- The last position of a character. -/
def rfind (c : Char) : View → Option ℕ
  | [] => none
  | a :: s =>
    match rfind c s with
    | some i => some (i + 1)
    | none => if a = c then some 0 else none

def startsWith (s : View) (text : String) : Bool := text.toList.isPrefixOf s

def endsWith (s : View) (text : String) : Bool := text.toList.isSuffixOf s

def stripPrefix (s : View) (text : String) : View :=
  if startsWith s text then s.drop text.toList.length else s

def stripSuffix (s : View) (text : String) : View :=
  if endsWith s text then s.take (s.length - text.toList.length) else s

/-- `ascii_isspace`. -/
def isSpace (c : Char) : Bool := c == ' ' || (9 ≤ c.toNat && c.toNat ≤ 13)

def stripAsciiWhitespace (s : View) : View := (s.dropWhile isSpace).rdropWhile isSpace

/-- `StrSplit` at each of some characters, with `SkipWhitespace`. -/
def splitSkipWhitespace (delimiters : List Char) (s : View) : List View :=
  (s.splitOnP fun c => delimiters.contains c).filter fun piece =>
    !(stripAsciiWhitespace piece).isEmpty

def digitsValue (digits : View) : Option ℕ :=
  digits.foldlM (fun value c =>
    if c.isDigit then some (10 * value + (c.toNat - '0'.toNat)) else none) 0

def splitSign (text : View) : Option (Bool × View) :=
  match stripAsciiWhitespace text with
  | [] => none
  | c :: rest =>
    if c = '-' ∨ c = '+' then
      if rest = [] then none else some (c == '-', rest)
    else some (false, c :: rest)

/-- `SimpleAtoi` for a signed number of the given width. -/
def simpleAtoi (width : ℕ) (text : View) : Option ℤ := do
  let (negative, digits) ← splitSign text
  let value ← digitsValue digits
  let signed : ℤ := if negative then -value else value
  if -2 ^ (width - 1) ≤ signed ∧ signed < 2 ^ (width - 1) then some signed else none

/-- `SimpleAtoi` for an unsigned number, which has no minus sign. -/
def simpleAtou (width : ℕ) (text : View) : Option ℕ := do
  let (negative, digits) ← splitSign text
  if negative then none
  else
    let value ← digitsValue digits
    if value < 2 ^ width then some value else none

section Bounds

variable {s : View} {text : String} {pos n : ℕ}

theorem returns_substrFrom (h : pos ≤ s.length) : Returns (substrFrom s pos) := by
  rw [substrFrom, if_pos h]
  exact returns_pure _

theorem returns_substr (h : pos ≤ s.length) : Returns (substr s pos n) :=
  (returns_substrFrom h).bind fun _ => returns_pure _

theorem lt_of_rfind {c : Char} {i : ℕ} (h : rfind c s = some i) : i < s.length := by
  induction s generalizing i with
  | nil => cases h
  | cons a s ih =>
    simp only [rfind] at h
    split at h
    · rename_i j hj
      cases h
      exact Nat.succ_lt_succ (ih hj)
    · split_ifs at h
      cases h
      exact Nat.succ_pos _

theorem rfind_of_not_mem {c : Char} (h : c ∉ s) : rfind c s = none := by
  induction s with
  | nil => rfl
  | cons a s ih =>
    obtain ⟨hne, hrest⟩ := not_or.mp (List.mem_cons.not.mp h)
    rw [rfind, ih hrest, if_neg (Ne.symm hne)]

theorem rfind_append {c : Char} (before : View) {after : View} (h : c ∉ after) :
    rfind c (before ++ c :: after) = some before.length := by
  induction before with
  | nil => simp [rfind, rfind_of_not_mem h]
  | cons a before ih => rw [List.cons_append, rfind, ih, List.length_cons]

theorem exists_split_of_mem {c : Char} (h : c ∈ s) :
    ∃ before after, s = before ++ c :: after ∧ c ∉ after := by
  obtain ⟨after, before, hs, hc⟩ := List.eq_append_cons_of_mem (List.mem_reverse.mpr h)
  refine ⟨before.reverse, after.reverse, ?_, by rwa [List.mem_reverse]⟩
  rw [← List.reverse_reverse s, hs]
  simp

theorem split_unique {c : Char} {before after before' after' : View}
    (h : before ++ c :: after = before' ++ c :: after') (hc : c ∉ after) (hc' : c ∉ after') :
    before = before' ∧ after = after' := by
  have hlength : before.length = before'.length := by
    have hpos := rfind_append before hc
    rw [h, rfind_append before' hc'] at hpos
    exact (Option.some.inj hpos).symm
  obtain ⟨rfl, hrest⟩ := List.append_inj h hlength
  exact ⟨rfl, List.tail_eq_of_cons_eq hrest⟩

theorem length_le_of_startsWith (h : startsWith s text = true) : text.toList.length ≤ s.length :=
  (List.isPrefixOf_iff_prefix.mp h).length_le

theorem ne_nil_of_mem_splitSkipWhitespace {delimiters : List Char} {piece : View}
    (h : piece ∈ splitSkipWhitespace delimiters s) : piece ≠ [] := by
  rintro rfl
  have hpiece := (List.mem_filter.mp h).2
  simp [stripAsciiWhitespace] at hpiece

end Bounds

end StringView
end HeypAgents
