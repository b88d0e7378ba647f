import HeypAgents.Lib.StringView

/-!
# Addresses with ports

`ParseHostPort` splits an address at its last colon.  An address of version 6 is in
brackets, and one that only maps an address of version 4 is reported as the latter.

The closing bracket is taken for granted: whatever stands before the last colon is cut
off.  This is the only way in which the function departs from the grammar of addresses.
-/

namespace HeypAgents

open MemoryFaults StringView

/-- The address in the brackets, which end just before `portSeparator`. -/
def bracketedHost (s : View) (portSeparator : ℕ) : Checked String View := do
  let host ← substr s 1 (sizeSub portSeparator 2)
  if startsWith host "::ffff:" then
    let mapped ← substrFrom host 7
    return if mapped.contains ':' then host else mapped
  else return host

def parseHostPort (s : View) : Checked String (View × ℤ) :=
  if s = [] then throw "empty host:port"
  else
    match rfind ':' s with
    | none => throw "port not found"
    | some portSeparator => do
        let portStr ← substrFrom s (portSeparator + 1)
        match simpleAtoi 32 portStr with
        | none => throw ("invalid port: " ++ String.ofList portStr)
        | some port =>
          if portSeparator = 0 then throw "found port but no address"
          else
            let first ← index s 0
            if first = '[' then
              if portSeparator < 3 then throw "invalid address"
              else
                let host ← bracketedHost s portSeparator
                return (host, port)
            else
              let host ← substr s 0 portSeparator
              return (host, port)

theorem returns_bracketedHost {s : View} {portSeparator : ℕ} (h : 1 ≤ s.length) :
    Returns (bracketedHost s portSeparator) := by
  refine (returns_substr h).bind fun host => ?_
  split_ifs with hmapped
  · exact (returns_substrFrom (length_le_of_startsWith hmapped)).bind fun _ => returns_pure _
  · exact returns_pure _

/-- `ParseHostPort` is memory safe on every string. -/
theorem returns_parseHostPort (s : View) : Returns (parseHostPort s) := by
  unfold parseHostPort
  split_ifs with hempty
  · exact ensures_throw _
  have hpos : 0 < s.length := List.length_pos_iff.mpr hempty
  split
  · exact ensures_throw _
  · rename_i portSeparator hport
    refine (returns_substrFrom (lt_of_rfind hport)).bind fun portStr => ?_
    split
    · exact ensures_throw _
    split
    · exact ensures_throw _
    refine (returns_index hpos).bind fun first => ?_
    split
    · split
      · exact ensures_throw _
      · exact (returns_bracketedHost hpos).bind fun _ => returns_pure _
    · exact (returns_substr (Nat.zero_le _)).bind fun _ => returns_pure _

section Grammar

def unmapped (host : View) : View :=
  if startsWith host "::ffff:" = true ∧ ':' ∉ host.drop 7 then host.drop 7 else host

inductive HostPort : View → View → ℤ → Prop
  | plain {host portText : View} {port : ℤ} (hne : host ≠ []) (hplain : host.head? ≠ some '[')
      (hcolon : ':' ∉ portText) (hport : simpleAtoi 32 portText = some port) :
      HostPort (host ++ ':' :: portText) host port
  | bracketed {host portText : View} {port : ℤ} (hne : host ≠ [])
      (hcolon : ':' ∉ portText) (hport : simpleAtoi 32 portText = some port) :
      HostPort ('[' :: host ++ [']'] ++ ':' :: portText) (unmapped host) port

def Unclosed (s : View) : Prop :=
  ∃ address portText : View, s = '[' :: address ++ ':' :: portText ∧ 2 ≤ address.length ∧
    address.getLast? ≠ some ']' ∧ ':' ∉ portText ∧ (simpleAtoi 32 portText).isSome

variable {s host portText : View} {port : ℤ}

theorem bracketedHost_eq (address portText : View) (hlen : 2 ≤ address.length) :
    bracketedHost ('[' :: address ++ ':' :: portText) (address.length + 1) =
      pure (unmapped address.dropLast) := by
  have hsub : substr ('[' :: address ++ ':' :: portText) 1 (sizeSub (address.length + 1) 2) =
      pure address.dropLast := by
    rw [substr, substrFrom, if_pos (by simp), sizeSub, if_pos (by omega), List.dropLast_eq_take,
      pure_bind]
    simp [List.take_append_of_le_length]
  rw [bracketedHost, hsub, pure_bind, unmapped]
  split_ifs with hmapped hboth hboth
  · have hlength : 7 ≤ address.dropLast.length := length_le_of_startsWith hmapped
    rw [substrFrom, if_pos hlength, pure_bind]
    simp [hboth.2]
  · have hlength : 7 ≤ address.dropLast.length := length_le_of_startsWith hmapped
    have hcolon : ':' ∈ address.dropLast.drop 7 := not_not.mp fun h => hboth ⟨hmapped, h⟩
    rw [substrFrom, if_pos hlength, pure_bind]
    simp [hcolon]
  · exact absurd hboth.1 hmapped
  · rfl

def ReadsHost (address host : View) : Prop :=
  (address ≠ [] ∧ address.head? ≠ some '[' ∧ host = address) ∨
    ∃ rest, address = '[' :: rest ∧ 2 ≤ rest.length ∧ host = unmapped rest.dropLast

theorem readsHost_cons_bracket {rest : View} :
    ReadsHost ('[' :: rest) host ↔ 2 ≤ rest.length ∧ host = unmapped rest.dropLast := by
  simp [ReadsHost]

theorem readsHost_cons_plain {first : Char} {rest : View} (h : first ≠ '[') :
    ReadsHost (first :: rest) host ↔ host = first :: rest := by
  simp [ReadsHost, h]

theorem parseHostPort_split (address : View) (hcolon : ':' ∉ portText) :
    (parseHostPort (address ++ ':' :: portText)).run = .ok (.ok (host, port)) ↔
      simpleAtoi 32 portText = some port ∧ ReadsHost address host := by
  have hsub : substrFrom (address ++ ':' :: portText) (address.length + 1) = pure portText := by
    rw [substrFrom, if_pos (by simp)]
    simp [List.drop_append, List.drop_eq_nil_of_le]
  rw [parseHostPort, if_neg (by simp), rfind_append address hcolon]
  simp only [hsub, pure_bind]
  cases simpleAtoi 32 portText with
  | none => exact iff_of_false (run_throw_ne _) fun h => by cases h.1
  | some port' =>
    cases address with
    | nil =>
      simp only [List.length_nil, ↓reduceIte]
      exact iff_of_false (run_throw_ne _) fun h => by simp [ReadsHost] at h
    | cons first rest =>
      have hfirst : (index (first :: rest ++ ':' :: portText) 0 : Checked String Char) =
        pure first := rfl
      simp only [hfirst, pure_bind, List.length_cons, Nat.add_one_ne_zero, if_false]
      by_cases hbracket : first = '['
      · subst hbracket
        rw [if_pos rfl, readsHost_cons_bracket]
        split_ifs with hshort
        · exact iff_of_false (run_throw_ne _) fun h => by omega
        · rw [bracketedHost_eq rest portText (by omega), pure_bind, run_pure_eq_iff]
          constructor
          · rintro ⟨⟩
            exact ⟨rfl, by omega, rfl⟩
          · rintro ⟨⟨⟩, -, rfl⟩
            rfl
      · have hhost : substr (first :: rest ++ ':' :: portText) 0 (rest.length + 1) =
            pure (first :: rest) := by
          rw [substr, substrFrom, if_pos (Nat.zero_le _), pure_bind]
          simp
        rw [if_neg hbracket, hhost, pure_bind, run_pure_eq_iff, readsHost_cons_plain hbracket]
        constructor
        · rintro ⟨⟩
          exact ⟨rfl, rfl⟩
        · rintro ⟨⟨⟩, rfl⟩
          rfl

theorem parseHostPort_of_not_mem (h : ':' ∉ s) :
    (parseHostPort s).run ≠ .ok (.ok (host, port)) := by
  rw [parseHostPort, rfind_of_not_mem h]
  split_ifs <;> exact run_throw_ne _

theorem hostPort_split_iff (address : View) (hcolon : ':' ∉ portText) :
    HostPort (address ++ ':' :: portText) host port ↔
      simpleAtoi 32 portText = some port ∧ ReadsHost address host ∧
        ∀ rest, address = '[' :: rest → rest.getLast? = some ']' := by
  constructor
  · generalize hs : address ++ ':' :: portText = s
    rintro (⟨hne, hplain, hcolon', hport⟩ | ⟨hne, hcolon', hport⟩)
    · obtain ⟨rfl, rfl⟩ := split_unique hs hcolon hcolon'
      refine ⟨hport, .inl ⟨hne, hplain, rfl⟩, ?_⟩
      rintro rest rfl
      exact absurd rfl hplain
    · obtain ⟨rfl, rfl⟩ := split_unique hs hcolon hcolon'
      rename_i host
      have hlen := List.length_pos_iff.mpr hne
      refine ⟨hport, .inr ⟨host ++ [']'], rfl, ?_, by simp⟩, ?_⟩
      · rw [List.length_append, List.length_singleton]
        omega
      · rintro rest ⟨⟩
        simp
  · rintro ⟨hport, ⟨hne, hplain, rfl⟩ | ⟨rest, rfl, hlen, rfl⟩, hclosed⟩
    · exact .plain hne hplain hcolon hport
    · obtain ⟨host, rfl⟩ := List.getLast?_eq_some_iff.mp (hclosed rest rfl)
      rw [List.dropLast_concat]
      refine .bracketed ?_ hcolon hport
      rintro rfl
      simp at hlen

/--
For every text, the function accepts it and reports its host and port as the grammar says,
iff it is not a text with an opening bracket whose closing one is missing before the last
colon.
-/
theorem parseHostPort_grammar_iff (s : View) :
    (∀ host port, (parseHostPort s).run = .ok (.ok (host, port)) ↔ HostPort s host port) ↔
      ¬ Unclosed s := by
  constructor
  · rintro h ⟨address, portText, rfl, hlen, hopen, hcolon, hport⟩
    obtain ⟨port, hport⟩ := Option.isSome_iff_exists.mp hport
    have haccepted := (h (unmapped address.dropLast) port).mp
      ((parseHostPort_split ('[' :: address) hcolon).mpr
        ⟨hport, readsHost_cons_bracket.mpr ⟨hlen, rfl⟩⟩)
    exact hopen (((hostPort_split_iff ('[' :: address) hcolon).mp haccepted).2.2 address rfl)
  · intro hclosed host port
    by_cases hmem : ':' ∈ s
    · obtain ⟨address, portText, rfl, hcolon⟩ := exists_split_of_mem hmem
      rw [parseHostPort_split address hcolon, hostPort_split_iff address hcolon]
      refine and_congr_right fun hport => (and_iff_left_of_imp ?_).symm
      rintro hreads rest rfl
      by_contra hopen
      refine hclosed ⟨rest, portText, rfl, (readsHost_cons_bracket.mp hreads).1, hopen, hcolon, ?_⟩
      exact Option.isSome_iff_exists.mpr ⟨port, hport⟩
    · refine iff_of_false (parseHostPort_of_not_mem hmem) ?_
      rintro (⟨-⟩ | ⟨-⟩) <;> simp at hmem

/-- The last character of the address is cut off in place of the bracket. -/
theorem parseHostPort_accepts_unclosed :
    (parseHostPort "[ab:80".toList).run = .ok (.ok ("a".toList, 80)) ∧
      ¬ HostPort "[ab:80".toList "a".toList 80 := by
  refine ⟨by decide +kernel, fun h => ?_⟩
  have hcolon : ':' ∉ "80".toList := by decide +kernel
  have hclosed := ((hostPort_split_iff "[ab".toList hcolon).mp h).2.2 "ab".toList rfl
  exact absurd hclosed (by decide +kernel)

end Grammar

end HeypAgents
