import Mathlib.Data.List.Induction

/-!
# Length-prefixed frames

A frame is a header of `k` bytes and a body whose length the header gives.  A parser reads a
stream of frames byte by byte and puts out the header of each frame when it is done with it:
with the last byte of the body, or, if the body is empty, with the first byte of the next
frame.  After a list of frames the header of the last one is missing iff its body is empty.
-/

namespace HeypAgents
namespace LengthPrefixed

variable {α : Type*}

/-- What the parser is in the middle of. -/
inductive Phase (α : Type*) where
  | header (read : List α)
  | body (header : List α) (left : ℕ)

/-- The phase and the headers put out so far. -/
structure Parser (α : Type*) where
  phase : Phase α
  done : List (List α)

section Parsing

variable (k : ℕ) (bodyLength : List α → ℕ)

def readHeader (read : List α) (b : α) : Phase α :=
  if read.length + 1 = k then .body (read ++ [b]) (bodyLength (read ++ [b]))
  else .header (read ++ [b])

def byteStep (p : Parser α) (b : α) : Parser α :=
  match p.phase with
  | .header read => { p with phase := readHeader k bodyLength read b }
  | .body h 0 => ⟨readHeader k bodyLength [] b, p.done ++ [h]⟩
  | .body h 1 => ⟨.header [], p.done ++ [h]⟩
  | .body h (left + 2) => { p with phase := .body h (left + 1) }

def feed (p : Parser α) (bytes : List α) : Parser α := bytes.foldl (byteStep k bodyLength) p

structure Frame where
  header : List α
  body : List α
  header_length : header.length = k
  body_length : body.length = bodyLength header

end Parsing

section Rules

variable {k : ℕ} {bodyLength : List α → ℕ} {done : List (List α)}

def Frame.bytes (f : Frame k bodyLength) : List α := f.header ++ f.body

@[simp] theorem byteStep_header (read : List α) (b : α) :
    byteStep k bodyLength ⟨.header read, done⟩ b = ⟨readHeader k bodyLength read b, done⟩ :=
  rfl

theorem feed_append (p : Parser α) (xs ys : List α) :
    feed k bodyLength p (xs ++ ys) = feed k bodyLength (feed k bodyLength p xs) ys :=
  List.foldl_append

theorem feed_body_of_lt {h bytes : List α} {left : ℕ} (hlt : bytes.length < left) :
    feed k bodyLength ⟨.body h left, done⟩ bytes = ⟨.body h (left - bytes.length), done⟩ := by
  induction bytes generalizing left with
  | nil => rfl
  | cons b bytes ih =>
    rw [List.length_cons] at hlt
    obtain ⟨left, rfl⟩ : ∃ l, left = l + 2 := ⟨left - 2, by omega⟩
    have hleft : left + 2 - (b :: bytes).length = left + 1 - bytes.length := by
      rw [List.length_cons]
      omega
    rw [hleft]
    exact ih (by omega)

theorem feed_body_of_le {h bytes : List α} {left : ℕ} (hle : left ≤ bytes.length)
    (hne : bytes ≠ []) :
    feed k bodyLength ⟨.body h left, done⟩ bytes =
      feed k bodyLength ⟨.header [], done ++ [h]⟩ (bytes.drop left) := by
  induction bytes generalizing left with
  | nil => exact absurd rfl hne
  | cons b bytes ih =>
    match left with
    | 0 => rfl
    | 1 => rfl
    | left + 2 =>
      rw [List.length_cons] at hle
      have hne' : bytes ≠ [] := List.ne_nil_of_length_pos (by omega)
      exact ih (by omega : left + 1 ≤ bytes.length) hne'

theorem feed_header {read rest : List α} (hlen : (read ++ rest).length = k) (hne : rest ≠ []) :
    feed k bodyLength ⟨.header read, done⟩ rest =
      ⟨.body (read ++ rest) (bodyLength (read ++ rest)), done⟩ := by
  induction rest generalizing read with
  | nil => exact absurd rfl hne
  | cons b rest ih =>
    rw [List.length_append, List.length_cons] at hlen
    rw [feed, List.foldl_cons, byteStep_header, ← feed, readHeader]
    by_cases hlast : rest = []
    · subst hlast
      rw [if_pos (by simpa using hlen)]
      rfl
    · have hpos := List.length_pos_iff.mpr hlast
      rw [if_neg (by omega), ih (by simp; omega) hlast, List.append_assoc, List.singleton_append]

def afterFrame (f : Frame k bodyLength) (done : List (List α)) : Parser α :=
  if f.body = [] then ⟨.body f.header 0, done⟩ else ⟨.header [], done ++ [f.header]⟩

theorem feed_frame (hk : 0 < k) (f : Frame k bodyLength) (done : List (List α)) :
    feed k bodyLength ⟨.header [], done⟩ f.bytes = afterFrame f done := by
  have hheader : f.header ≠ [] := List.ne_nil_of_length_pos (by rw [f.header_length]; exact hk)
  rw [Frame.bytes, feed_append, feed_header (by simpa using f.header_length) hheader,
    List.nil_append, ← f.body_length, afterFrame]
  split_ifs with hbody
  · rw [hbody]
    rfl
  · rw [feed_body_of_le (Nat.le_refl _) hbody, List.drop_length]
    rfl

theorem feed_afterFrame (f : Frame k bodyLength) {bytes : List α} (hne : bytes ≠ []) :
    feed k bodyLength (afterFrame f done) bytes =
      feed k bodyLength ⟨.header [], done ++ [f.header]⟩ bytes := by
  rw [afterFrame]
  split_ifs
  · exact feed_body_of_le (Nat.zero_le _) hne
  · rfl

theorem feed_frames (hk : 0 < k) (frames : List (Frame k bodyLength)) (f : Frame k bodyLength) :
    feed k bodyLength ⟨.header [], []⟩ ((frames ++ [f]).flatMap Frame.bytes) =
      afterFrame f (frames.map Frame.header) := by
  have hne : ∀ f : Frame k bodyLength, f.bytes ≠ [] := by
    intro f
    refine List.ne_nil_of_length_pos ?_
    rw [Frame.bytes, List.length_append, f.header_length]
    omega
  induction frames using List.reverseRecOn generalizing f with
  | nil => simpa using feed_frame hk f []
  | append_singleton frames g ih =>
    rw [List.flatMap_append, feed_append, ih g, List.flatMap_singleton,
      feed_afterFrame g (hne f), feed_frame hk, List.map_append, List.map_singleton]

/-- All headers are put out iff the last body is not empty. -/
theorem done_eq_iff (hk : 0 < k) (frames : List (Frame k bodyLength)) :
    (feed k bodyLength ⟨.header [], []⟩ (frames.flatMap Frame.bytes)).done =
        frames.map Frame.header ↔
      ∀ f ∈ frames.getLast?, f.body ≠ [] := by
  rcases List.eq_nil_or_concat frames with rfl | ⟨frames, f, rfl⟩
  · simp [feed]
  · rw [List.concat_eq_append, feed_frames hk]
    by_cases hbody : f.body = []
    · simp [afterFrame, hbody]
    · simp [afterFrame, hbody]

end Rules

end LengthPrefixed
end HeypAgents
