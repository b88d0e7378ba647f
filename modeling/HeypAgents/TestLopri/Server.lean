import Mathlib.Algebra.Order.Ring.Nat
import HeypAgents.Lib.LengthPrefixed
import HeypAgents.Lib.While

/-!
# The test server

`OnRpcRead` reads requests from a connection and acknowledges each with its header.  A
request is complete only inside a loop that runs while there are unread bytes, so a request
without a body is not acknowledged before the next one begins to arrive.
-/

namespace HeypAgents
namespace TestLopri

/-- The number that bytes stand for, least significant byte first. -/
def readLE : List UInt8 → ℕ
  | [] => 0
  | b :: bs => b.toNat + 256 * readLE bs

/-- `ReadU32LE` of the first four bytes of a header. -/
def bodyLength (header : List UInt8) : ℕ := readLE (header.take 4)

/-- A request as it is sent. -/
abbrev Request : Type := LengthPrefixed.Frame 28 bodyLength

namespace Server

/-- The part of `client_stream_t` that the server keeps itself. -/
structure ClientStream where
  bytesLeft : ℕ
  header : Vector UInt8 28
  numHeaderRead : ℕ
deriving Repr

/-- A connection with the acks written to it. -/
structure Conn where
  client : ClientStream
  acks : List (Vector UInt8 28) := []
  closed : Bool := false
deriving Repr

/-- The memory of a new connection is not initialized but for `num_header_read`. -/
def onNewConnection (memory : ClientStream) : Conn :=
  { client := { memory with numHeaderRead := 0 } }

/-- A connection and the bytes of the buffer from `b` to `e`. -/
structure Reading where
  conn : Conn
  rest : List UInt8

def readHeaderByte (c : Conn) (b : UInt8) (h : c.client.numHeaderRead < 28) : Conn :=
  let header := c.client.header.set c.client.numHeaderRead b h
  let numHeaderRead := c.client.numHeaderRead + 1
  let bytesLeft := if 28 ≤ numHeaderRead then bodyLength header.toList else c.client.bytesLeft
  { c with client := { bytesLeft, header, numHeaderRead } }

def skipBody (c : Conn) (n : ℕ) : Conn :=
  { c with client := { c.client with bytesLeft := c.client.bytesLeft - n } }

def writeAck (c : Conn) : Conn :=
  { c with client := { c.client with numHeaderRead := 0 }, acks := c.acks ++ [c.client.header] }

def loopCond (s : Reading) : Bool := !s.rest.isEmpty

def loopBody (s : Reading) : Reading :=
  match s.rest with
  | [] => s
  | b :: rest =>
    if h : s.conn.client.numHeaderRead < 28 then ⟨readHeaderByte s.conn b h, rest⟩
    else if s.rest.length < s.conn.client.bytesLeft then ⟨skipBody s.conn s.rest.length, []⟩
    else ⟨writeAck s.conn, s.rest.drop s.conn.client.bytesLeft⟩

/-- `none` stands for a negative `nread`. -/
def onRpcRead (c : Conn) : Option (List UInt8) → Conn
  | none => { c with closed := true }
  | some buf => (While.loop loopCond loopBody (2 * buf.length + 1) ⟨c, buf⟩).conn

def Conn.parser (c : Conn) : LengthPrefixed.Parser UInt8 where
  phase :=
    if c.client.numHeaderRead < 28 then .header (c.client.header.toList.take c.client.numHeaderRead)
    else .body c.client.header.toList c.client.bytesLeft
  done := c.acks.map Vector.toList

def Reading.outcome (s : Reading) : LengthPrefixed.Parser UInt8 :=
  LengthPrefixed.feed 28 bodyLength s.conn.parser s.rest

theorem take_set_succ (header : Vector UInt8 28) (b : UInt8) {n : ℕ} (h : n < 28) :
    (header.set n b h).toList.take (n + 1) = header.toList.take n ++ [b] := by
  have hlen : n < (header.toList.set n b).length := by simpa using h
  rw [Vector.toList_set, List.take_succ_eq_append_getElem hlen, List.getElem_set_self,
    List.take_set_of_le (Nat.le_refl n)]

theorem parser_of_header {c : Conn} (h : c.client.numHeaderRead < 28) :
    c.parser = ⟨.header (c.client.header.toList.take c.client.numHeaderRead),
      c.acks.map Vector.toList⟩ := by
  rw [Conn.parser, if_pos h]

theorem parser_of_body {c : Conn} (h : ¬ c.client.numHeaderRead < 28) :
    c.parser = ⟨.body c.client.header.toList c.client.bytesLeft, c.acks.map Vector.toList⟩ := by
  rw [Conn.parser, if_neg h]

theorem parser_readHeaderByte (c : Conn) (b : UInt8) (h : c.client.numHeaderRead < 28) :
    (readHeaderByte c b h).parser = LengthPrefixed.byteStep 28 bodyLength c.parser b := by
  have htake := take_set_succ c.client.header b h
  have hread : (c.client.header.toList.take c.client.numHeaderRead).length =
      c.client.numHeaderRead := by simp; omega
  have hnext : (readHeaderByte c b h).client.numHeaderRead = c.client.numHeaderRead + 1 := rfl
  rw [parser_of_header h, LengthPrefixed.byteStep_header, LengthPrefixed.readHeader, hread]
  by_cases hlast : c.client.numHeaderRead + 1 = 28
  · have hall : (c.client.header.set c.client.numHeaderRead b h).toList.take
        (c.client.numHeaderRead + 1) =
        (c.client.header.set c.client.numHeaderRead b h).toList :=
      List.take_of_length_le (by simp [hlast])
    have hleft : (readHeaderByte c b h).client.bytesLeft =
        bodyLength (c.client.header.set c.client.numHeaderRead b h).toList := if_pos hlast.ge
    rw [parser_of_body (by omega), hleft, if_pos hlast, ← htake, hall]
    rfl
  · rw [parser_of_header (by omega), if_neg hlast, ← htake]
    rfl

theorem loopBody_cases (c : Conn) (b : UInt8) (rest : List UInt8) :
    (∃ h, loopBody ⟨c, b :: rest⟩ = ⟨readHeaderByte c b h, rest⟩) ∨
      (¬ c.client.numHeaderRead < 28 ∧ (b :: rest).length < c.client.bytesLeft ∧
        loopBody ⟨c, b :: rest⟩ = ⟨skipBody c (b :: rest).length, []⟩) ∨
      (¬ c.client.numHeaderRead < 28 ∧ c.client.bytesLeft ≤ (b :: rest).length ∧
        loopBody ⟨c, b :: rest⟩ = ⟨writeAck c, (b :: rest).drop c.client.bytesLeft⟩) := by
  by_cases hheader : c.client.numHeaderRead < 28
  · exact Or.inl ⟨hheader, dif_pos hheader⟩
  · by_cases hshort : (b :: rest).length < c.client.bytesLeft
    · exact Or.inr (Or.inl ⟨hheader, hshort, (dif_neg hheader).trans (if_pos hshort)⟩)
    · exact Or.inr (Or.inr ⟨hheader, not_lt.mp hshort, (dif_neg hheader).trans (if_neg hshort)⟩)

theorem loopBody_outcome (s : Reading) : (loopBody s).outcome = s.outcome := by
  obtain ⟨c, rest⟩ := s
  cases rest with
  | nil => rfl
  | cons b rest =>
    rcases loopBody_cases c b rest with
      ⟨hheader, heq⟩ | ⟨hheader, hshort, heq⟩ | ⟨hheader, hle, heq⟩
    · rw [heq, Reading.outcome, parser_readHeaderByte]
      rfl
    · have hskip : (skipBody c (b :: rest).length).parser =
          ⟨.body c.client.header.toList (c.client.bytesLeft - (b :: rest).length),
            c.acks.map Vector.toList⟩ := parser_of_body hheader
      rw [heq, Reading.outcome, Reading.outcome, hskip, parser_of_body hheader,
        LengthPrefixed.feed_body_of_lt hshort]
      rfl
    · have hack : (writeAck c).parser =
          ⟨.header [], c.acks.map Vector.toList ++ [c.client.header.toList]⟩ := by
        have hzero : (writeAck c).client.numHeaderRead < 28 := Nat.zero_lt_succ 27
        rw [parser_of_header hzero]
        simp [writeAck]
      rw [heq, Reading.outcome, Reading.outcome, hack, parser_of_body hheader,
        LengthPrefixed.feed_body_of_le hle (List.cons_ne_nil b rest)]

def loopMeasure (s : Reading) : ℕ :=
  2 * s.rest.length + if s.conn.client.numHeaderRead < 28 then 0 else 1

theorem loopBody_measure {s : Reading} (hcond : loopCond s = true) :
    loopMeasure (loopBody s) < loopMeasure s := by
  obtain ⟨c, rest⟩ := s
  cases rest with
  | nil => simp [loopCond] at hcond
  | cons b rest =>
    rcases loopBody_cases c b rest with
      ⟨hheader, heq⟩ | ⟨hheader, hshort, heq⟩ | ⟨hheader, hle, heq⟩
    · simp only [heq, loopMeasure, List.length_cons, if_pos hheader]
      split_ifs
      · omega
      · omega
    · simp only [heq, loopMeasure, skipBody, List.length_cons, List.length_nil, if_neg hheader]
      omega
    · have hdrop : ((b :: rest).drop c.client.bytesLeft).length ≤ (b :: rest).length := by
        rw [List.length_drop]
        omega
      have hzero : (writeAck c).client.numHeaderRead < 28 := Nat.zero_lt_succ 27
      simp only [heq, loopMeasure, if_neg hheader, if_pos hzero]
      omega

/-- Reading a buffer feeds its bytes to the parser of the connection. -/
theorem parser_onRpcRead (c : Conn) (buf : List UInt8) :
    (onRpcRead c (some buf)).parser = LengthPrefixed.feed 28 bodyLength c.parser buf := by
  have hfuel : loopMeasure ⟨c, buf⟩ ≤ 2 * buf.length + 1 := by
    refine Nat.add_le_add_left ?_ _
    split_ifs
    · exact Nat.zero_le 1
    · exact Nat.le_refl 1
  obtain ⟨houtcome, hexit⟩ := While.loop_spec (C := fun _ => True)
    (I := fun s => s.outcome = LengthPrefixed.feed 28 bodyLength c.parser buf)
    loopCond loopBody (fun s hs _ _ => (loopBody_outcome s).trans hs)
    (fun s _ hcond => loopBody_measure hcond) hfuel
    (While.always_of_forall (fun _ => trivial) _ _) rfl
  have hrest : (While.loop loopCond loopBody (2 * buf.length + 1) ⟨c, buf⟩).rest = [] := by
    simpa [loopCond] using hexit
  rw [Reading.outcome, hrest] at houtcome
  exact houtcome

def readAll (c : Conn) (chunks : List (List UInt8)) : Conn :=
  chunks.foldl (fun c chunk => onRpcRead c (some chunk)) c

theorem parser_readAll (c : Conn) (chunks : List (List UInt8)) :
    (readAll c chunks).parser = LengthPrefixed.feed 28 bodyLength c.parser chunks.flatten := by
  induction chunks generalizing c with
  | nil => rfl
  | cons chunk chunks ih =>
    rw [List.flatten_cons, LengthPrefixed.feed_append, ← parser_onRpcRead]
    exact ih (onRpcRead c (some chunk))

/--
However the requests are cut into chunks, each is acknowledged with its header, in order,
iff the last of them has a body.
-/
theorem acks_eq_headers_iff (memory : ClientStream) (requests : List Request)
    (chunks : List (List UInt8))
    (hchunks : chunks.flatten = requests.flatMap LengthPrefixed.Frame.bytes) :
    (readAll (onNewConnection memory) chunks).acks.map Vector.toList =
        requests.map LengthPrefixed.Frame.header ↔
      ∀ request ∈ requests.getLast?, request.body ≠ [] := by
  rw [← LengthPrefixed.done_eq_iff (by omega), ← hchunks]
  have hparser := parser_readAll (onNewConnection memory) chunks
  exact Eq.congr (congrArg LengthPrefixed.Parser.done hparser) rfl

def zeroMemory : ClientStream :=
  { bytesLeft := 0, header := Vector.replicate 28 0, numHeaderRead := 0 }

def shortRequest : Request := ⟨List.replicate 28 0, [], by decide, by decide⟩

def longRequest : Request := ⟨1 :: List.replicate 27 0, [7], by decide, by decide⟩

/-- A short request that arrives in one piece is not acknowledged. -/
theorem shortRequest_not_acked :
    (readAll (onNewConnection zeroMemory) [shortRequest.bytes]).acks.map Vector.toList = [] ∧
      [shortRequest].map LengthPrefixed.Frame.header ≠ [] := by
  decide +kernel

/-- A short request is acknowledged when a long one follows. -/
theorem acks_eq_headers_iff_twoRequests :
    (readAll (onNewConnection zeroMemory)
        [shortRequest.bytes ++ [1, 0], List.replicate 26 0 ++ [7]]).acks.map Vector.toList =
      [shortRequest, longRequest].map LengthPrefixed.Frame.header :=
  (acks_eq_headers_iff zeroMemory [shortRequest, longRequest] _ (by decide)).mpr (by
    intro request hrequest
    obtain rfl : longRequest = request := by simpa using hrequest
    decide)

end Server
end TestLopri
end HeypAgents
