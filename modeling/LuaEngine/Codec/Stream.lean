import LuaEngine.Codec.LengthHeader
import LuaEngine.System.Scanner

/-!
# The codec on a byte stream

The decode loop is a scanner and `send` is its encoder, so a connection that
appends chunks to its buffer and calls `onMessage` after each one decodes its
byte stream as a whole.
-/

namespace LuaEngine.Codec.LengthHeaderCodec

open LuaEngine.System

def ShortHeader (buf : Buffer) : Prop := buf.readableBytes < kHeaderLen

/-- A header whose length `onMessage` refuses. -/
def InvalidHeader (buf : Buffer) : Prop :=
  kHeaderLen ≤ buf.readableBytes ∧ (buf.peekInt32 < 0 ∨ buf.peekInt32 > 65536)

def ShortBody (buf : Buffer) : Prop :=
  kHeaderLen ≤ buf.readableBytes ∧ 0 ≤ buf.peekInt32 ∧ buf.peekInt32 ≤ 65536 ∧
    (buf.readableBytes : Int) < kHeaderLen + buf.peekInt32

instance (buf : Buffer) : Decidable (ShortHeader buf) :=
  inferInstanceAs (Decidable (buf.readableBytes < kHeaderLen))

instance (buf : Buffer) : Decidable (InvalidHeader buf) :=
  inferInstanceAs (Decidable (_ ∧ _))

instance (buf : Buffer) : Decidable (ShortBody buf) :=
  inferInstanceAs (Decidable (_ ∧ _ ∧ _ ∧ _))

theorem send_of_length_lt {message : Bytes} (small : message.length < 2 ^ 31) :
    send message = hostToNetwork32 message.length ++ message := by
  unfold send
  rw [toInt32_of_bounds (by omega) (by omega)]
  rfl

theorem iteration_send {message : Bytes} (valid : message.length ≤ 65536)
    (rest : Bytes) : iteration (send message ++ rest) = .frame message rest := by
  rw [send_of_length_lt (by omega), List.append_assoc,
    iteration_header (by omega) (by omega)]
  have admissible : ¬((message.length : Int) > 65536 ∨ (message.length : Int) < 0) := by
    omega
  rw [if_neg admissible, if_pos (by simp)]
  simp

theorem iteration_send_oversized {message : Bytes} (oversized : 65536 < message.length)
    (small : message.length < 2 ^ 31) (rest : Bytes) :
    iteration (send message ++ rest) = .invalidLength message.length := by
  rw [send_of_length_lt small, List.append_assoc, iteration_header (by omega) (by omega),
    if_pos (by omega)]

def Iteration.found : Iteration → Found UInt8 Bytes
  | .shortHeader => .more
  | .invalidLength _ => .halt
  | .frame message rest => .item message rest
  | .shortBody => .more

def find (buf : Buffer) : Found UInt8 Bytes := (iteration buf).found

theorem found_eq_more {pass : Iteration} :
    pass.found = .more ↔ pass = .shortHeader ∨ pass = .shortBody := by
  cases pass <;> simp [Iteration.found]

theorem found_eq_halt {pass : Iteration} :
    pass.found = .halt ↔ ∃ len, pass = .invalidLength len := by
  cases pass <;> simp [Iteration.found]

theorem find_eq_item {buf rest : Buffer} {message : Bytes} :
    find buf = .item message rest ↔ iteration buf = .frame message rest := by
  unfold find
  cases iteration buf <;> simp [Iteration.found]

theorem find_eq_halt {buf : Buffer} : find buf = .halt ↔ InvalidHeader buf := by
  induction buf using buffer_cases with
  | short buf short =>
      have absent : ¬kHeaderLen ≤ buf.readableBytes := Nat.not_le_of_lt short
      simp [find, iteration_short short, Iteration.found, InvalidHeader, absent]
  | header len body lower upper =>
      have present : kHeaderLen ≤ Buffer.readableBytes (hostToNetwork32 len ++ body) := by
        simp [Buffer.readableBytes, kHeaderLen]
      have peeked : Buffer.peekInt32 (hostToNetwork32 len ++ body) = len := by
        rw [peekInt32_hostToNetwork32_append, toInt32_of_bounds lower upper]
      rw [find, iteration_header lower upper, InvalidHeader, peeked]
      by_cases invalid : len > 65536 ∨ len < 0
      · rw [if_pos invalid]
        exact iff_of_true rfl ⟨present, invalid.symm⟩
      · rw [if_neg invalid]
        refine iff_of_false ?_ fun refused => invalid refused.2.symm
        split <;> simp [Iteration.found]

theorem find_eq_more {buf : Buffer} :
    find buf = .more ↔ ShortHeader buf ∨ ShortBody buf := by
  induction buf using buffer_cases with
  | short buf short =>
      have absent : ShortHeader buf := short
      simp [find, iteration_short short, Iteration.found, absent]
  | header len body lower upper =>
      have readable :
          Buffer.readableBytes (hostToNetwork32 len ++ body) = 4 + body.length := by
        simp [Buffer.readableBytes]
      have peeked : Buffer.peekInt32 (hostToNetwork32 len ++ body) = len := by
        rw [peekInt32_hostToNetwork32_append, toInt32_of_bounds lower upper]
      rw [find, iteration_header lower upper, ShortHeader, ShortBody, peeked, readable]
      unfold kHeaderLen
      by_cases invalid : len > 65536 ∨ len < 0
      · rw [if_pos invalid]
        exact iff_of_false (by simp [Iteration.found]) (by omega)
      · by_cases complete : len.toNat ≤ body.length
        · rw [if_neg invalid, if_pos complete]
          exact iff_of_false (by simp [Iteration.found]) (by omega)
        · rw [if_neg invalid, if_neg complete]
          exact iff_of_true rfl (by omega)

theorem InvalidHeader.append {buf : Buffer} (invalid : InvalidHeader buf)
    (later : Bytes) : InvalidHeader (buf ++ later) := by
  induction buf using buffer_cases with
  | short buf short => exact absurd invalid.1 (Nat.not_le_of_lt short)
  | header len body lower upper =>
      refine ⟨by simp [Buffer.readableBytes, kHeaderLen], ?_⟩
      simpa [InvalidHeader, toInt32_of_bounds lower upper] using invalid.2

theorem find_nil : find [] = .more :=
  find_eq_more.mpr (.inl (by decide))

theorem find_eq_item_send {input rest : Buffer} {message : Bytes}
    (found : find input = .item message rest) :
    message.length ≤ 65536 ∧ input = send message ++ rest := by
  obtain ⟨valid, equality⟩ := iteration_eq_frame (find_eq_item.mp found)
  refine ⟨valid, ?_⟩
  rw [send_of_length_lt (by omega), equality, List.append_assoc]

theorem find_send {message : Bytes} (rest : Buffer) (valid : message.length ≤ 65536) :
    find (send message ++ rest) = .item message rest :=
  find_eq_item.mpr (iteration_send valid rest)

theorem find_item_append {input rest : Buffer} {message : Bytes} (later : Buffer)
    (found : find input = .item message rest) :
    find (input ++ later) = .item message (rest ++ later) := by
  obtain ⟨valid, equality⟩ := find_eq_item_send found
  rw [equality, List.append_assoc]
  exact find_send (rest ++ later) valid

theorem find_halt_append {input : Buffer} (later : Buffer) (found : find input = .halt) :
    find (input ++ later) = .halt :=
  find_eq_halt.mpr ((find_eq_halt.mp found).append later)

theorem find_send_oversized {message : Bytes} (rest : Buffer)
    (rejected : 65536 < message.length ∧ message.length < 2 ^ 31) :
    find (send message ++ rest) = .halt := by
  rw [find, iteration_send_oversized rejected.1 rejected.2]
  rfl

theorem find_shortens {input rest : Buffer} {message : Bytes}
    (found : find input = .item message rest) : rest.length < input.length :=
  iteration_shortens (find_eq_item.mp found)

/-- The codec as a scanner that undoes `send`. -/
def framing : Framing UInt8 Bytes where
  find := find
  find_nil := find_nil
  shortens := find_shortens
  item_append := find_item_append
  halt_append := find_halt_append
  encode := send
  Admits message := message.length ≤ 65536
  Rejects message := 65536 < message.length ∧ message.length < 2 ^ 31
  find_encode := find_send
  halt_encode := find_send_oversized
  eq_encode := find_eq_item_send

instance : DecidablePred framing.Admits := fun message =>
  inferInstanceAs (Decidable (message.length ≤ 65536))

variable {Conn Timestamp : Type}

/-- What is observed of a call when the connection and the receive times are
forgotten. -/
def Decoded.observed (decoded : Decoded Conn Timestamp) : Scanned UInt8 Bytes :=
  ⟨decoded.messages.map (·.message_), decoded.buffer, decide (0 < decoded.shutdowns)⟩

/-- One call of `onMessage` scans the buffer. -/
theorem onMessage_observed (conn : Conn) (buf : Buffer) (receiveTime : Timestamp) :
    (onMessage conn buf receiveTime).observed = framing.scan buf := by
  induction buf using framing.scan_induction with
  | more buf found =>
      have stopped : iteration buf = .shortHeader ∨ iteration buf = .shortBody :=
        found_eq_more.mp found
      rw [onMessage_short conn receiveTime stopped, framing.scan_more found]
      rfl
  | halt buf found =>
      rcases found_eq_halt.mp found with ⟨len, refused⟩
      rw [onMessage_invalidLength conn receiveTime refused, framing.scan_halt found]
      rfl
  | item buf message rest found inductionHypothesis =>
      rw [onMessage_frame conn receiveTime (find_eq_item.mp found),
        framing.scan_item found, ← inductionHypothesis]
      rfl

theorem mem_messages_onMessage {conn : Conn} {buf : Buffer} {receiveTime : Timestamp}
    {delivered : MessageQueue Conn Timestamp}
    (membership : delivered ∈ (onMessage conn buf receiveTime).messages) :
    delivered.conn_ = conn ∧ delivered.timestamp_ = receiveTime ∧
      delivered.message_.length ≤ 65536 := by
  induction buf using framing.scan_induction with
  | more buf found =>
      have stopped : iteration buf = .shortHeader ∨ iteration buf = .shortBody :=
        found_eq_more.mp found
      simp [onMessage_short conn receiveTime stopped] at membership
  | halt buf found =>
      rcases found_eq_halt.mp found with ⟨len, refused⟩
      simp [onMessage_invalidLength conn receiveTime refused] at membership
  | item buf message rest found inductionHypothesis =>
      have taken := find_eq_item.mp found
      rw [onMessage_frame conn receiveTime taken] at membership
      rcases List.mem_cons.mp membership with equality | later
      · rw [equality]
        exact ⟨rfl, rfl, (iteration_eq_frame taken).1⟩
      · exact inductionHypothesis later

end LuaEngine.Codec.LengthHeaderCodec
