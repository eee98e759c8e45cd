import LuaEngine.Codec.Wire

/-!
# The length-header codec

`LengthHeaderCodec` frames a message by its length as a big-endian `int32_t`.
`onMessage` is the decode loop that muduo runs after every read: one
`Iteration` for each pass of the loop, until the header is incomplete, the
length is invalid or the body is incomplete.
-/

namespace LuaEngine.Codec

structure MessageQueue (Conn : Type) (Timestamp : Type) where
  conn_ : Conn
  message_ : Bytes
  timestamp_ : Timestamp
  deriving DecidableEq

namespace LengthHeaderCodec

def kHeaderLen : Nat := 4

/-- The bytes `send` hands to `conn->send`. -/
def send (message : Bytes) : Bytes :=
  let buf := Buffer.append [] message
  let len := toInt32 message.length
  let be32 := hostToNetwork32 len
  buf.prepend be32

/-- The four ways through one pass of the decode loop. -/
inductive Iteration where
  /-- The loop condition fails. -/
  | shortHeader
  /-- The length is refused; the header stays in the buffer. -/
  | invalidLength (len : Int)
  /-- One message is taken off the buffer. -/
  | frame (message : Bytes) (rest : Buffer)
  /-- The body has not arrived in full. -/
  | shortBody
  deriving DecidableEq

def iteration (buf : Buffer) : Iteration :=
  if buf.readableBytes ≥ kHeaderLen then
    let len := buf.peekInt32
    if len > 65536 ∨ len < 0 then
      .invalidLength len
    -- `len` is converted to `size_t` before the sum is taken.
    else if buf.readableBytes ≥ (toSizeT len + kHeaderLen) % 2 ^ 64 then
      let body := buf.retrieve kHeaderLen
      .frame (body.peek (toSizeT len)) (body.retrieve (toSizeT len))
    else
      .shortBody
  else
    .shortHeader

theorem iteration_short {buf : Buffer} (short : buf.length < 4) :
    iteration buf = .shortHeader := by
  have condition : ¬buf.readableBytes ≥ kHeaderLen := by
    simpa [Buffer.readableBytes, kHeaderLen] using short
  simp [iteration, condition]

/-- The loop body in terms of the header's length and the bytes behind it. -/
theorem iteration_header {len : Int} (lower : -2 ^ 31 ≤ len) (upper : len < 2 ^ 31)
    (body : Bytes) :
    iteration (hostToNetwork32 len ++ body) =
      if len > 65536 ∨ len < 0 then .invalidLength len
      else if len.toNat ≤ body.length then
        .frame (body.take len.toNat) (body.drop len.toNat)
      else .shortBody := by
  have readable : Buffer.readableBytes (hostToNetwork32 len ++ body) = body.length + 4 := by
    simp [Buffer.readableBytes, Nat.add_comm]
  have peeked : Buffer.peekInt32 (hostToNetwork32 len ++ body) = len := by
    rw [peekInt32_hostToNetwork32_append, toInt32_of_bounds lower upper]
  have behind : Buffer.retrieve (hostToNetwork32 len ++ body) kHeaderLen = body := rfl
  unfold iteration
  rw [readable, peeked, behind]
  by_cases invalid : len > 65536 ∨ len < 0
  · simp [kHeaderLen, invalid]
  · have size : toSizeT len = len.toNat := by
      unfold toSizeT
      omega
    have sum : (len.toNat + kHeaderLen) % 2 ^ 64 = len.toNat + 4 := by
      unfold kHeaderLen
      omega
    have complete : body.length + 4 ≥ len.toNat + 4 ↔ len.toNat ≤ body.length := by
      omega
    have header : body.length + 4 ≥ kHeaderLen := Nat.le_add_left 4 body.length
    simp only [if_pos header, if_neg invalid, size, sum, complete, Buffer.peek,
      Buffer.retrieve]

theorem buffer_cases {motive : Buffer → Prop}
    (short : ∀ buf : Buffer, buf.length < 4 → motive buf)
    (header : ∀ (len : Int) (body : Bytes), -2 ^ 31 ≤ len → len < 2 ^ 31 →
      motive (hostToNetwork32 len ++ body))
    (buf : Buffer) : motive buf := by
  by_cases long : 4 ≤ buf.readableBytes
  · rcases Buffer.exists_header long with ⟨len, body, equality, _, lower, upper⟩
    rw [equality]
    exact header len body lower upper
  · exact short buf (by simpa [Buffer.readableBytes] using long)

theorem iteration_eq_frame {buf rest : Buffer} {message : Bytes}
    (taken : iteration buf = .frame message rest) :
    message.length ≤ 65536 ∧
      buf = hostToNetwork32 message.length ++ (message ++ rest) := by
  induction buf using buffer_cases with
  | short buf short => simp [iteration_short short] at taken
  | header len body lower upper =>
      rw [iteration_header lower upper] at taken
      split at taken
      next invalid => simp at taken
      next valid =>
        split at taken
        next complete =>
          rw [Iteration.frame.injEq] at taken
          have length : message.length = len.toNat := by
            rw [← taken.1, List.length_take, min_eq_left complete]
          refine ⟨by omega, ?_⟩
          have integer : (message.length : Int) = len := by omega
          rw [integer, ← taken.1, ← taken.2, List.take_append_drop]
        next incomplete => simp at taken

theorem iteration_shortens {buf rest : Buffer} {message : Bytes}
    (taken : iteration buf = .frame message rest) : rest.length < buf.length := by
  rw [(iteration_eq_frame taken).2]
  simp only [List.length_append, length_hostToNetwork32]
  omega

/-- What one call of `onMessage` does: the messages it passes to
`messageQueueCallback_`, the lines it logs as errors, how often it calls
`conn->shutdown()`, and the buffer it leaves. -/
structure Decoded (Conn : Type) (Timestamp : Type) where
  messages : List (MessageQueue Conn Timestamp)
  errors : List String
  shutdowns : Nat
  buffer : Buffer
  deriving DecidableEq

def onMessage {Conn Timestamp : Type} (conn : Conn) (buf : Buffer)
    (receiveTime : Timestamp) : Decoded Conn Timestamp :=
  match _taken : iteration buf with
  | .shortHeader => ⟨[], [], 0, buf⟩
  | .invalidLength len => ⟨[], ["Invalid length " ++ toString len], 1, buf⟩
  | .frame message rest =>
      let later := onMessage conn rest receiveTime
      { later with messages := ⟨conn, message, receiveTime⟩ :: later.messages }
  | .shortBody => ⟨[], [], 0, buf⟩
termination_by buf.length
decreasing_by exact iteration_shortens _taken

section Passes

variable {Conn Timestamp : Type} (conn : Conn) {buf rest : Buffer}
  (receiveTime : Timestamp)

theorem onMessage_short
    (stopped : iteration buf = .shortHeader ∨ iteration buf = .shortBody) :
    onMessage conn buf receiveTime = ⟨[], [], 0, buf⟩ := by
  unfold onMessage
  split <;> simp_all

theorem onMessage_invalidLength {len : Int}
    (refused : iteration buf = .invalidLength len) :
    onMessage conn buf receiveTime =
      ⟨[], ["Invalid length " ++ toString len], 1, buf⟩ := by
  unfold onMessage
  split <;> simp_all

theorem onMessage_frame {message : Bytes}
    (taken : iteration buf = .frame message rest) :
    onMessage conn buf receiveTime =
      { onMessage conn rest receiveTime with
        messages := ⟨conn, message, receiveTime⟩ ::
          (onMessage conn rest receiveTime).messages } := by
  rw [onMessage]
  split <;> simp_all

end Passes

end LengthHeaderCodec

end LuaEngine.Codec
