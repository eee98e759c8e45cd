import LuaEngine.Codec.Stream

/-!
# Decoding a connection's byte stream

One call of `onMessage` accounts for every byte of the buffer.  A connection
that receives its stream in chunks delivers what one scan of the whole stream
delivers, so the cut is invisible: sent messages come back in order up to the
first oversized one, and a refused header stays at the front for good.
-/

namespace LuaEngine.Codec.LengthHeaderCodec

open LuaEngine.System

variable {Conn Timestamp : Type}

theorem onMessage_messages (conn : Conn) (buf : Buffer) (receiveTime : Timestamp) :
    (onMessage conn buf receiveTime).messages.map (·.message_) =
      (framing.scan buf).items :=
  congrArg Scanned.items (onMessage_observed conn buf receiveTime)

theorem onMessage_buffer (conn : Conn) (buf : Buffer) (receiveTime : Timestamp) :
    (onMessage conn buf receiveTime).buffer = (framing.scan buf).residue :=
  congrArg Scanned.residue (onMessage_observed conn buf receiveTime)

theorem onMessage_shutdowns (conn : Conn) (buf : Buffer) (receiveTime : Timestamp) :
    0 < (onMessage conn buf receiveTime).shutdowns ↔
      (framing.scan buf).halted = true := by
  rw [← congrArg Scanned.halted (onMessage_observed conn buf receiveTime)]
  simp [Decoded.observed]

theorem residue_cases (buf : Buffer) :
    (ShortHeader (framing.scan buf).residue ∨ ShortBody (framing.scan buf).residue) ∧
        (framing.scan buf).halted = false ∨
      InvalidHeader (framing.scan buf).residue ∧ (framing.scan buf).halted = true := by
  rcases framing.find_residue buf with ⟨found, running⟩ | ⟨found, halted⟩
  · exact .inl ⟨find_eq_more.mp found, running⟩
  · exact .inr ⟨find_eq_halt.mp found, halted⟩

theorem InvalidHeader.not_short {buf : Buffer} (invalid : InvalidHeader buf) :
    ¬(ShortHeader buf ∨ ShortBody buf) := by
  rintro (short | ⟨_, lower, upper, _⟩)
  · exact Nat.not_le_of_lt short invalid.1
  · rcases invalid.2 with negative | large <;> omega

theorem halted_iff_invalidHeader (buf : Buffer) :
    (framing.scan buf).halted = true ↔ InvalidHeader (framing.scan buf).residue := by
  rcases residue_cases buf with ⟨short, running⟩ | ⟨invalid, halted⟩
  · exact iff_of_false (by simp [running]) fun invalid => invalid.not_short short
  · exact iff_of_true halted invalid

/-- The messages delivered by one call, each behind its header, and the bytes
left in the buffer are the buffer's content.  What is left is short of a header,
short of a body or starts with a refused header, and it is the last exactly when
the connection was shut down. -/
theorem onMessage_accounts (conn : Conn) (buf : Buffer) (receiveTime : Timestamp) :
    ((onMessage conn buf receiveTime).messages.flatMap fun delivered =>
          hostToNetwork32 delivered.message_.length ++ delivered.message_) ++
        (onMessage conn buf receiveTime).buffer = buf ∧
      ((onMessage conn buf receiveTime).messages.flatMap fun delivered =>
          send delivered.message_) ++ (onMessage conn buf receiveTime).buffer = buf ∧
      (ShortHeader (onMessage conn buf receiveTime).buffer ∨
        ShortBody (onMessage conn buf receiveTime).buffer ∨
        InvalidHeader (onMessage conn buf receiveTime).buffer) ∧
      (0 < (onMessage conn buf receiveTime).shutdowns ↔
        InvalidHeader (onMessage conn buf receiveTime).buffer) := by
  have encoded : ((onMessage conn buf receiveTime).messages.flatMap fun delivered =>
      send delivered.message_) ++ (onMessage conn buf receiveTime).buffer = buf := by
    have accounted := framing.encode_scan buf
    rw [← onMessage_messages conn buf receiveTime,
      ← onMessage_buffer conn buf receiveTime, List.flatMap_map] at accounted
    exact accounted
  refine ⟨?_, encoded, ?_, ?_⟩
  · have headers : ∀ delivered ∈ (onMessage conn buf receiveTime).messages,
        hostToNetwork32 delivered.message_.length ++ delivered.message_ =
          send delivered.message_ := by
      intro delivered membership
      have valid := (mem_messages_onMessage membership).2.2
      exact (send_of_length_lt (by omega)).symm
    rw [List.flatMap_congr headers]
    exact encoded
  · rw [onMessage_buffer]
    rcases residue_cases buf with ⟨short | short, _⟩ | ⟨invalid, _⟩
    · exact .inl short
    · exact .inr (.inl short)
    · exact .inr (.inr invalid)
  · rw [onMessage_shutdowns, onMessage_buffer]
    exact halted_iff_invalidHeader buf

/-! ## Chunks -/

structure Chunk (Timestamp : Type) where
  data : Bytes
  receiveTime : Timestamp
  deriving DecidableEq

/-- One read: muduo appends to the connection's buffer and calls `onMessage`. -/
def receive (conn : Conn) (before : Decoded Conn Timestamp) (chunk : Chunk Timestamp) :
    Decoded Conn Timestamp :=
  let after := onMessage conn (before.buffer.append chunk.data) chunk.receiveTime
  { messages := before.messages ++ after.messages
    errors := before.errors ++ after.errors
    shutdowns := before.shutdowns + after.shutdowns
    buffer := after.buffer }

def receiveAll (conn : Conn) (chunks : List (Chunk Timestamp)) : Decoded Conn Timestamp :=
  chunks.foldl (receive conn) ⟨[], [], 0, []⟩

def stream (chunks : List (Chunk Timestamp)) : Bytes := chunks.flatMap (·.data)

theorem receive_observed (conn : Conn) (before : Decoded Conn Timestamp)
    (chunk : Chunk Timestamp) :
    (receive conn before chunk).observed = framing.feed before.observed chunk.data := by
  have after := onMessage_observed conn (before.buffer.append chunk.data) chunk.receiveTime
  change (onMessage conn (before.buffer.append chunk.data) chunk.receiveTime).observed =
    framing.scan (before.buffer ++ chunk.data) at after
  unfold Scanner.feed
  simp only [Decoded.observed] at after ⊢
  rw [← after]
  simp [receive, Bool.decide_or]

theorem foldl_receive_observed (conn : Conn) (before : Decoded Conn Timestamp)
    (chunks : List (Chunk Timestamp)) :
    (chunks.foldl (receive conn) before).observed =
      (chunks.map (·.data)).foldl framing.feed before.observed := by
  induction chunks generalizing before with
  | nil => rfl
  | cons chunk chunks inductionHypothesis =>
      rw [List.foldl_cons, inductionHypothesis, receive_observed]
      rfl

theorem receiveAll_observed (conn : Conn) (chunks : List (Chunk Timestamp)) :
    (receiveAll conn chunks).observed = framing.scan (stream chunks) := by
  have fed := framing.foldl_feed [] (chunks.map (·.data))
  rw [framing.scan_nil, List.nil_append, ← List.flatMap_def] at fed
  exact (foldl_receive_observed conn _ chunks).trans fed

theorem receiveAll_messages (conn : Conn) (chunks : List (Chunk Timestamp)) :
    (receiveAll conn chunks).messages.map (·.message_) =
      (framing.scan (stream chunks)).items :=
  congrArg Scanned.items (receiveAll_observed conn chunks)

theorem receiveAll_buffer (conn : Conn) (chunks : List (Chunk Timestamp)) :
    (receiveAll conn chunks).buffer = (framing.scan (stream chunks)).residue :=
  congrArg Scanned.residue (receiveAll_observed conn chunks)

theorem receiveAll_shutdowns (conn : Conn) (chunks : List (Chunk Timestamp)) :
    0 < (receiveAll conn chunks).shutdowns ↔
      (framing.scan (stream chunks)).halted = true := by
  rw [← congrArg Scanned.halted (receiveAll_observed conn chunks)]
  simp [Decoded.observed]

/-- Sent messages come back in order and byte for byte up to the first one
longer than 65536 bytes, however the stream is cut. -/
theorem receiveAll_sent (conn : Conn) (messages : List Bytes)
    (chunks : List (Chunk Timestamp))
    (small : ∀ message ∈ messages, message.length < 2 ^ 31)
    (cut : stream chunks = messages.flatMap send) :
    (receiveAll conn chunks).messages.map (·.message_) =
        messages.takeWhile (fun message => decide (message.length ≤ 65536)) ∧
      ((∀ message ∈ messages, message.length ≤ 65536) →
        (receiveAll conn chunks).buffer = [] ∧ (receiveAll conn chunks).shutdowns = 0) ∧
      ((∃ message ∈ messages, 65536 < message.length) →
        0 < (receiveAll conn chunks).shutdowns) := by
  have settled : ∀ message ∈ messages,
      framing.Admits message ∨ framing.Rejects message := by
    intro message membership
    have bound := small message membership
    by_cases valid : message.length ≤ 65536
    · exact .inl valid
    · exact .inr ⟨by omega, bound⟩
  rcases framing.scan_encode messages settled with ⟨items, halted⟩
  change (framing.scan (messages.flatMap send)).items = _ at items
  change (framing.scan (messages.flatMap send)).halted = true ↔ _ at halted
  refine ⟨?_, ?_, ?_⟩
  · rw [receiveAll_messages, cut]
    exact items
  · intro valid
    have whole := framing.scan_encode_append messages [] valid
    rw [List.append_nil, framing.scan_nil] at whole
    change framing.scan (messages.flatMap send) = _ at whole
    have running : ¬0 < (receiveAll conn chunks).shutdowns := by
      rw [receiveAll_shutdowns, cut, whole]
      simp [Scanner.fresh]
    refine ⟨?_, by omega⟩
    rw [receiveAll_buffer, cut, whole]
    rfl
  · rintro ⟨message, membership, oversized⟩
    rw [receiveAll_shutdowns, cut]
    exact halted.mpr ⟨message, membership, oversized, small message membership⟩

/-- Three messages, the second one empty, in chunks that cut the first header and
the first body. -/
theorem receiveAll_sent_in_three_chunks :
    let chunks : List (Chunk Nat) :=
      [⟨[0, 0, 0], 5⟩, ⟨[2, 72], 6⟩, ⟨[105, 0, 0, 0, 0, 0, 0, 0, 1, 7], 7⟩]
    (receiveAll () chunks).messages.map (·.message_) =
        [[72, 105], [], [7]].takeWhile (fun message => decide (message.length ≤ 65536)) ∧
      ((∀ message ∈ ([[72, 105], [], [7]] : List Bytes), message.length ≤ 65536) →
        (receiveAll () chunks).buffer = [] ∧ (receiveAll () chunks).shutdowns = 0) ∧
      ((∃ message ∈ ([[72, 105], [], [7]] : List Bytes), 65536 < message.length) →
        0 < (receiveAll () chunks).shutdowns) :=
  receiveAll_sent () [[72, 105], [], [7]] _ (by decide) (by decide)

theorem receiveAll_buffer_of_invalidHeader (conn : Conn)
    {chunks : List (Chunk Timestamp)} (invalid : InvalidHeader (stream chunks)) :
    (receiveAll conn chunks).buffer = stream chunks := by
  rw [receiveAll_buffer, framing.scan_halt (find_eq_halt.mpr invalid)]

/-- Once a refused header is at the front of the buffer, later chunks only pile
up behind it. -/
theorem receiveAll_append_of_invalidHeader {conn : Conn}
    {chunks : List (Chunk Timestamp)} (later : List (Chunk Timestamp))
    (invalid : InvalidHeader (receiveAll conn chunks).buffer) :
    (receiveAll conn (chunks ++ later)).messages = (receiveAll conn chunks).messages ∧
      (receiveAll conn (chunks ++ later)).buffer =
        (receiveAll conn chunks).buffer ++ stream later := by
  rw [receiveAll, List.foldl_append, ← receiveAll]
  generalize receiveAll conn chunks = before at invalid ⊢
  induction later generalizing before with
  | nil => simp [stream]
  | cons chunk later inductionHypothesis =>
      have refused := invalid.append chunk.data
      rcases found_eq_halt.mp (find_eq_halt.mpr refused) with ⟨len, stopped⟩
      have step := onMessage_invalidLength conn chunk.receiveTime stopped
      have after : receive conn before chunk =
          { messages := before.messages
            errors := before.errors ++ ["Invalid length " ++ toString len]
            shutdowns := before.shutdowns + 1
            buffer := before.buffer ++ chunk.data } := by
        simp [receive, Buffer.append, step]
      have rest := inductionHypothesis (receive conn before chunk)
        (by rw [after]; exact refused)
      rw [List.foldl_cons]
      simpa [after, stream] using rest

/-- Two cuts of one byte stream deliver the same messages, leave the same bytes
and agree on whether a shutdown was requested; and nothing is delivered once a
refused header has reached the front. -/
theorem receiveAll_chunking (conn : Conn) (first second : List (Chunk Timestamp)) :
    (stream first = stream second →
      (receiveAll conn first).messages.map (·.message_) =
          (receiveAll conn second).messages.map (·.message_) ∧
        (receiveAll conn first).buffer = (receiveAll conn second).buffer ∧
        (0 < (receiveAll conn first).shutdowns ↔
          0 < (receiveAll conn second).shutdowns)) ∧
      (InvalidHeader (receiveAll conn first).buffer →
        (receiveAll conn (first ++ second)).messages = (receiveAll conn first).messages) := by
  constructor
  · intro same
    have observed : (receiveAll conn first).observed = (receiveAll conn second).observed := by
      rw [receiveAll_observed, receiveAll_observed, same]
    refine ⟨congrArg Scanned.items observed, congrArg Scanned.residue observed, ?_⟩
    rw [receiveAll_shutdowns, receiveAll_shutdowns, same]
  · intro invalid
    exact (receiveAll_append_of_invalidHeader second invalid).1

theorem receiveAll_chunking_at_two_cuts :
    let first : List (Chunk Nat) := [⟨[255, 0], 1⟩, ⟨[0, 1, 9, 0], 2⟩]
    let second : List (Chunk Nat) := [⟨[255, 0, 0, 1, 9], 3⟩, ⟨[0], 4⟩]
    ((receiveAll () first).messages.map (·.message_) =
        (receiveAll () second).messages.map (·.message_) ∧
      (receiveAll () first).buffer = (receiveAll () second).buffer ∧
      (0 < (receiveAll () first).shutdowns ↔ 0 < (receiveAll () second).shutdowns)) ∧
      (receiveAll () (first ++ second)).messages = (receiveAll () first).messages := by
  intro first second
  have refused : InvalidHeader (receiveAll () first).buffer := by
    rw [receiveAll_buffer_of_invalidHeader () (by decide)]
    decide
  exact ⟨(receiveAll_chunking () first second).1 (by decide),
    (receiveAll_chunking () first second).2 refused⟩

/-! ## The bytes a peer can leave in the buffer -/

/-- The stream brings a refused header to the front of the buffer and has at
least `kHeaderLen + 65536` bytes from that header on. -/
def Floods (bytes : Bytes) : Prop :=
  ∃ (messages : List Bytes) (rest : Bytes),
    (∀ message ∈ messages, message.length ≤ 65536) ∧
    bytes = messages.flatMap send ++ rest ∧ InvalidHeader rest ∧
    kHeaderLen + 65536 ≤ rest.length

theorem Floods.append {bytes : Bytes} (floods : Floods bytes) (later : Bytes) :
    Floods (bytes ++ later) := by
  rcases floods with ⟨messages, rest, valid, equality, invalid, long⟩
  refine ⟨messages, rest ++ later, valid, ?_, invalid.append later, ?_⟩
  · rw [equality, List.append_assoc]
  · rw [List.length_append]
    omega

theorem floods_iff_residue (bytes : Bytes) :
    Floods bytes ↔ kHeaderLen + 65536 ≤ (framing.scan bytes).residue.length := by
  constructor
  · rintro ⟨messages, rest, valid, equality, invalid, long⟩
    have whole := framing.scan_encode_append messages rest valid
    rw [framing.scan_halt (find_eq_halt.mpr invalid)] at whole
    change framing.scan (messages.flatMap send ++ rest) = _ at whole
    rw [equality, whole]
    exact long
  · intro long
    refine ⟨(framing.scan bytes).items, (framing.scan bytes).residue,
      fun message membership => framing.admits_of_mem_scan membership,
      (framing.encode_scan bytes).symm, ?_, long⟩
    rcases residue_cases bytes with ⟨short | ⟨_, _, upper, short⟩, _⟩ | ⟨invalid, _⟩
    · unfold ShortHeader Buffer.readableBytes at short
      omega
    · unfold Buffer.readableBytes at short
      omega
    · exact invalid

/-- After every call the buffer holds fewer than `kHeaderLen + 65536` bytes,
exactly for the streams that do not flood it. -/
theorem receiveAll_bounded_iff (conn : Conn) (chunks : List (Chunk Timestamp)) :
    (∀ count, (receiveAll conn (chunks.take count)).buffer.length < kHeaderLen + 65536) ↔
      ¬Floods (stream chunks) := by
  constructor
  · intro bounded floods
    have whole := bounded chunks.length
    rw [List.take_length, receiveAll_buffer] at whole
    exact Nat.not_le_of_lt whole ((floods_iff_residue _).mp floods)
  · intro dry count
    rw [receiveAll_buffer]
    by_contra long
    have floods := (floods_iff_residue (stream (chunks.take count))).mpr (by omega)
    have split : stream chunks =
        stream (chunks.take count) ++ stream (chunks.drop count) := by
      rw [stream, stream, stream, ← List.flatMap_append, List.take_append_drop]
    rw [split] at dry
    exact dry (floods.append _)

/-- Whatever follows a negative length stays in the buffer, also when it arrives
after the shutdown. -/
theorem length_receiveAll_negative (padding : Bytes) :
    (receiveAll () (([⟨hostToNetwork32 (-1), 0⟩, ⟨padding, 1⟩] :
      List (Chunk Nat)).take 2)).buffer.length = kHeaderLen + padding.length := by
  have refused : InvalidHeader (hostToNetwork32 (-1) ++ padding) :=
    InvalidHeader.append (by decide) padding
  rw [List.take_of_length_le (by simp),
    receiveAll_buffer_of_invalidHeader () (by simpa [stream] using refused)]
  simp [stream, kHeaderLen]

theorem receiveAll_unbounded :
    ¬∀ count, (receiveAll () (([⟨hostToNetwork32 (-1), 0⟩,
        ⟨List.replicate 65536 0, 1⟩] : List (Chunk Nat)).take count)).buffer.length <
      kHeaderLen + 65536 := by
  intro bounded
  have whole := bounded 2
  rw [length_receiveAll_negative, List.length_replicate] at whole
  exact Nat.lt_irrefl _ whole

end LuaEngine.Codec.LengthHeaderCodec
