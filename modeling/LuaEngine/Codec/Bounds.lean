import LuaEngine.Codec.LengthHeader
import LuaEngine.System.Machine

/-!
# The bounds of the decode loop

One pass of the loop with every access checked: the conversion and the sum of
`size_t` must not wrap, and neither `peek` nor `retrieve` may go beyond the
readable bytes.  The length is any value the header may have, whatever bytes it
is read from.
-/

namespace LuaEngine.Codec

open LuaEngine.System

inductive Fault where
  /-- `len + kHeaderLen` is not the sum of the two numbers. -/
  | sum
  /-- The payload goes beyond the readable bytes. -/
  | payload
  /-- More is retrieved than is readable. -/
  | retrieve
  deriving DecidableEq

namespace Buffer

/-- The `len` bytes from `peek()` on, as `MessageQueue` copies them. -/
def checkedPeek (buf : Buffer) (len : Nat) : Except Fault Bytes :=
  if len ≤ buf.readableBytes then .ok (buf.peek len) else .error .payload

def checkedRetrieve (buf : Buffer) (len : Nat) : Except Fault Buffer :=
  if len ≤ buf.readableBytes then .ok (buf.retrieve len) else .error .retrieve

/-- `peekInt32()` as an `int32_t`. -/
def header (buf : Buffer) : Int32 := Int32.ofInt buf.peekInt32

theorem toInt_header (buf : Buffer) : buf.header.toInt = buf.peekInt32 :=
  Int32.toInt_ofInt_of_le (toInt32_lower _) (toInt32_upper _)

end Buffer

namespace LengthHeaderCodec

/-- `len + kHeaderLen` -/
def checkedSum (len : Int) : Except Fault Nat :=
  if (toSizeT len : Int) = len ∧ toSizeT len + kHeaderLen < 2 ^ 64 then
    .ok (toSizeT len + kHeaderLen)
  else
    .error .sum

/-- One pass of the decode loop, where `peekInt32` gives `len`. -/
def checkedIteration (buf : Buffer) (len : Int) : Except Fault Iteration := do
  if buf.readableBytes ≥ kHeaderLen then
    if len > 65536 ∨ len < 0 then
      .ok (.invalidLength len)
    else
      let sum ← checkedSum len
      if buf.readableBytes ≥ sum then
        let body ← buf.checkedRetrieve kHeaderLen
        let message ← body.checkedPeek (toSizeT len)
        let rest ← body.checkedRetrieve (toSizeT len)
        .ok (.frame message rest)
      else
        .ok .shortBody
  else
    .ok .shortHeader

/-- The passes after which the loop goes on, by the lengths they meet. -/
def decodeLoop (buf : Buffer) : Machine Buffer Int32 where
  initial := buf
  step buf len :=
    match checkedIteration buf len.toInt with
    | .ok (.frame _ rest) => some rest
    | _ => none

/-- Nothing in the pass goes wrong, and it takes at least a header off the buffer if the
loop goes on. -/
def InBounds (buf : Buffer) (len : Int32) : Prop :=
  ∃ outcome, checkedIteration buf len.toInt = .ok outcome ∧
    ∀ message rest, outcome = .frame message rest → rest.readableBytes + 4 ≤ buf.readableBytes

theorem toSizeT_valid {len : Int} (valid : ¬ (len > 65536 ∨ len < 0)) :
    toSizeT len = len.toNat := by
  unfold toSizeT
  omega

theorem checkedSum_eq {len : Int} (valid : ¬ (len > 65536 ∨ len < 0)) :
    checkedSum len = .ok (len.toNat + 4) := by
  have exact : (toSizeT len : Int) = len ∧ toSizeT len + kHeaderLen < 2 ^ 64 := by
    rw [toSizeT_valid valid, kHeaderLen]
    omega
  rw [checkedSum, if_pos exact, toSizeT_valid valid, kHeaderLen]

/-- No check fails, and the pass is that of the bytes behind the header. -/
theorem checkedIteration_eq (buf : Buffer) (len : Int) :
    checkedIteration buf len = .ok
      (if buf.readableBytes < 4 then .shortHeader
      else if len > 65536 ∨ len < 0 then .invalidLength len
      else if len.toNat ≤ (buf.drop 4).length then
        .frame ((buf.drop 4).take len.toNat) ((buf.drop 4).drop len.toNat)
      else .shortBody) := by
  unfold checkedIteration kHeaderLen
  by_cases short : buf.readableBytes < 4
  · rw [if_pos short, if_neg (Nat.not_le.mpr short)]
  · have long : 4 ≤ buf.readableBytes := Nat.not_lt.mp short
    rw [if_neg short, if_pos long]
    by_cases invalid : len > 65536 ∨ len < 0
    · rw [if_pos invalid, if_pos invalid]
    · rw [if_neg invalid, if_neg invalid, checkedSum_eq invalid]
      have behind : (buf.drop 4).length = buf.readableBytes - 4 := List.length_drop
      have header : buf.checkedRetrieve 4 = .ok (buf.drop 4) := if_pos long
      by_cases complete : len.toNat ≤ (buf.drop 4).length
      · have enough : buf.readableBytes ≥ len.toNat + 4 := by omega
        have payload : Buffer.checkedPeek (buf.drop 4) len.toNat =
            .ok ((buf.drop 4).take len.toNat) := if_pos complete
        have retrieved : Buffer.checkedRetrieve (buf.drop 4) len.toNat =
            .ok ((buf.drop 4).drop len.toNat) := if_pos complete
        simp only [bind, Except.bind, if_pos enough, header, toSizeT_valid invalid, payload,
          retrieved, if_pos complete]
      · have missing : ¬ buf.readableBytes ≥ len.toNat + 4 := by omega
        simp only [bind, Except.bind, if_neg missing, if_neg complete]

/-- The checked pass is the pass of the loop where the header is what the buffer holds. -/
theorem checkedIteration_peekInt32 (buf : Buffer) :
    checkedIteration buf buf.peekInt32 = .ok (iteration buf) := by
  rw [checkedIteration_eq]
  induction buf using buffer_cases with
  | short buf short =>
      have few : buf.readableBytes < 4 := short
      rw [if_pos few, iteration_short short]
  | header len body lower upper =>
      have long : ¬ Buffer.readableBytes (hostToNetwork32 len ++ body) < 4 := by
        simp [Buffer.readableBytes]
      have behind : (hostToNetwork32 len ++ body).drop 4 = body := rfl
      rw [if_neg long, behind, peekInt32_hostToNetwork32_append, toInt32_of_bounds lower upper,
        iteration_header lower upper]

theorem inBounds (buf : Buffer) (len : Int32) : InBounds buf len := by
  refine ⟨_, checkedIteration_eq buf len.toInt, ?_⟩
  intro message rest goesOn
  by_cases short : buf.readableBytes < 4
  · rw [if_pos short] at goesOn
    contradiction
  · rw [if_neg short] at goesOn
    split at goesOn
    next => contradiction
    next =>
      split at goesOn
      next =>
        rw [← (Iteration.frame.inj goesOn).2]
        simp only [Buffer.readableBytes, List.length_drop] at short ⊢
        omega
      next => contradiction

section Loop

variable {buf rest : Buffer}

theorem decodeLoop_step {start : Buffer} {len : Int32} :
    (decodeLoop start).step buf len = some rest ↔
      ∃ message, checkedIteration buf len.toInt = .ok (.frame message rest) := by
  unfold decodeLoop
  dsimp only
  split
  next message next goesOn => simp [goesOn]
  next stops =>
    constructor
    · intro impossible
      contradiction
    · rintro ⟨message, goesOn⟩
      exact absurd goesOn (stops message rest)

theorem decodeLoop_shortens {start : Buffer} {len : Int32}
    (stepped : (decodeLoop start).step buf len = some rest) :
    rest.readableBytes < buf.readableBytes := by
  obtain ⟨message, goesOn⟩ := decodeLoop_step.mp stepped
  obtain ⟨outcome, passed, shortens⟩ := inBounds buf len
  have removed := shortens message rest (Except.ok.inj (passed.symm.trans goesOn))
  omega

theorem decodeLoop_header (start buf : Buffer) :
    (decodeLoop start).step buf buf.header =
      match iteration buf with
      | .frame _ rest => some rest
      | _ => none := by
  unfold decodeLoop
  dsimp only
  rw [buf.toInt_header, checkedIteration_peekInt32]
  cases iteration buf <;> rfl

/-- The passes of one call of `onMessage` are a run of the loop, up to the pass that
leaves it. -/
theorem onMessage_run {Conn Timestamp : Type} (conn : Conn) (receiveTime : Timestamp)
    (start buf : Buffer) :
    ∃ lens, (decodeLoop start).runFrom buf lens = some (onMessage conn buf receiveTime).buffer ∧
      (decodeLoop start).MeetsFrom (fun state len => len = state.header) buf lens ∧
      lens.length = (onMessage conn buf receiveTime).messages.length ∧
      ∀ message rest,
        iteration (onMessage conn buf receiveTime).buffer ≠ .frame message rest := by
  induction size : buf.length using Nat.strong_induction_on generalizing buf with
  | _ size inductionHypothesis =>
      cases pass : iteration buf with
      | shortHeader =>
          rw [onMessage_short conn receiveTime (.inl pass)]
          exact ⟨[], rfl, trivial, rfl, by simp [pass]⟩
      | invalidLength len =>
          rw [onMessage_invalidLength conn receiveTime pass]
          exact ⟨[], rfl, trivial, rfl, by simp [pass]⟩
      | frame message rest =>
          have shorter := iteration_shortens pass
          rw [size] at shorter
          obtain ⟨lens, reached, met, count, stops⟩ := inductionHypothesis _ shorter rest rfl
          have stepped : (decodeLoop start).step buf buf.header = some rest := by
            rw [decodeLoop_header, pass]
          rw [onMessage_frame conn receiveTime pass]
          refine ⟨buf.header :: lens, ?_, ?_, congrArg Nat.succ count, stops⟩
          · exact (decodeLoop start).runFrom_cons_eq_some.mpr ⟨rest, stepped, reached⟩
          · refine ⟨rfl, ?_⟩
            rw [stepped]
            exact met
      | shortBody =>
          rw [onMessage_short conn receiveTime (.inr pass)]
          exact ⟨[], rfl, trivial, rfl, by simp [pass]⟩

/-- Whatever lengths the loop meets, every pass stays in bounds and the loop ends; the
passes of `onMessage` are those where each length is what the buffer holds. -/
theorem decodeLoop_inBounds {Conn Timestamp : Type} (conn : Conn) (receiveTime : Timestamp)
    (buf : Buffer) :
    (∀ lens rest, (decodeLoop buf).run lens = some rest → ∀ len, InBounds rest len) ∧
      (∀ lens : Nat → Int32, ∃ n rest,
        (decodeLoop buf).run ((List.range n).map lens) = some rest ∧
          (decodeLoop buf).step rest (lens n) = none) ∧
      ∃ lens, (decodeLoop buf).run lens = some (onMessage conn buf receiveTime).buffer ∧
        (decodeLoop buf).MeetsFrom (fun state len => len = state.header) buf lens ∧
        lens.length = (onMessage conn buf receiveTime).messages.length ∧
        ∀ message rest,
          iteration (onMessage conn buf receiveTime).buffer ≠ .frame message rest := by
  refine ⟨fun _ rest _ len => inBounds rest len, ?_, onMessage_run conn receiveTime buf buf⟩
  intro lens
  apply (decodeLoop buf).exists_stop Buffer.readableBytes
  exact fun _ _ _ stepped => decodeLoop_shortens stepped

end Loop

end LengthHeaderCodec

end LuaEngine.Codec
