import Mathlib

/-!
# Bytes, network integers and the muduo buffer

The part of `muduo::net::Buffer` and of `sockets::hostToNetwork32` the codec
relies on: a byte queue that is appended to at the back and read at the front,
and the big-endian form of a signed 32-bit integer.  `int32_t` and `size_t`
values are integers with the wrap-around of their width written out.
-/

namespace LuaEngine.Codec

abbrev Bytes := List UInt8

/-- `static_cast<int32_t>`: the signed 32-bit value congruent to `value`. -/
def toInt32 (value : Int) : Int :=
  (value + 2 ^ 31) % 2 ^ 32 - 2 ^ 31

def toSizeT (value : Int) : Nat :=
  (value % 2 ^ 64).toNat

theorem toInt32_of_bounds {value : Int} (lower : -2 ^ 31 ≤ value)
    (upper : value < 2 ^ 31) : toInt32 value = value := by
  unfold toInt32
  omega

@[simp]
theorem toInt32_lower (value : Int) : -2 ^ 31 ≤ toInt32 value := by
  unfold toInt32
  omega

@[simp]
theorem toInt32_upper (value : Int) : toInt32 value < 2 ^ 31 := by
  unfold toInt32
  omega

/-- The bytes of `hostToNetwork32(value)` as they lie in memory: the 32-bit
pattern of `value`, most significant byte first. -/
def hostToNetwork32 (value : Int) : Bytes :=
  let pattern := (value % 2 ^ 32).toNat
  [.ofNat (pattern / 2 ^ 24), .ofNat (pattern / 2 ^ 16),
    .ofNat (pattern / 2 ^ 8), .ofNat pattern]

def bigEndian : Bytes → Nat :=
  List.foldl (fun value byte => value * 2 ^ 8 + byte.toNat) 0

/-- `muduo::net::Buffer`, seen as the bytes between its read and write index. -/
abbrev Buffer := Bytes

namespace Buffer

def readableBytes (buf : Buffer) : Nat := buf.length

def append (buf : Buffer) (data : Bytes) : Buffer := buf ++ data

def prepend (buf : Buffer) (data : Bytes) : Buffer := data ++ buf

def peek (buf : Buffer) (len : Nat) : Bytes := buf.take len

def retrieve (buf : Buffer) (len : Nat) : Buffer := buf.drop len

/-- The first four bytes as a signed integer in host order. -/
def peekInt32 (buf : Buffer) : Int := toInt32 (bigEndian (buf.take 4))

end Buffer

@[simp]
theorem length_hostToNetwork32 (value : Int) : (hostToNetwork32 value).length = 4 :=
  rfl

theorem toInt32_bigEndian_hostToNetwork32 (value : Int) :
    toInt32 (bigEndian (hostToNetwork32 value)) = toInt32 value := by
  simp only [hostToNetwork32, bigEndian, toInt32, List.foldl_cons, List.foldl_nil,
    UInt8.toNat_ofNat']
  omega

@[simp]
theorem peekInt32_hostToNetwork32_append (value : Int) (rest : Bytes) :
    Buffer.peekInt32 (hostToNetwork32 value ++ rest) = toInt32 value := by
  have header : (hostToNetwork32 value ++ rest).take 4 = hostToNetwork32 value := rfl
  rw [Buffer.peekInt32, header, toInt32_bigEndian_hostToNetwork32]

theorem hostToNetwork32_peekInt32 (a b c d : UInt8) (rest : Bytes) :
    hostToNetwork32 (Buffer.peekInt32 (a :: b :: c :: d :: rest)) = [a, b, c, d] := by
  have boundA := a.toNat_lt
  have boundB := b.toNat_lt
  have boundC := c.toNat_lt
  have boundD := d.toNat_lt
  simp only [hostToNetwork32, Buffer.peekInt32, bigEndian, toInt32, List.take_succ_cons,
    List.take_zero, List.foldl_cons, List.foldl_nil, List.cons.injEq, and_true,
    ← UInt8.toNat_inj, UInt8.toNat_ofNat']
  omega

theorem Buffer.exists_header {buf : Buffer} (long : 4 ≤ buf.readableBytes) :
    ∃ len body, buf = hostToNetwork32 len ++ body ∧ buf.peekInt32 = len ∧
      -2 ^ 31 ≤ len ∧ len < 2 ^ 31 := by
  match buf, long with
  | a :: b :: c :: d :: body, _ =>
      refine ⟨_, body, ?_, rfl, toInt32_lower _, toInt32_upper _⟩
      rw [hostToNetwork32_peekInt32]
      rfl

end LuaEngine.Codec
