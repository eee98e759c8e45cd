import LuaEngine.Lua.Table

/-!
# Values as text

`tostring`, concatenation and `print`.  A script sets the metatables of tables
and userdata only, so other values have no metamethod; a metamethod returns or
raises and changes nothing else.
-/

namespace LuaEngine.Lua

open LuaEngine.Codec

/-- What the C library makes of numbers and pointers, and what the metamethods of
a value do, if it has them. -/
structure Rendering where
  lua_number2str : LuaNumber → Bytes
  lua_topointer : LuaValue → Bytes
  tostringTM : LuaValue → Option (Except LuaValue LuaValue)
  concatTM : LuaValue → LuaValue → Option (Except LuaValue LuaValue)

def ascii (text : String) : Bytes := text.toUTF8.toList

def spaces (n : Nat) : Bytes := List.replicate n 32

/-- A string or a number. -/
def LuaValue.IsText (value : LuaValue) : Prop :=
  (∃ s, value = .string s) ∨ ∃ n, value = .number n

instance (value : LuaValue) : Decidable value.IsText :=
  match value with
  | .string s => .isTrue (.inl ⟨s, rfl⟩)
  | .number n => .isTrue (.inr ⟨n, rfl⟩)
  | .nil | .boolean _ | .lightuserdata _ | .table _ | .function _ | .userdata _ | .thread _ =>
      .isFalse (by simp [LuaValue.IsText])

/-- The metatable of strings has neither `__tostring` nor `__concat`. -/
def LuaValue.hasMetatable : LuaValue → Bool
  | .table _ => true
  | .userdata _ => true
  | _ => false

namespace Rendering

variable (rendering : Rendering)

/-- The text of a string or a number, which needs no metamethod. -/
def text : LuaValue → Option Bytes
  | .string s => some s
  | .number n => some (rendering.lua_number2str n)
  | _ => none

def defaultString : LuaValue → Bytes
  | .number n => rendering.lua_number2str n
  | .string s => s
  | .boolean true => ascii "true"
  | .boolean false => ascii "false"
  | .nil => ascii "nil"
  | value => ascii (value.typename ++ ": ") ++ rendering.lua_topointer value

def luaB_tostring (value : LuaValue) : Except LuaValue LuaValue :=
  match if value.hasMetatable then rendering.tostringTM value else none with
  | some result => result
  | none => .ok (.string (rendering.defaultString value))

def luaG_concaterror (p1 p2 : Operand) : LuaValue :=
  let p1 := if (rendering.text p1.value).isSome then p2 else p1
  luaG_typeerror p1 "concatenate"

/-- `p1 .. p2` -/
def concat (p1 p2 : Operand) : Except LuaValue LuaValue :=
  match rendering.text p1.value, rendering.text p2.value with
  | some s, some s' => .ok (.string (s ++ s'))
  | _, _ =>
      match if p1.value.hasMetatable || p2.value.hasMetatable then
        rendering.concatTM p1.value p2.value else none with
      | some result => result
      | none => .error (rendering.luaG_concaterror p1 p2)

/-- `luaV_concat` joins the operands from the right; what they are joined to takes the
place of the first of them. -/
def luaV_concat : List Operand → Except LuaValue LuaValue
  | [] => .ok (.string [])
  | [operand] => .ok operand.value
  | operand :: next :: rest => do
      let tail ← luaV_concat (next :: rest)
      rendering.concat operand { next with value := tail }

/-- The string `print` hands to `fputs`, which writes it up to its first zero byte. -/
def luaB_print (value : LuaValue) : Except LuaValue Bytes := do
  let result ← rendering.luaB_tostring value
  match rendering.text result with
  | some s => .ok s
  | none => .error (.literal "'tostring' must return a string to 'print'")

def str_len (value : LuaValue) : Except LuaValue Nat :=
  match rendering.text value with
  | some s => .ok s.length
  | none => .error
      (.literal ("bad argument #1 to 'len' (string expected, got " ++ value.typename ++ ")"))

theorem concat_text {p1 p2 : Operand} {s s' : Bytes}
    (isFirst : rendering.text p1.value = some s) (isSecond : rendering.text p2.value = some s') :
    rendering.concat p1 p2 = .ok (.string (s ++ s')) := by
  rw [concat, isFirst, isSecond]

/-- Without a metamethod nothing but strings and numbers is joined to a string. -/
theorem concat_error {p1 : Operand} (notText : rendering.text p1.value = none) (s : Bytes)
    (unset : rendering.concatTM p1.value (.string s) = none) :
    rendering.concat p1 (.string s) = .error (luaG_typeerror p1 "concatenate") := by
  rw [concat, notText, unset, ite_self]
  simp [luaG_concaterror, notText]

theorem exists_text {value : LuaValue} (isText : value.IsText) :
    ∃ s, rendering.text value = some s := by
  rcases isText with ⟨s, rfl⟩ | ⟨n, rfl⟩
  · exact ⟨s, rfl⟩
  · exact ⟨rendering.lua_number2str n, rfl⟩

theorem text_eq_none {value : LuaValue} (notText : ¬ value.IsText) :
    rendering.text value = none := by
  cases value with
  | string s => exact absurd (.inl ⟨s, rfl⟩) notText
  | number n => exact absurd (.inr ⟨n, rfl⟩) notText
  | _ => rfl

/-- `tostring` returns a string for the value. -/
def Named (value : LuaValue) : Prop := ∃ s, rendering.luaB_tostring value = .ok (.string s)

end Rendering

end LuaEngine.Lua
