import LuaEngine.Codec.Wire

/-!
# Calls of the Lua 5.1.5 core

What `luaD_pcall` does with a function that returns or raises: `luaD_call`
counts nested C calls and finds the function to run, `luaG_errormsg` passes a
raised value to the error function of the protected call.
-/

namespace LuaEngine.Lua

open LuaEngine.Codec

/-- A double, with one zero. -/
inductive LuaNumber where
  | finite (q : ℚ)
  | infinite (negative : Bool)
  | nan
  deriving DecidableEq

/-- A Lua value.  Objects are known by their identity. -/
inductive LuaValue where
  | nil
  | boolean (b : Bool)
  | lightuserdata (p : Nat)
  | number (n : LuaNumber)
  | string (s : Bytes)
  | table (h : Nat)
  | function (cl : Nat)
  | userdata (u : Nat)
  | thread (th : Nat)
  deriving DecidableEq

namespace LuaValue

def ttisfunction : LuaValue → Bool
  | function _ => true
  | _ => false

def typename : LuaValue → String
  | nil => "nil"
  | boolean _ => "boolean"
  | lightuserdata _ => "userdata"
  | number _ => "number"
  | string _ => "string"
  | table _ => "table"
  | function _ => "function"
  | userdata _ => "userdata"
  | thread _ => "thread"

def literal (text : String) : LuaValue := string text.toUTF8.toList

end LuaValue

/-- A value where an instruction finds it, with what `getobjname` says of the place if it is
a register that holds a variable. -/
structure Operand where
  value : LuaValue
  objname : Option String := none
  deriving DecidableEq

namespace Operand

instance : Coe LuaValue Operand := ⟨fun value => ⟨value, none⟩⟩

abbrev literal (text : String) : Operand := ⟨.literal text, none⟩

abbrev string (s : Bytes) : Operand := ⟨.string s, none⟩

abbrev table (h : Nat) : Operand := ⟨.table h, none⟩

abbrev localvar (name : String) (value : LuaValue) : Operand :=
  ⟨value, some ("local '" ++ name ++ "'")⟩

end Operand

/-- Without the line that `addinfo` puts before it. -/
def luaG_typeerror (o : Operand) (op : String) : LuaValue :=
  match o.objname with
  | some name =>
      .literal ("attempt to " ++ op ++ " " ++ name ++ " (a " ++ o.value.typename ++ " value)")
  | none => .literal ("attempt to " ++ op ++ " a " ++ o.value.typename ++ " value")

inductive Result where
  | returned (results : List LuaValue)
  | raised (error : LuaValue)
  /-- `luaD_throw(L, LUA_ERRERR)`, which runs no error function. -/
  | overflow
  deriving DecidableEq

/-- The functions a script has defined: what each closure does with its
arguments, and the `__call` tag method of a value. -/
structure Script where
  execute : Nat → List LuaValue → Except LuaValue (List LuaValue)
  callTM : LuaValue → LuaValue

def LUAI_MAXCCALLS : Nat := 200

namespace Script

variable (script : Script)

def executeClosure (cl : Nat) (arguments : List LuaValue) : Result :=
  match script.execute cl arguments with
  | .ok results => .returned results
  | .error error => .raised error

/-- A value that is not a function is called through its `__call` tag method, as
the first argument. -/
def luaD_precall (func : LuaValue) (arguments : List LuaValue) : Result :=
  match func with
  | .function cl => script.executeClosure cl arguments
  | _ =>
      match script.callTM func with
      | .function cl => script.executeClosure cl (func :: arguments)
      | _ => .raised (luaG_typeerror func "call")

def luaD_call (nCcalls : Nat) (func : LuaValue) (arguments : List LuaValue) : Result :=
  if nCcalls + 1 ≥ LUAI_MAXCCALLS then
    if nCcalls + 1 = LUAI_MAXCCALLS then
      .raised (.literal "C stack overflow")
    else if nCcalls + 1 ≥ LUAI_MAXCCALLS + LUAI_MAXCCALLS / 8 then
      .overflow
    else
      script.luaD_precall func arguments
  else
    script.luaD_precall func arguments

theorem luaD_call_raised {nCcalls : Nat} {func error : LuaValue}
    {arguments : List LuaValue}
    (raised : script.luaD_call nCcalls func arguments = .raised error) :
    nCcalls + 1 < LUAI_MAXCCALLS + LUAI_MAXCCALLS / 8 := by
  unfold luaD_call at raised
  split at raised
  next =>
    split at raised
    next last =>
      rw [last]
      decide
    next =>
      split at raised
      next => contradiction
      next below => exact Nat.not_le.mp below
  next below =>
    apply lt_of_lt_of_le (Nat.not_le.mp below)
    exact Nat.le_add_right _ _

end Script

inductive Status where
  | ok
  | LUA_ERRRUN
  | LUA_ERRERR
  deriving DecidableEq

def errorInErrorHandling : LuaValue := .literal "error in error handling"

/-- The status and the error object of a raised value.  An error function that
raises is called again with what it raised, one C call deeper. -/
def luaG_errormsg (script : Script) (errfunc : Option LuaValue) (nCcalls : Nat)
    (error : LuaValue) : Status × LuaValue :=
  match errfunc with
  | none => (.LUA_ERRRUN, error)
  | some handler =>
      if handler.ttisfunction then
        match raised : script.luaD_call nCcalls handler [error] with
        | .returned results => (.LUA_ERRRUN, results.headD .nil)
        | .raised next => luaG_errormsg script (some handler) (nCcalls + 1) next
        | .overflow => (.LUA_ERRERR, errorInErrorHandling)
      else
        (.LUA_ERRERR, errorInErrorHandling)
termination_by LUAI_MAXCCALLS + LUAI_MAXCCALLS / 8 - nCcalls
decreasing_by
  have below := script.luaD_call_raised raised
  omega

/-- Without a function to pass it to, a raised value is lost. -/
theorem luaG_errormsg_not_function (script : Script) {handler : LuaValue}
    (notFunction : handler.ttisfunction = false) (nCcalls : Nat) (error : LuaValue) :
    luaG_errormsg script (some handler) nCcalls error =
      (.LUA_ERRERR, errorInErrorHandling) := by
  unfold luaG_errormsg
  simp [notFunction]

end LuaEngine.Lua
