import LuaEngine.Lua.Call

/-!
# The Lua API calls of a C function

A C function sees the slots from `L->base` up.  `lua_rawgeti` and
`lua_pushstring` push one value; `lua_pcall` takes the function and its
arguments off the stack and leaves the results, or one error object.
-/

namespace LuaEngine.Lua

open LuaEngine.Codec

def strlen (s : Bytes) : Nat := (s.takeWhile (· ≠ 0)).length

def c_str (s : Bytes) : Bytes := s ++ [0]

/-- The frame of the running C function and the C calls it is nested in. -/
structure LuaState where
  stack : List LuaValue
  nCcalls : Nat
  deriving DecidableEq

structure ProtectedCall where
  func : LuaValue
  arguments : List LuaValue
  errfunc : Option LuaValue
  result : Result
  status : Status
  /-- The values it leaves in the place of the function and its arguments. -/
  left : List LuaValue
  deriving DecidableEq

inductive ApiCall where
  /-- `lua_rawgeti(L, LUA_REGISTRYINDEX, n)` -/
  | rawgeti (n : Int)
  /-- `lua_pushstring(L, s)` -/
  | pushstring (s : Bytes)
  /-- `lua_pcall(L, nargs, nresults, errfunc)` -/
  | pcall (nargs nresults errfunc : Nat)
  deriving DecidableEq

/-- What the API calls read outside the stack: the integer slots of the
registry and the functions of the script. -/
structure Environment where
  registry : Int → LuaValue
  script : Script

namespace LuaState

def push (L : LuaState) (value : LuaValue) : LuaState :=
  { L with stack := L.stack ++ [value] }

@[simp]
theorem push_stack (L : LuaState) (value : LuaValue) :
    (L.push value).stack = L.stack ++ [value] := rfl

/-- A positive acceptable index; a slot above the top reads as nil. -/
def index2adr (L : LuaState) (idx : Nat) : LuaValue := L.stack.getD (idx - 1) .nil

def lua_pushlstring (L : LuaState) (s : Bytes) (len : Nat) : LuaState :=
  L.push (.string (s.take len))

def lua_pushstring (L : LuaState) (s : Bytes) : LuaState := L.lua_pushlstring s (strlen s)

def lua_rawgeti (L : LuaState) (env : Environment) (n : Int) : LuaState :=
  L.push (env.registry n)

/-- `luaD_poscall` moves the wanted number of results to the function's slot. -/
def poscall (nresults : Nat) (results : List LuaValue) : List LuaValue :=
  results.take nresults ++ List.replicate (nresults - results.length) .nil

/-- The status of a protected call and the values it leaves in the place of the
function and its arguments. -/
def luaD_pcall (script : Script) (nCcalls nresults : Nat) (errfunc : Option LuaValue)
    (func : LuaValue) (arguments : List LuaValue) : Status × List LuaValue :=
  match script.luaD_call nCcalls func arguments with
  | .returned results => (.ok, poscall nresults results)
  | .raised error =>
      let (status, value) := luaG_errormsg script errfunc (nCcalls + 1) error
      (status, [value])
  | .overflow => (.LUA_ERRERR, [errorInErrorHandling])

def protectedCall (L : LuaState) (env : Environment) (nresults errfunc : Nat)
    (func : LuaValue) (arguments : List LuaValue) : ProtectedCall :=
  let handler := if errfunc = 0 then none else some (L.index2adr errfunc)
  let (status, left) := luaD_pcall env.script L.nCcalls nresults handler func arguments
  ⟨func, arguments, handler, env.script.luaD_call L.nCcalls func arguments, status, left⟩

/-- With fewer than `nargs + 1` values in the frame the call would take slots
below it. -/
def lua_pcall (L : LuaState) (env : Environment) (nargs nresults errfunc : Nat) :
    Option (LuaState × ProtectedCall) :=
  if L.stack.length < nargs + 1 then
    none
  else
    match L.stack.drop (L.stack.length - (nargs + 1)) with
    | [] => none
    | func :: arguments =>
        let call := L.protectedCall env nresults errfunc func arguments
        some ({ L with
          stack := L.stack.take (L.stack.length - (nargs + 1)) ++ call.left }, call)

/-- One API call, with the protected call it makes if it is `lua_pcall`. -/
def exec (L : LuaState) (env : Environment) : ApiCall → Option (LuaState × Option ProtectedCall)
  | .rawgeti n => some (L.lua_rawgeti env n, none)
  | .pushstring s => some (L.lua_pushstring s, none)
  | .pcall nargs nresults errfunc =>
      (L.lua_pcall env nargs nresults errfunc).map fun (next, call) => (next, some call)

/-- The calls of a C function in order, with the protected calls they make. -/
def execAll (L : LuaState) (env : Environment) :
    List ApiCall → Option (LuaState × List ProtectedCall)
  | [] => some (L, [])
  | api :: rest =>
      match L.exec env api with
      | none => none
      | some (next, call) =>
          (next.execAll env rest).map fun (final, calls) => (final, call.toList ++ calls)

theorem lua_pcall_eq (L : LuaState) (env : Environment) {below arguments : List LuaValue}
    {func : LuaValue} (nresults errfunc : Nat)
    (stack : L.stack = below ++ func :: arguments) :
    L.lua_pcall env arguments.length nresults errfunc =
      some ({ L with
          stack := below ++ (L.protectedCall env nresults errfunc func arguments).left },
        L.protectedCall env nresults errfunc func arguments) := by
  have enough : ¬ L.stack.length < arguments.length + 1 := by
    rw [stack, List.length_append, List.length_cons]
    omega
  have taken : L.stack.length - (arguments.length + 1) = below.length := by
    simp [stack]
  have dropped : L.stack.drop below.length = func :: arguments := by
    simp [stack]
  have kept : L.stack.take below.length = below := by
    simp [stack]
  rw [lua_pcall, if_neg enough, taken, dropped, kept]

theorem poscall_zero (results : List LuaValue) : poscall 0 results = [] := by
  simp [poscall]

/-- A call for no results leaves something exactly when it fails. -/
theorem left_eq_nil_iff (L : LuaState) (env : Environment) (errfunc : Nat)
    (func : LuaValue) (arguments : List LuaValue) :
    (L.protectedCall env 0 errfunc func arguments).left = [] ↔
      ∃ results, env.script.luaD_call L.nCcalls func arguments = .returned results := by
  unfold protectedCall luaD_pcall
  dsimp only
  split
  next results returned => simp [returned, poscall_zero]
  next error raised => simp [raised]
  next overflow => simp [overflow]

/-- With an error function that is not a function, what was raised is lost. -/
theorem luaD_pcall_not_function {script : Script} {nCcalls : Nat}
    {handler func error : LuaValue} {arguments : List LuaValue} (nresults : Nat)
    (notFunction : handler.ttisfunction = false)
    (raised : script.luaD_call nCcalls func arguments = .raised error) :
    luaD_pcall script nCcalls nresults (some handler) func arguments =
      (.LUA_ERRERR, [errorInErrorHandling]) := by
  have lost := luaG_errormsg_not_function script notFunction (nCcalls + 1) error
  rw [luaD_pcall, raised]
  simp only [lost]

end LuaState

end LuaEngine.Lua
