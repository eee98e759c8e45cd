import LuaEngine.Lua.Api
import LuaEngine.Codec.Chunking
import LuaEngine.System.Machine

/-!
# The callbacks of `LuaStart`

`onMessage` and `onNewConnection` push a registered function and C strings and
call it protected.  Nothing else is known of the script, so it may register
other functions or define them anew between two callbacks.
-/

namespace LuaEngine.Callbacks

open LuaEngine.Codec LuaEngine.Lua LuaEngine.System

def LUA_REFNIL : Int := -1

/-- The Lua state's surroundings when a callback runs, and the two references
`LuaStart.cpp` keeps. -/
structure Registered where
  environment : Environment
  lua_messgecallback : Int
  lua_newconnectioncallback : Int

/-- One call of `onMessage` or `onNewConnection`; the arguments are the memory
the pointers point to. -/
inductive Callback where
  | onMessage (tm msg : Bytes)
  | onNewConnection (ip : Bytes)
  deriving DecidableEq

/-- A script whose functions return nothing. -/
def silent : Script := ⟨fun _ _ => .ok [], fun _ => .nil⟩

namespace Callback

def api (registered : Registered) : Callback → List ApiCall
  | .onMessage tm msg =>
      [.rawgeti registered.lua_messgecallback, .pushstring tm, .pushstring msg, .pcall 2 0 1]
  | .onNewConnection ip =>
      [.rawgeti registered.lua_newconnectioncallback, .pushstring ip, .pcall 1 0 1]

def func (registered : Registered) : Callback → LuaValue
  | .onMessage _ _ => registered.environment.registry registered.lua_messgecallback
  | .onNewConnection _ => registered.environment.registry registered.lua_newconnectioncallback

/-- The Lua strings of its C strings. -/
def arguments : Callback → List LuaValue
  | .onMessage tm msg => [.string (tm.take (strlen tm)), .string (msg.take (strlen msg))]
  | .onNewConnection ip => [.string (ip.take (strlen ip))]

def pushes (registered : Registered) (callback : Callback) : List LuaValue :=
  callback.func registered :: callback.arguments

theorem exec_api_push (registered : Registered) (script : Script) (callback : Callback)
    (L : LuaState) {done : Nat} (remaining : done < (callback.pushes registered).length) :
    ∃ api, (callback.api registered)[done]? = some api ∧
      L.exec { registered.environment with script := script } api =
        some (L.push ((callback.pushes registered)[done]), none) := by
  cases callback with
  | onMessage tm msg =>
      match done, remaining with
      | 0, _ => exact ⟨_, rfl, rfl⟩
      | 1, _ => exact ⟨_, rfl, rfl⟩
      | 2, _ => exact ⟨_, rfl, rfl⟩
  | onNewConnection ip =>
      match done, remaining with
      | 0, _ => exact ⟨_, rfl, rfl⟩
      | 1, _ => exact ⟨_, rfl, rfl⟩

theorem api_pcall (registered : Registered) (callback : Callback) :
    (callback.api registered)[(callback.pushes registered).length]? =
      some (.pcall callback.arguments.length 0 1) := by
  cases callback <;> rfl

theorem length_api (registered : Registered) (callback : Callback) :
    (callback.api registered).length = (callback.pushes registered).length + 1 := by
  cases callback <;> rfl

def pushed (registered : Registered) (callback : Callback) (L : LuaState) : LuaState :=
  { L with stack := L.stack ++ callback.pushes registered }

/-- The protected call of a callback that nothing interrupts. -/
def call (registered : Registered) (callback : Callback) (L : LuaState) : ProtectedCall :=
  (callback.pushed registered L).protectedCall registered.environment 0 1
    (callback.func registered) callback.arguments

theorem lua_pcall_pushed (registered : Registered) (callback : Callback) (L : LuaState) :
    (callback.pushed registered L).lua_pcall registered.environment
        callback.arguments.length 0 1 =
      some ({ L with stack := L.stack ++ (callback.call registered L).left },
        callback.call registered L) :=
  LuaState.lua_pcall_eq (callback.pushed registered L) registered.environment 0 1 rfl

/-- A callback that nothing interrupts calls its own function with its own
strings and leaves what the call leaves. -/
theorem execAll_api (registered : Registered) (callback : Callback) (L : LuaState) :
    L.execAll registered.environment (callback.api registered) =
      some ({ L with stack := L.stack ++ (callback.call registered L).left },
        [callback.call registered L]) := by
  have called := callback.lua_pcall_pushed registered L
  cases callback with
  | onMessage tm msg =>
      have pushed : ((L.lua_rawgeti registered.environment
          registered.lua_messgecallback).lua_pushstring tm).lua_pushstring msg =
            (onMessage tm msg).pushed registered L := by
        simp [LuaState.lua_rawgeti, LuaState.lua_pushstring, LuaState.lua_pushlstring,
          LuaState.push, Callback.pushed, pushes, func, arguments]
      simp only [api, LuaState.execAll, LuaState.exec, pushed]
      rw [show (onMessage tm msg).arguments.length = 2 from rfl] at called
      rw [called]
      rfl
  | onNewConnection ip =>
      have pushed : (L.lua_rawgeti registered.environment
          registered.lua_newconnectioncallback).lua_pushstring ip =
            (onNewConnection ip).pushed registered L := by
        simp [LuaState.lua_rawgeti, LuaState.lua_pushstring, LuaState.lua_pushlstring,
          LuaState.push, Callback.pushed, pushes, func, arguments]
      simp only [api, LuaState.execAll, LuaState.exec, pushed]
      rw [show (onNewConnection ip).arguments.length = 1 from rfl] at called
      rw [called]
      rfl

end Callback

end LuaEngine.Callbacks
