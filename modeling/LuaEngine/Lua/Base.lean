import LuaEngine.Lua.Table

/-!
# Metatables in the base library

`getmetatable` gives the `__metatable` field of a metatable that has one, and
`setmetatable` takes nothing but nil or a table.  A value is indexed through the
`__index` field of its metatable where it has no entry of its own.
-/

namespace LuaEngine.Lua

namespace Heap

/-- A field of the metatable; nil if there is none. -/
def luaL_getmetafield (heap : Heap) (h : Nat) (event : String) : LuaValue :=
  match (heap.table h).metatable with
  | none => .nil
  | some m => (heap.table m).rawget (.literal event)

theorem luaL_getmetafield_none {heap : Heap} {h : Nat} (plain : (heap.table h).metatable = none)
    (event : String) : heap.luaL_getmetafield h event = .nil := by
  rw [luaL_getmetafield, plain]

def luaB_getmetatable (heap : Heap) (h : Nat) : LuaValue :=
  match (heap.table h).metatable with
  | none => .nil
  | some m =>
      if heap.luaL_getmetafield h "__metatable" = .nil then
        .table m
      else
        heap.luaL_getmetafield h "__metatable"

/-- `lua_setmetatable` with nil or a table. -/
def lua_setmetatable (heap : Heap) (h : Nat) (metatable : LuaValue) : Heap :=
  heap.update h fun table => table.setMetatable metatable.handle

def luaB_setmetatable (heap : Heap) (h : Nat) (metatable : LuaValue) :
    Except LuaValue Heap :=
  if metatable = .nil ∨ metatable.handle.isSome then
    if heap.luaL_getmetafield h "__metatable" = .nil then
      .ok (heap.lua_setmetatable h metatable)
    else
      .error (.literal "cannot change a protected metatable")
  else
    .error (.literal "bad argument #2 to 'setmetatable' (nil or table expected)")

/-- `t[key] = value` for a table without a metatable. -/
def luaV_settable (heap : Heap) (h : Nat) (key value : LuaValue) : Except LuaValue Heap :=
  if valid : key.isKey = true then
    .ok (heap.update h fun table => table.rawset key value valid)
  else if key = .nil then
    .error (.literal "table index is nil")
  else
    .error (.literal "table index is NaN")

def MAXTAGLOOP : Nat := 100

/-- What indexing does outside the tables of the heap: the `__index` field of a value
that is no table, and the call of such a field. -/
structure IndexTM where
  luaT_gettmbyobj : LuaValue → LuaValue
  callTMres : LuaValue → LuaValue → LuaValue → Except LuaValue LuaValue

/-- The loop of `luaV_gettable`, with the passes that are left to it. -/
def gettable (tms : IndexTM) (heap : Heap) (key : LuaValue) : Nat → Operand →
    Except LuaValue LuaValue
  | 0, _ => .error (.literal "loop in gettable")
  | loop + 1, t =>
      let follow (tm : LuaValue) : Except LuaValue LuaValue :=
        if tm.ttisfunction then tms.callTMres tm t.value key else gettable tms heap key loop tm
      match t.value with
      | .table h =>
          let res := (heap.table h).rawget key
          let tm := heap.luaL_getmetafield h "__index"
          if res ≠ .nil ∨ tm = .nil then .ok res else follow tm
      | value =>
          let tm := tms.luaT_gettmbyobj value
          if tm = .nil then
            .error (luaG_typeerror t "index")
          else
            follow tm

/-- `t[key]` -/
def luaV_gettable (tms : IndexTM) (heap : Heap) (t : Operand) (key : LuaValue) :
    Except LuaValue LuaValue :=
  gettable tms heap key MAXTAGLOOP t

/-- What assigning does outside the tables of the heap: the `__newindex` field of a value
that is no table, and the call of such a field. -/
structure NewIndexTM where
  luaT_gettmbyobj : LuaValue → LuaValue
  callTM : Heap → LuaValue → LuaValue → LuaValue → LuaValue → Except LuaValue Heap

/-- The loop of `luaV_settable` for any value, with the passes that are left to it. -/
def settable (tms : NewIndexTM) (heap : Heap) (key value : LuaValue) : Nat → LuaValue →
    Except LuaValue Heap
  | 0, _ => .error (.literal "loop in settable")
  | loop + 1, t =>
      let follow (tm : LuaValue) : Except LuaValue Heap :=
        if tm.ttisfunction then tms.callTM heap tm t key value
        else settable tms heap key value loop tm
      match t with
      | .table h => do
          -- `luaH_set` refuses a key before there is talk of a tag method
          let assigned ← heap.luaV_settable h key value
          let tm := heap.luaL_getmetafield h "__newindex"
          if (heap.table h).rawget key ≠ .nil ∨ tm = .nil then .ok assigned else follow tm
      | t =>
          let tm := tms.luaT_gettmbyobj t
          if tm = .nil then
            .error (luaG_typeerror t "index")
          else
            follow tm

theorem luaV_gettable_none {heap : Heap} {h : Nat} (plain : (heap.table h).metatable = none)
    (tms : IndexTM) (key : LuaValue) :
    heap.luaV_gettable tms (.table h) key = .ok ((heap.table h).rawget key) := by
  rw [luaV_gettable, MAXTAGLOOP, gettable]
  exact if_pos (.inr (luaL_getmetafield_none plain _))

/-- Which variable holds a table makes no difference. -/
theorem luaV_gettable_localvar (heap : Heap) (tms : IndexTM) (name : String) (h : Nat)
    (key : LuaValue) :
    heap.luaV_gettable tms (.localvar name (.table h)) key =
      heap.luaV_gettable tms (.table h) key := rfl

/-- Without a `__newindex` field assigning is raw. -/
theorem settable_raw {heap : Heap} {h : Nat} (unset : heap.luaL_getmetafield h "__newindex" = .nil)
    (tms : NewIndexTM) (key value : LuaValue) (loop : Nat) :
    heap.settable tms key value (loop + 1) (.table h) = heap.luaV_settable h key value := by
  rw [settable]
  cases assigned : heap.luaV_settable h key value with
  | error error => rfl
  | ok next => exact if_pos (.inr unset)

/-- `setmetatable` accepts what `getmetatable` gives. -/
def Accepted (heap : Heap) (h : Nat) : Prop :=
  heap.luaB_getmetatable h = .nil ∨ (heap.luaB_getmetatable h).handle.isSome

instance decidableAccepted (heap : Heap) (h : Nat) : Decidable (heap.Accepted h) :=
  inferInstanceAs (Decidable (_ ∨ _))

theorem accepted_iff (heap : Heap) (h : Nat) :
    heap.Accepted h ↔ ∀ m, (heap.table h).metatable = some m →
      (heap.table m).rawget (.literal "__metatable") = .nil ∨
        ∃ t, (heap.table m).rawget (.literal "__metatable") = .table t := by
  unfold Accepted luaB_getmetatable luaL_getmetafield
  cases metatable : (heap.table h).metatable with
  | none => simp
  | some m =>
      simp only [Option.some.injEq, forall_eq']
      split
      next unprotected => simp [unprotected, LuaValue.handle]
      next => simp [Option.isSome_iff_exists, LuaValue.handle_eq_some]

theorem luaB_setmetatable_none {heap : Heap} {h : Nat}
    (plain : (heap.table h).metatable = none) (metatable : LuaValue) :
    heap.luaB_setmetatable h metatable =
      if metatable = .nil ∨ metatable.handle.isSome then
        .ok (heap.lua_setmetatable h metatable)
      else
        .error (.literal "bad argument #2 to 'setmetatable' (nil or table expected)") := by
  rw [luaB_setmetatable, if_pos (luaL_getmetafield_none plain _)]

end Heap

end LuaEngine.Lua
