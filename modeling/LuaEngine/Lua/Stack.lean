import LuaEngine.Lua.Base
import LuaEngine.System.Outcome

/-!
# The Lua API on tables, closures and userdata

What C code does to the stack it runs on and to the objects the values there refer
to.  An index that is not in use, or a value that is not of the type a call is made
for, is left undefined by the API; an error is raised by a long jump.
-/

namespace LuaEngine.Lua

open LuaEngine.Codec LuaEngine.System

/-- The bytes of a C string before its end. -/
@[ext]
structure CString where
  bytes : Bytes
  ended : 0 ∉ bytes
  deriving DecidableEq

def CString.empty : CString := ⟨[], List.not_mem_nil⟩

theorem CString.key_ne {s t : CString} (different : s ≠ t) :
    LuaValue.string s.bytes ≠ .string t.bytes := fun equality =>
  different (CString.ext (LuaValue.string.inj equality))

theorem CString.isKey (s : CString) : (LuaValue.string s.bytes).isKey = true := rfl

inductive Failure where
  | raised (error : LuaValue)
  | undefined
  deriving DecidableEq

structure Closure (CFunction : Type) where
  f : CFunction
  upvalue : List LuaValue

/-- The stack, from its top down, and the objects.  An object of each kind is known by
its place in the order they were made. -/
structure Thread (CFunction Payload : Type) where
  stack : List LuaValue
  heap : Heap
  globals : Nat
  closures : List (Closure CFunction)
  userdata : List Payload

def LUA_GLOBALSINDEX : Int := -10002

/-- What the metatables outside the heap do when a value is read and written by key. -/
structure Metamethods where
  index : Heap.IndexTM
  newindex : Heap.NewIndexTM

variable {CFunction Payload : Type}

abbrev Api (CFunction Payload α : Type) := Program (Thread CFunction Payload) Failure α

namespace Thread

def index2adr (L : Thread CFunction Payload) (idx : Int) : Option LuaValue :=
  if idx = LUA_GLOBALSINDEX then
    some (.table L.globals)
  else if idx < 0 then
    L.stack[(-idx).toNat - 1]?
  else if 0 < idx then
    some (L.stack.reverse.getD (idx.toNat - 1) .nil)
  else
    none

def push (value : LuaValue) (L : Thread CFunction Payload) : Thread CFunction Payload :=
  { L with stack := value :: L.stack }

/-- The global variable of a name, where nothing but the table of globals is asked. -/
def global (L : Thread CFunction Payload) (name : CString) : LuaValue :=
  (L.heap.table L.globals).rawget (.string name.bytes)

end Thread

namespace Api

open Thread

def raising {α : Type} : Except LuaValue α → Api CFunction Payload α
  | .ok value => pure value
  | .error error => Program.raise (.raised error)

def undefined {α : Type} : Api CFunction Payload α := Program.raise .undefined

def set (L : Thread CFunction Payload) : Api CFunction Payload Unit := Program.modify fun _ => L

def address (idx : Int) : Api CFunction Payload LuaValue := do
  match (← Program.get).index2adr idx with
  | some value => pure value
  | none => undefined

def lua_pushstring (s : CString) : Api CFunction Payload Unit :=
  Program.modify (push (.string s.bytes))

def lua_newtable : Api CFunction Payload Unit :=
  Program.modify fun L =>
    { L with stack := .table L.heap.size :: L.stack, heap := L.heap.alloc }

/-- The object that is constructed in the block. -/
def lua_newuserdata (payload : Payload) : Api CFunction Payload Unit :=
  Program.modify fun L =>
    { L with
      stack := .userdata L.userdata.length :: L.stack
      userdata := L.userdata ++ [payload] }

def lua_pushcclosure (f : CFunction) (n : Nat) : Api CFunction Payload Unit := do
  let L ← Program.get
  if n ≤ L.stack.length then
    set { L with
      stack := .function L.closures.length :: L.stack.drop n
      closures := L.closures ++ [⟨f, (L.stack.take n).reverse⟩] }
  else
    undefined

def lua_pushcfunction (f : CFunction) : Api CFunction Payload Unit := lua_pushcclosure f 0

def lua_istable (idx : Int) : Api CFunction Payload Bool := do
  match (← Program.get).index2adr idx with
  | some (.table _) => pure true
  | _ => pure false

def lua_pop (n : Nat) : Api CFunction Payload Unit := do
  let L ← Program.get
  if n ≤ L.stack.length then set { L with stack := L.stack.drop n } else undefined

def lua_gettable (tms : Metamethods) (idx : Int) : Api CFunction Payload Unit := do
  let t ← address idx
  let L ← Program.get
  match L.stack with
  | key :: rest => do
      let value ← raising (L.heap.luaV_gettable tms.index t key)
      set { L with stack := value :: rest }
  | [] => undefined

def lua_settable (tms : Metamethods) (idx : Int) : Api CFunction Payload Unit := do
  let t ← address idx
  let L ← Program.get
  match L.stack with
  | value :: key :: rest => do
      let heap ← raising (L.heap.settable tms.newindex key value Heap.MAXTAGLOOP t)
      set { L with stack := rest, heap := heap }
  | _ => undefined

def lua_rawset (idx : Int) : Api CFunction Payload Unit := do
  let t ← address idx
  let L ← Program.get
  match t, L.stack with
  | .table h, value :: key :: rest => do
      let heap ← raising (L.heap.luaV_settable h key value)
      set { L with stack := rest, heap := heap }
  | _, _ => undefined

/-- The metatable of a table, which is nil or a table. -/
def lua_setmetatable (idx : Int) : Api CFunction Payload Unit := do
  let t ← address idx
  let L ← Program.get
  match t, L.stack with
  | .table h, metatable :: rest =>
      if metatable = .nil ∨ metatable.handle.isSome then
        set { L with stack := rest, heap := L.heap.lua_setmetatable h metatable }
      else
        undefined
  | _, _ => undefined

end Api

/-! ## Rules

The state of a run is kept as a number of pushes on a thread, whose objects change
below them. -/

namespace Thread

variable (L : Thread CFunction Payload)

def newtable : Thread CFunction Payload := { L with heap := L.heap.alloc }

def construct (payload : Payload) : Thread CFunction Payload :=
  { L with userdata := L.userdata ++ [payload] }

def close (f : CFunction) (upvalue : List LuaValue) : Thread CFunction Payload :=
  { L with closures := L.closures ++ [⟨f, upvalue⟩] }

def rawset (h : Nat) (key : CString) (value : LuaValue) : Thread CFunction Payload :=
  { L with heap := L.heap.update h fun table => table.rawset (.string key.bytes) value key.isKey }

def setmetatable (h m : Nat) : Thread CFunction Payload :=
  { L with heap := L.heap.lua_setmetatable h (.table m) }

section Push

variable (value other : LuaValue) (key : CString) (h : Nat) (f : CFunction)
  (upvalue : List LuaValue) (payload : Payload)

@[simp] theorem push_stack : (L.push value).stack = value :: L.stack := rfl
@[simp] theorem push_heap : (L.push value).heap = L.heap := rfl
@[simp] theorem push_closures : (L.push value).closures = L.closures := rfl
@[simp] theorem push_userdata : (L.push value).userdata = L.userdata := rfl

@[simp] theorem newtable_globals : L.newtable.globals = L.globals := rfl
@[simp] theorem newtable_closures : L.newtable.closures = L.closures := rfl

@[simp] theorem construct_closures : (L.construct payload).closures = L.closures := rfl

@[simp] theorem close_heap : (L.close f upvalue).heap = L.heap := rfl
@[simp] theorem close_closures : (L.close f upvalue).closures = L.closures ++ [⟨f, upvalue⟩] := rfl

@[simp] theorem close_globals : (L.close f upvalue).globals = L.globals := rfl

@[simp] theorem rawset_globals : (L.rawset h key value).globals = L.globals := rfl
@[simp] theorem rawset_closures : (L.rawset h key value).closures = L.closures := rfl

@[simp] theorem push_newtable : (L.push value).newtable = L.newtable.push value := rfl

@[simp] theorem push_construct :
    (L.push value).construct payload = (L.construct payload).push value := rfl

@[simp] theorem push_close :
    (L.push value).close f upvalue = (L.close f upvalue).push value := rfl

@[simp] theorem push_rawset :
    (L.push value).rawset h key other = (L.rawset h key other).push value := rfl

end Push

/-! ### The tables below the stack -/

@[simp]
theorem newtable_table (h : Nat) : L.newtable.heap.table h = L.heap.table h := by
  by_cases old : h < L.heap.size
  · exact L.heap.table_alloc old
  · have beyond : L.heap.tables.length ≤ h := Nat.le_of_not_lt old
    rw [Heap.table, Heap.table, List.getD_eq_default _ _ beyond, newtable, Heap.alloc,
      List.getD_append_right _ _ _ _ beyond]
    cases h - L.heap.tables.length <;> rfl

theorem rawset_table_of_ne {h other : Nat} (different : other ≠ h) (key : CString)
    (value : LuaValue) : (L.rawset h key value).heap.table other = L.heap.table other :=
  L.heap.table_update_of_ne _ different

theorem rawset_table_self {h : Nat} (inside : h < L.heap.size) (key : CString)
    (value : LuaValue) :
    (L.rawset h key value).heap.table h =
      (L.heap.table h).rawset (.string key.bytes) value key.isKey :=
  L.heap.table_update_self _ inside

theorem setmetatable_table_of_ne {h other : Nat} (different : other ≠ h) (m : Nat) :
    (L.setmetatable h m).heap.table other = L.heap.table other :=
  L.heap.table_update_of_ne _ different

theorem setmetatable_metatable_self {h : Nat} (inside : h < L.heap.size) (m : Nat) :
    ((L.setmetatable h m).heap.table h).metatable = some m :=
  congrArg Table.metatable (L.heap.table_update_self _ inside)

theorem rawset_global_of_ne {h : Nat} (different : L.globals ≠ h) (key : CString)
    (value : LuaValue) (name : CString) : (L.rawset h key value).global name = L.global name :=
  congrArg (fun table : Table => table.rawget (.string name.bytes))
    (L.rawset_table_of_ne different key value)

theorem rawset_global_self (inside : L.globals < L.heap.size) (name : CString)
    (value : LuaValue) : (L.rawset L.globals name value).global name = value := by
  rw [global, rawset_globals, rawset_table_self L inside]
  exact Table.rawget_rawset_self _ value name.isKey

theorem rawset_global_other (inside : L.globals < L.heap.size) {name other : CString}
    (different : other ≠ name) (value : LuaValue) :
    (L.rawset L.globals name value).global other = L.global other := by
  rw [global, rawset_globals, rawset_table_self L inside]
  exact Table.rawget_rawset_of_ne _ value name.isKey (CString.key_ne different)

@[simp]
theorem rawset_metatable (h : Nat) (key : CString) (value : LuaValue) (other : Nat) :
    ((L.rawset h key value).heap.table other).metatable = (L.heap.table other).metatable := by
  by_cases same : other = h
  · rw [same]
    by_cases inside : h < L.heap.size
    · rw [rawset_table_self L inside]
      rfl
    · have unchanged : (L.rawset h key value).heap = L.heap :=
        congrArg Heap.mk (List.modify_eq_self (Nat.le_of_not_lt inside))
      rw [unchanged]
  · rw [rawset_table_of_ne L same]

end Thread

namespace Api

variable {L : Thread CFunction Payload} {tms : Metamethods}
  {post : Postcondition (Thread CFunction Payload) Failure Unit}

@[simp]
theorem lua_pushstring_meets {s : CString} :
    ((lua_pushstring s).run L).Meets post ↔
      post.returned () (L.push (.string s.bytes)) := Iff.rfl

@[simp]
theorem lua_newtable_meets :
    (lua_newtable.run L).Meets post ↔
      post.returned () (L.newtable.push (.table L.heap.size)) := Iff.rfl

@[simp]
theorem lua_newuserdata_meets {payload : Payload} :
    ((lua_newuserdata payload).run L).Meets post ↔
      post.returned () ((L.construct payload).push (.userdata L.userdata.length)) := Iff.rfl

@[simp]
theorem lua_pushcclosure_meets {f : CFunction} :
    ((lua_pushcclosure f 0).run L).Meets post ↔
      post.returned () ((L.close f []).push (.function L.closures.length)) := Iff.rfl

@[simp]
theorem lua_pushcclosure_one_meets {f : CFunction} {value : LuaValue} :
    ((lua_pushcclosure f 1).run (L.push value)).Meets post ↔
      post.returned () ((L.close f [value]).push (.function L.closures.length)) := by
  have enough : 1 ≤ (L.push value).stack.length := Nat.le_add_left _ _
  simp only [lua_pushcclosure, Program.bind_meets, Program.get_meets, if_pos enough]
  rfl

@[simp]
theorem lua_pop_meets {value : LuaValue} :
    ((lua_pop 1).run (L.push value)).Meets post ↔ post.returned () L := by
  have enough : 1 ≤ (L.push value).stack.length := Nat.le_add_left _ _
  simp only [lua_pop, Program.bind_meets, Program.get_meets, if_pos enough]
  rfl

@[simp]
theorem lua_rawset_meets {h : Nat} {key : CString} {value : LuaValue} :
    ((lua_rawset (-3)).run
        (((L.push (.table h)).push (.string key.bytes)).push value)).Meets post ↔
      post.returned () ((L.rawset h key value).push (.table h)) := Iff.rfl

@[simp]
theorem lua_setmetatable_meets {h m : Nat} :
    ((lua_setmetatable (-2)).run ((L.push (.table h)).push (.table m))).Meets post ↔
      post.returned () ((L.setmetatable h m).push (.table h)) := Iff.rfl

theorem lua_istable_meets {value : LuaValue}
    {post : Postcondition (Thread CFunction Payload) Failure Bool} :
    ((lua_istable (-1)).run (L.push value)).Meets post ↔
      post.returned value.handle.isSome (L.push value) := by
  cases value <;> exact Iff.rfl

theorem lua_gettable_meets {idx : Int} {t key value : LuaValue}
    (isAddress : (L.push key).index2adr idx = some t)
    (gets : L.heap.luaV_gettable tms.index t key = .ok value) :
    ((lua_gettable tms idx).run (L.push key)).Meets post ↔ post.returned () (L.push value) := by
  simp only [lua_gettable, address, Program.bind_meets, Program.get_meets, isAddress,
    Program.pure_meets, Thread.push_stack, Thread.push_heap, gets, raising, set,
    Program.modify_meets]
  exact Iff.rfl

theorem lua_gettable_globals_meets (plain : (L.heap.table L.globals).metatable = none)
    {name : CString} :
    ((lua_gettable tms LUA_GLOBALSINDEX).run (L.push (.string name.bytes))).Meets post ↔
      post.returned () (L.push (L.global name)) :=
  lua_gettable_meets rfl (Heap.luaV_gettable_none plain tms.index _)

section Settable

variable {idx : Int} {t : LuaValue} {key : CString} {value : LuaValue}

theorem lua_settable_meets {heap : Heap}
    (isAddress : ((L.push (.string key.bytes)).push value).index2adr idx = some t)
    (sets : L.heap.settable tms.newindex (.string key.bytes) value Heap.MAXTAGLOOP t = .ok heap) :
    ((lua_settable tms idx).run ((L.push (.string key.bytes)).push value)).Meets post ↔
      post.returned () { L with heap := heap } := by
  simp only [lua_settable, address, Program.bind_meets, Program.get_meets, isAddress,
    Program.pure_meets, Thread.push_stack, Thread.push_heap, sets, raising, set]
  exact Iff.rfl

theorem lua_settable_globals_meets (plain : (L.heap.table L.globals).metatable = none) :
    ((lua_settable tms LUA_GLOBALSINDEX).run
        ((L.push (.string key.bytes)).push value)).Meets post ↔
      post.returned () (L.rawset L.globals key value) :=
  lua_settable_meets rfl
    (Heap.settable_raw (Heap.luaL_getmetafield_none plain _) tms.newindex _ _ _)

theorem lua_settable_below_meets {h : Nat}
    (unset : L.heap.luaL_getmetafield h "__newindex" = .nil) :
    ((lua_settable tms (-3)).run
        (((L.push (.table h)).push (.string key.bytes)).push value)).Meets post ↔
      post.returned () ((L.rawset h key value).push (.table h)) :=
  lua_settable_meets (L := L.push (.table h)) rfl (Heap.settable_raw unset tms.newindex _ _ _)

theorem lua_settable_below_raises {error : LuaValue}
    (fails : L.heap.settable tms.newindex (.string key.bytes) value Heap.MAXTAGLOOP t =
      .error error) :
    ((lua_settable tms (-3)).run
        (((L.push t).push (.string key.bytes)).push value)).Meets post ↔
      post.raised (.raised error) (((L.push t).push (.string key.bytes)).push value) := by
  have isAddress :
      (((L.push t).push (.string key.bytes)).push value).index2adr (-3) = some t := rfl
  simp only [lua_settable, address, Program.bind_meets, Program.get_meets, isAddress,
    Program.pure_meets, Thread.push_stack, Thread.push_heap, fails, raising]
  exact Iff.rfl

end Settable

end Api

end LuaEngine.Lua
