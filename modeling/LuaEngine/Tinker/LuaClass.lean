import LuaEngine.Lua.Stack
import LuaEngine.Lua.Text
import LuaEngine.System.Machine

/-!
# The `LuaClass` builder

A C++ type is made known to Lua by a global table of its name, and its members are
entries of that table.  The table is found again by the name, which a static buffer
holds for each type once `class_add` has put it there.
-/

namespace LuaEngine.Tinker

open LuaEngine.Codec LuaEngine.Lua LuaEngine.System

/-- What is constructed in the userdata of a member. -/
inductive Payload (Func Variable : Type) where
  | functor (func : Func)
  | mem_var (val : Variable)
  deriving DecidableEq

/-- The types with their names, and the C functions their templates give. -/
structure Bindings (Object Func CFunction : Type) where
  name : Object → CString
  distinct : Function.Injective name
  named : ∀ object, name object ≠ .empty
  meta_get : CFunction
  meta_set : CFunction
  my_getpoint : CFunction
  destroyer : Object → CFunction
  /-- The `invoke` that `push_functor` chooses by the type of a function. -/
  invoke : Func → CFunction

/-- The state of Lua, the buffer of each type and the flag of each builder. -/
structure World (Object Func Variable CFunction : Type) where
  L : Thread CFunction (Payload Func Variable)
  temp : Object → CString
  m_bCreated : Object → Nat → Bool

inductive Operation (Func Variable CFunction : Type) where
  /-- The constructor of the builder. -/
  | LuaClass
  | create (constructor : CFunction)
  | class_add
  /-- The member function `def`. -/
  | define (name : CString) (func : Func)
  | def2 (name : CString) (func : CFunction)
  | def_cpoint (name : Option CString)
  | mem (name : CString) (val : Variable)
  deriving DecidableEq

/-- A call of a builder, which is one of those for its type. -/
structure Call (Object Func Variable CFunction : Type) where
  object : Object
  builder : Nat
  operation : Operation Func Variable CFunction
  deriving DecidableEq

def metaName : CString := ⟨ascii "__name", by decide +kernel⟩

def metaIndex : CString := ⟨ascii "__index", by decide +kernel⟩

def metaNewindex : CString := ⟨ascii "__newindex", by decide +kernel⟩

def metaGc : CString := ⟨ascii "__gc", by decide +kernel⟩

def metaCall : CString := ⟨ascii "__call", by decide +kernel⟩

def cpoint : CString := ⟨ascii "cpoint", by decide +kernel⟩

variable {Object Func Variable CFunction : Type}

abbrev Builder (Object Func Variable CFunction α : Type) :=
  Program (World Object Func Variable CFunction) Failure α

section Code

open Api

variable (tms : Metamethods) (bindings : Bindings Object Func CFunction)

def onLua {α : Type} (program : Api CFunction (Payload Func Variable) α) :
    Builder Object Func Variable CFunction α :=
  program.focus World.L fun L world => { world with L := L }

def push_meta (name : CString) : Api CFunction (Payload Func Variable) Unit := do
  lua_pushstring name
  lua_gettable tms LUA_GLOBALSINDEX

variable [DecidableEq Object]

/-- `sizeof temp` -/
def tempSize : Nat := 256

/-- `class_name<T>::name`; `strcpy` needs room for the end of the string. -/
def class_name (T : Object) (name : Option CString) :
    Builder Object Func Variable CFunction CString := do
  match name with
  | some name =>
      if name.bytes.length < tempSize then
        Program.modify fun world => { world with temp := Function.update world.temp T name }
      else
        Program.raise .undefined
  | none => pure ()
  return (← Program.get).temp T

def class_add (T : Object) (name : CString) : Builder Object Func Variable CFunction Unit := do
  let _ ← class_name T (some name)
  onLua do
    lua_pushstring name
    lua_newtable
    lua_pushstring metaName
    lua_pushstring name
    lua_rawset (-3)
    lua_pushstring metaIndex
    lua_pushcclosure bindings.meta_get 0
    lua_rawset (-3)
    lua_pushstring metaNewindex
    lua_pushcclosure bindings.meta_set 0
    lua_rawset (-3)
    lua_pushstring metaGc
    lua_pushcclosure (bindings.destroyer T) 0
    lua_rawset (-3)
    lua_settable tms LUA_GLOBALSINDEX

/-- The frame of `class_con`, `class_def` and `class_mem`: nothing is done to a value that
is no table. -/
def withClass (T : Object) (body : Api CFunction (Payload Func Variable) Unit) :
    Builder Object Func Variable CFunction Unit := do
  let name ← class_name T none
  onLua do
    push_meta tms name
    if ← lua_istable (-1) then
      body
    lua_pop 1

def class_con (T : Object) (func : CFunction) : Builder Object Func Variable CFunction Unit :=
  withClass tms T do
    lua_newtable
    lua_pushstring metaCall
    lua_pushcclosure func 0
    lua_rawset (-3)
    lua_setmetatable (-2)

def class_def (T : Object) (name : CString) (func : Func) :
    Builder Object Func Variable CFunction Unit :=
  withClass tms T do
    lua_pushstring name
    lua_newuserdata (.functor func)
    lua_pushcclosure (bindings.invoke func) 1
    lua_rawset (-3)

def class_mem (T : Object) (name : CString) (val : Variable) :
    Builder Object Func Variable CFunction Unit :=
  withClass tms T do
    lua_pushstring name
    lua_newuserdata (.mem_var val)
    lua_rawset (-3)

/-- Unlike `class_def` this does not look whether a table was found. -/
def RegisterMyFunc (T : Object) (func_name : CString) (f : CFunction) :
    Builder Object Func Variable CFunction Unit := do
  let className ← class_name T none
  onLua do
    push_meta tms className
    lua_pushstring func_name
    lua_pushcfunction f
    lua_settable tms (-3)
    lua_pop 1

namespace LuaClass

variable (call : Call Object Func Variable CFunction)

def setCreated (object : Object) (builder : Nat) (flag : Bool) :
    Builder Object Func Variable CFunction Unit :=
  Program.modify fun world =>
    { world with
      m_bCreated := Function.update world.m_bCreated object
        (Function.update (world.m_bCreated object) builder flag) }

def create (object : Object) (builder : Nat) (constructor : CFunction) :
    Builder Object Func Variable CFunction Unit := do
  if !(← Program.get).m_bCreated object builder then
    class_add tms bindings object (bindings.name object)
    setCreated object builder true
  class_con tms object constructor

def def_cpoint (object : Object) : Option CString → Builder Object Func Variable CFunction Unit
  | none => RegisterMyFunc tms object cpoint bindings.my_getpoint
  | some name => RegisterMyFunc tms object name bindings.my_getpoint

def execute : Builder Object Func Variable CFunction Unit :=
  match call.operation with
  | .LuaClass => setCreated call.object call.builder false
  | .create constructor => create tms bindings call.object call.builder constructor
  | .class_add => class_add tms bindings call.object (bindings.name call.object)
  | .define name func => class_def tms bindings call.object name func
  | .def2 name func => RegisterMyFunc tms call.object name func
  | .def_cpoint name => def_cpoint tms bindings call.object name
  | .mem name val => class_mem tms call.object name val

/-- A call that returns. -/
def step (world : World Object Func Variable CFunction)
    (call : Call Object Func Variable CFunction) :
    Option (World Object Func Variable CFunction) :=
  match (execute tms bindings call).run world with
  | .returned _ next => some next
  | _ => none

def machine (start : World Object Func Variable CFunction) :
    Machine (World Object Func Variable CFunction) (Call Object Func Variable CFunction) :=
  ⟨start, step tms bindings⟩

end LuaClass

end Code

/-! ## What the functions do -/

section Rules

open Api

variable {tms : Metamethods} {bindings : Bindings Object Func CFunction}
  {world : World Object Func Variable CFunction}
  {post : Postcondition (World Object Func Variable CFunction) Failure Unit}

/-- What `class_con` does to a class table. -/
def setConstructor (func : CFunction) (h : Nat) (L : Thread CFunction (Payload Func Variable)) :
    Thread CFunction (Payload Func Variable) :=
  ((L.newtable.close func []).rawset L.heap.size metaCall
    (.function L.closures.length)).setmetatable h L.heap.size

/-- The table that `class_add` fills. -/
def newClass (bindings : Bindings Object Func CFunction) (T : Object) (name : CString)
    (L : Thread CFunction (Payload Func Variable)) : Thread CFunction (Payload Func Variable) :=
  (((((((L.newtable.rawset L.heap.size metaName (.string name.bytes)).close
    bindings.meta_get []).rawset L.heap.size metaIndex (.function L.closures.length)).close
    bindings.meta_set []).rawset L.heap.size metaNewindex
      (.function (L.closures.length + 1))).close
    (bindings.destroyer T) []).rawset L.heap.size metaGc (.function (L.closures.length + 2)))

/-- Globals without a metatable. -/
def World.Plain (world : World Object Func Variable CFunction) : Prop :=
  (world.L.heap.table world.L.globals).metatable = none

def World.onThread (world : World Object Func Variable CFunction)
    (change : Thread CFunction (Payload Func Variable) → Thread CFunction (Payload Func Variable)) :
    World Object Func Variable CFunction :=
  { world with L := change world.L }

theorem onLua_meets {α : Type} {program : Api CFunction (Payload Func Variable) α}
    {post : Postcondition (World Object Func Variable CFunction) Failure α} :
    ((onLua program).run world).Meets post ↔
      (program.run world.L).Meets
        ⟨fun value L => post.returned value { world with L := L },
          fun error L => post.raised error { world with L := L }, post.unfinished⟩ :=
  Program.focus_meets

theorem push_meta_meets {L : Thread CFunction (Payload Func Variable)}
    (plain : (L.heap.table L.globals).metatable = none) {name : CString}
    {post : Postcondition (Thread CFunction (Payload Func Variable)) Failure Unit} :
    ((push_meta tms name).run L).Meets post ↔ post.returned () (L.push (L.global name)) := by
  rw [push_meta, Program.bind_meets, lua_pushstring_meets]
  exact lua_gettable_globals_meets plain

variable [DecidableEq Object] {T : Object} {h : Nat}

theorem class_name_none_meets
    {post : Postcondition (World Object Func Variable CFunction) Failure CString} :
    ((class_name T none).run world).Meets post ↔ post.returned (world.temp T) world := Iff.rfl

section Found

variable (plain : world.Plain) (isClass : world.L.global (world.temp T) = .table h)

include plain isClass

theorem withClass_meets {body : Api CFunction (Payload Func Variable) Unit}
    {L' : Thread CFunction (Payload Func Variable)}
    (does : ∀ post, (body.run (world.L.push (.table h))).Meets post ↔
      post.returned () (L'.push (.table h))) :
    ((withClass tms T body).run world).Meets post ↔
      post.returned () (world.onThread fun _ => L') := by
  simp [withClass, class_name_none_meets, onLua_meets, push_meta_meets plain, isClass,
    lua_istable_meets, LuaValue.handle, does, World.onThread]

theorem class_con_meets (func : CFunction) :
    ((class_con tms T func).run world).Meets post ↔
      post.returned () (world.onThread (setConstructor func h)) :=
  withClass_meets plain isClass fun _ => by simp [setConstructor]

theorem RegisterMyFunc_meets (unset : world.L.heap.luaL_getmetafield h "__newindex" = .nil)
    (func_name : CString) (f : CFunction) :
    ((RegisterMyFunc tms T func_name f).run world).Meets post ↔
      post.returned () (world.onThread fun L =>
        (L.close f []).rawset h func_name (.function L.closures.length)) := by
  simp [RegisterMyFunc, class_name_none_meets, onLua_meets, push_meta_meets plain, isClass,
    lua_pushcfunction, lua_settable_below_meets, unset, World.onThread]

end Found

theorem withClass_not_found (plain : world.Plain)
    (isNone : (world.L.global (world.temp T)).handle = none)
    {body : Api CFunction (Payload Func Variable) Unit} :
    ((withClass tms T body).run world).Meets post ↔ post.returned () world := by
  simp [withClass, class_name_none_meets, onLua_meets, push_meta_meets plain, isNone,
    lua_istable_meets]

/-- On a type that is not registered `RegisterMyFunc` assigns to nil, and raises. -/
theorem RegisterMyFunc_not_found (plain : world.Plain)
    (isNil : world.L.global (world.temp T) = .nil)
    (unset : tms.newindex.luaT_gettmbyobj .nil = .nil) (func_name : CString) (f : CFunction) :
    ((RegisterMyFunc tms T func_name f).run world).Meets post ↔
      post.raised (.raised (.literal "attempt to index a nil value")) (world.onThread fun L =>
        (((L.close f []).push .nil).push (.string func_name.bytes)).push
          (.function L.closures.length)) := by
  have fails : ∀ heap key value, Heap.settable tms.newindex heap key value Heap.MAXTAGLOOP .nil =
      .error (.literal "attempt to index a nil value") := fun heap key value => if_pos unset
  simp [RegisterMyFunc, class_name_none_meets, onLua_meets, push_meta_meets plain, isNil,
    lua_pushcfunction, lua_settable_below_raises (fails _ _ _), World.onThread]

theorem class_add_meets (plain : world.Plain) {name : CString}
    (fits : name.bytes.length < tempSize) :
    ((class_add tms bindings T name).run world).Meets post ↔
      post.returned () { world with
        L := (newClass bindings T name world.L).rawset world.L.globals name
          (.table world.L.heap.size)
        temp := Function.update world.temp T name } := by
  have plainGlobals : (world.L.heap.table world.L.globals).metatable = none := plain
  simp [class_add, class_name, if_pos fits, onLua_meets, lua_settable_globals_meets, plainGlobals,
    newClass]

end Rules

end LuaEngine.Tinker
