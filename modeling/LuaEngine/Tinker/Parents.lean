import LuaEngine.Tinker.Inheritance
import LuaEngine.Tinker.Runs

/-!
# Classes under one another

`class_inh` is called between the calls of the builder.  All that it does is to set the
`__parent` of a class table, and no call of the builder looks at one: it does the same
to a state whose class tables have parents as to one where they have none.
-/

namespace LuaEngine.Tinker

open LuaEngine.Codec LuaEngine.Lua LuaEngine.System

variable {Object Func Variable CFunction : Type}

/-! ## What a call does to the state -/

/-- A change of the class table that is found for a type. -/
def World.onClass (object : Object)
    (change : Nat → Thread CFunction (Payload Func Variable) →
      Thread CFunction (Payload Func Variable))
    (world : World Object Func Variable CFunction) : World Object Func Variable CFunction :=
  match (world.L.global (world.temp object)).handle with
  | some h => world.onThread (change h)
  | none => world

/-- The objects that a member takes, and the value that its name is given. -/
def construct (bindings : Bindings Object Func CFunction) (slot : Slot Func Variable CFunction)
    (L : Thread CFunction (Payload Func Variable)) :
    Thread CFunction (Payload Func Variable) × LuaValue :=
  match slot with
  | .string s => (L, .string s.bytes)
  | .cfunction f => (L.close f [], .function L.closures.length)
  | .functor func =>
      ((L.construct (.functor func)).close (bindings.invoke func) [.userdata L.userdata.length],
        .function L.closures.length)
  | .mem_var val => (L.construct (.mem_var val), .userdata L.userdata.length)

def bindMember (bindings : Bindings Object Func CFunction) (name : CString)
    (slot : Slot Func Variable CFunction) (h : Nat)
    (L : Thread CFunction (Payload Func Variable)) : Thread CFunction (Payload Func Variable) :=
  (construct bindings slot L).1.rawset h name (construct bindings slot L).2

section Effect

variable [DecidableEq Object] (bindings : Bindings Object Func CFunction)

def World.add (object : Object) (world : World Object Func Variable CFunction) :
    World Object Func Variable CFunction :=
  { world with
    L := (newClass bindings object (bindings.name object) world.L).rawset world.L.globals
      (bindings.name object) (.table world.L.heap.size)
    temp := Function.update world.temp object (bindings.name object) }

def World.setCreated (object : Object) (builder : Nat) (flag : Bool)
    (world : World Object Func Variable CFunction) : World Object Func Variable CFunction :=
  { world with
    m_bCreated := Function.update world.m_bCreated object
      (Function.update (world.m_bCreated object) builder flag) }

def World.added (object : Object) (builder : Nat) (world : World Object Func Variable CFunction) :
    World Object Func Variable CFunction :=
  if world.m_bCreated object builder then world
  else (world.add bindings object).setCreated object builder true

def effect (call : Call Object Func Variable CFunction)
    (world : World Object Func Variable CFunction) : World Object Func Variable CFunction :=
  match call.operation with
  | .LuaClass => world.setCreated call.object call.builder false
  | .create func =>
      (world.added bindings call.object call.builder).onClass call.object (setConstructor func)
  | .class_add => world.add bindings call.object
  | operation =>
      match operation.binding bindings with
      | some (name, slot) => world.onClass call.object (bindMember bindings name slot)
      | none => world

end Effect

theorem effect_of_binding [DecidableEq Object] {bindings : Bindings Object Func CFunction}
    {call : Call Object Func Variable CFunction} {name : CString}
    {slot : Slot Func Variable CFunction}
    (isBinding : call.operation.binding bindings = some (name, slot))
    (world : World Object Func Variable CFunction) :
    effect bindings call world = world.onClass call.object (bindMember bindings name slot) := by
  unfold effect
  split <;> simp_all [Operation.binding]

/-- The class table of a type is found, and takes members. -/
def World.Found (world : World Object Func Variable CFunction) (object : Object) : Prop :=
  ∃ h, world.L.global (world.temp object) = .table h ∧
    world.L.heap.luaL_getmetafield h "__newindex" = .nil

/-- What a call needs to return. -/
structure Ready (bindings : Bindings Object Func CFunction)
    (call : Call Object Func Variable CFunction)
    (world : World Object Func Variable CFunction) : Prop where
  plain : world.Plain
  inside : world.L.globals < world.L.heap.size
  enabled : match call.operation with
    | .LuaClass => True
    | .create _ => (bindings.name call.object).bytes.length < tempSize ∧
        (world.m_bCreated call.object call.builder = true → world.Found call.object)
    | .class_add => (bindings.name call.object).bytes.length < tempSize
    | _ => world.Found call.object

section Rules

variable {tms : Metamethods} {bindings : Bindings Object Func CFunction}
  {world : World Object Func Variable CFunction} {object : Object}
  {change : Nat → Thread CFunction (Payload Func Variable) →
    Thread CFunction (Payload Func Variable)}
  {post : Postcondition (World Object Func Variable CFunction) Failure Unit}

theorem World.onClass_of_found {h : Nat}
    (found : world.L.global (world.temp object) = .table h) :
    world.onClass object change = world.onThread (change h) := by
  rw [World.onClass, found]
  rfl

variable [DecidableEq Object]

theorem class_con_effect (plain : world.Plain)
    (found : ∃ h, world.L.global (world.temp object) = .table h) (func : CFunction) :
    ((class_con tms object func).run world).Meets post ↔
      post.returned () (world.onClass object (setConstructor func)) := by
  obtain ⟨h, found⟩ := found
  rw [World.onClass_of_found found]
  exact class_con_meets plain found func

/-- The table that `class_add` has made is the one that is found. -/
theorem World.add_found (inside : world.L.globals < world.L.heap.size) :
    (world.add bindings object).L.global ((world.add bindings object).temp object) =
      .table world.L.heap.size := by
  have named : (world.add bindings object).temp object = bindings.name object :=
    Function.update_self _ _ _
  rw [named]
  exact Thread.rawset_global_self _ (inside_newClass bindings object _ inside) _ _

theorem World.add_plain (plain : world.Plain) (inside : world.L.globals < world.L.heap.size) :
    (world.add bindings object).Plain := by
  have plain : (world.L.heap.table world.L.globals).metatable = none := plain
  rw [World.Plain, World.add, Thread.rawset_metatable, Thread.rawset_globals,
    (extends_newClass _ _).globals, table_newClass _ _ inside]
  exact plain

theorem create_effect (builder : Nat) (func : CFunction) (plain : world.Plain)
    (inside : world.L.globals < world.L.heap.size)
    (fits : (bindings.name object).bytes.length < tempSize)
    (created : world.m_bCreated object builder = true → world.Found object) :
    ((LuaClass.create tms bindings object builder func).run world).Meets post ↔
      post.returned () ((world.added bindings object builder).onClass object
        (setConstructor func)) := by
  rw [LuaClass.create, Program.bind_meets, Program.get_meets, World.added]
  dsimp only
  cases flag : world.m_bCreated object builder with
  | true =>
      obtain ⟨h, found, -⟩ := created flag
      exact class_con_effect plain ⟨h, found⟩ func
  | false =>
      simp only [Bool.not_false, if_true, Program.bind_meets]
      apply (class_add_meets plain fits).trans
      have isPlain : ((world.add bindings object).setCreated object builder true).Plain :=
        World.add_plain plain inside
      exact class_con_effect isPlain ⟨_, World.add_found inside⟩ func

theorem withClass_effect {body : Api CFunction (Payload Func Variable) Unit}
    (plain : world.Plain) (found : world.Found object)
    (does : ∀ h post, (body.run (world.L.push (.table h))).Meets post ↔
      post.returned () ((change h world.L).push (.table h))) :
    ((withClass tms object body).run world).Meets post ↔
      post.returned () (world.onClass object change) := by
  obtain ⟨h, found, -⟩ := found
  rw [World.onClass_of_found found]
  exact withClass_meets plain found (does h)

theorem RegisterMyFunc_effect (plain : world.Plain) (found : world.Found object) (name : CString)
    (f : CFunction) :
    ((RegisterMyFunc tms object name f).run world).Meets post ↔
      post.returned () (world.onClass object (bindMember bindings name (.cfunction f))) := by
  obtain ⟨h, found, unset⟩ := found
  rw [World.onClass_of_found found]
  exact RegisterMyFunc_meets plain found unset name f

theorem execute_effect {call : Call Object Func Variable CFunction}
    (ready : Ready bindings call world) :
    ((LuaClass.execute tms bindings call).run world).Meets post ↔
      post.returned () (effect bindings call world) := by
  obtain ⟨object, builder, operation⟩ := call
  obtain ⟨plain, inside, enabled⟩ := ready
  cases operation with
  | LuaClass => exact Iff.rfl
  | create func => exact create_effect builder func plain inside enabled.1 enabled.2
  | class_add => exact class_add_meets plain enabled
  | define name func =>
      exact withClass_effect plain enabled fun h post => by simp [bindMember, construct]
  | def2 name f => exact RegisterMyFunc_effect plain enabled name f
  | def_cpoint name =>
      cases name with
      | none => exact RegisterMyFunc_effect plain enabled cpoint bindings.my_getpoint
      | some name => exact RegisterMyFunc_effect plain enabled name bindings.my_getpoint
  | mem name val =>
      exact withClass_effect plain enabled fun h post => by simp [bindMember, construct]

variable (tms) in
theorem step_effect {call : Call Object Func Variable CFunction}
    (ready : Ready bindings call world) :
    LuaClass.step tms bindings world call = some (effect bindings call world) := by
  have meets : ((LuaClass.execute tms bindings call).run world).Meets
      ⟨fun _ next => next = effect bindings call world, fun _ _ => False, False⟩ :=
    (execute_effect ready).mpr rfl
  obtain ⟨_, next, returned, rfl⟩ := meets.returns (fun _ _ => id) id
  rw [LuaClass.step, returned]

end Rules

section Inherits

open Api

variable [DecidableEq Object] {tms : Metamethods}
  {world : World Object Func Variable CFunction}
  {post : Postcondition (World Object Func Variable CFunction) Failure Unit}

theorem class_inh_meets (plain : world.Plain) {T P : Object} {h p : Nat}
    (isClass : world.L.global (world.temp T) = .table h)
    (isParent : world.L.global (world.temp P) = .table p) :
    ((class_inh tms T P).run world).Meets post ↔
      post.returned () (world.onThread fun L => L.rawset h metaParent (.table p)) := by
  rw [class_inh, Program.bind_meets, class_name_none_meets]
  apply withClass_meets plain isClass
  intro post
  have pushed : ∀ post, ((push_meta tms (world.temp P)).run
      ((world.L.push (.table h)).push (.string metaParent.bytes))).Meets post ↔
        post.returned () (((world.L.push (.table h)).push (.string metaParent.bytes)).push
          (.table p)) := by
    intro post
    rw [← isParent]
    exact push_meta_meets (L := (world.L.push (.table h)).push (.string metaParent.bytes)) plain
  simp only [Program.bind_meets, lua_pushstring_meets, pushed]
  exact lua_rawset_meets

end Inherits

/-! ## A state with parents and one without -/

/-- The second table is the first one, but for its parent. -/
structure HasParent (parent : Option Nat) (table table' : Table) : Prop where
  metatable : table'.metatable = table.metatable
  entry : ∀ key, key ≠ parentKey ∨ parent = none → table'.rawget key = table.rawget key
  isParent : ∀ p, parent = some p → table'.rawget parentKey = .table p

namespace HasParent

variable {parent : Option Nat} {table table' : Table}

theorem refl (table : Table) : HasParent none table table :=
  ⟨rfl, fun _ _ => rfl, fun _ isParent => by contradiction⟩

theorem setMetatable (hasParent : HasParent parent table table') (metatable : Option Nat) :
    HasParent parent (table.setMetatable metatable) (table'.setMetatable metatable) :=
  { hasParent with metatable := rfl }

theorem rawset (hasParent : HasParent parent table table') {key : LuaValue} (value : LuaValue)
    (valid : key.isKey = true) (other : key ≠ parentKey ∨ parent = none) :
    HasParent parent (table.rawset key value valid) (table'.rawset key value valid) where
  metatable := hasParent.metatable
  entry key' isEntry := by
    by_cases same : key' = key
    · rw [same, Table.rawget_rawset_self, Table.rawget_rawset_self]
    · rw [Table.rawget_rawset_of_ne _ _ _ same, Table.rawget_rawset_of_ne _ _ _ same]
      exact hasParent.entry key' isEntry
  isParent p isSome := by
    have notParent : key ≠ parentKey := by
      rcases other with notParent | isNone
      · exact notParent
      · rw [isNone] at isSome
        contradiction
    rw [Table.rawget_rawset_of_ne _ _ _ notParent.symm]
    exact hasParent.isParent p isSome

theorem setParent (hasParent : HasParent parent table table') (p : Nat) :
    HasParent (some p) table (table'.rawset parentKey (.table p) parentKey_isKey) where
  metatable := hasParent.metatable
  entry key isEntry := by
    have notParent : key ≠ parentKey := isEntry.resolve_right (Option.some_ne_none p)
    rw [Table.rawget_rawset_of_ne _ _ _ notParent]
    exact hasParent.entry key (.inl notParent)
  isParent p' isSome := by
    rw [Table.rawget_rawset_self, Option.some.inj isSome]

end HasParent

/-- The second thread is the first one, but that class tables in it have parents. -/
structure Parented {Payload : Type} (parents : Nat → Option Nat) (L L' : Thread CFunction Payload) :
    Prop where
  stack : L'.stack = L.stack
  size : L'.heap.size = L.heap.size
  globals : L'.globals = L.globals
  closures : L'.closures = L.closures
  userdata : L'.userdata = L.userdata
  table : ∀ h, HasParent (parents h) (L.heap.table h) (L'.heap.table h)
  isClass : ∀ h p, parents h = some p → h < L.heap.size ∧ h ≠ L.globals

namespace Parented

variable {parents : Nat → Option Nat}

theorem refl {Payload : Type} (L : Thread CFunction Payload) : Parented (fun _ => none) L L :=
  ⟨rfl, rfl, rfl, rfl, rfl, fun _ => .refl _, fun _ _ isParent => by contradiction⟩

section Changes

variable {Payload : Type} {L L' : Thread CFunction Payload} (parented : Parented parents L L')

include parented

theorem ofGlobals : parents L.globals = none := by
  cases isParent : parents L.globals with
  | none => rfl
  | some p => exact absurd rfl (parented.isClass _ p isParent).2

theorem global (name : CString) : L'.global name = L.global name := by
  rw [Thread.global, Thread.global, parented.globals]
  exact (parented.table _).entry _ (.inr parented.ofGlobals)

theorem luaL_getmetafield {event : String} (notParent : LuaValue.literal event ≠ parentKey)
    (h : Nat) : L'.heap.luaL_getmetafield h event = L.heap.luaL_getmetafield h event := by
  rw [Heap.luaL_getmetafield, Heap.luaL_getmetafield, (parented.table h).metatable]
  cases (L.heap.table h).metatable with
  | none => rfl
  | some m => exact (parented.table m).entry _ (.inl notParent)

theorem newtable : Parented parents L.newtable L'.newtable where
  stack := parented.stack
  size := by
    have same := parented.size
    simpa [Thread.newtable] using same
  globals := parented.globals
  closures := parented.closures
  userdata := parented.userdata
  table h := by
    rw [Thread.newtable_table, Thread.newtable_table]
    exact parented.table h
  isClass h p isParent := by
    obtain ⟨inside, notGlobals⟩ := parented.isClass h p isParent
    exact ⟨inside.trans_le (Extends.newtable L).size, notGlobals⟩

theorem close (f : CFunction) (upvalue : List LuaValue) :
    Parented parents (L.close f upvalue) (L'.close f upvalue) :=
  { parented with
    closures := by
      rw [Thread.close_closures, Thread.close_closures, parented.closures] }

theorem construct (payload : Payload) :
    Parented parents (L.construct payload) (L'.construct payload) :=
  { parented with
    userdata := by
      rw [Thread.construct, Thread.construct, parented.userdata] }

theorem update (h : Nat) {change : Table → Table}
    (keeps : HasParent (parents h) (change (L.heap.table h)) (change (L'.heap.table h))) :
    Parented parents { L with heap := L.heap.update h change }
      { L' with heap := L'.heap.update h change } where
  stack := parented.stack
  size := by
    rw [Heap.size_update, Heap.size_update]
    exact parented.size
  globals := parented.globals
  closures := parented.closures
  userdata := parented.userdata
  table g := by
    by_cases same : g = h
    · by_cases inside : h < L.heap.size
      · rw [same, Heap.table_update_self _ _ inside,
          Heap.table_update_self _ _ (parented.size ▸ inside)]
        exact keeps
      · have unchanged : L.heap.update h change = L.heap :=
          congrArg Heap.mk (List.modify_eq_self (Nat.le_of_not_lt inside))
        have unchanged' : L'.heap.update h change = L'.heap :=
          congrArg Heap.mk (List.modify_eq_self (parented.size.trans_le (Nat.le_of_not_lt inside)))
        rw [unchanged, unchanged']
        exact parented.table g
    · rw [Heap.table_update_of_ne _ _ same, Heap.table_update_of_ne _ _ same]
      exact parented.table g
  isClass g p isParent := by
    rw [Heap.size_update]
    exact parented.isClass g p isParent

theorem rawset (h : Nat) (key : CString) (value : LuaValue)
    (other : key ≠ metaParent ∨ parents h = none) :
    Parented parents (L.rawset h key value) (L'.rawset h key value) :=
  parented.update h ((parented.table h).rawset value key.isKey (other.imp_left CString.key_ne))

theorem setmetatable (h m : Nat) :
    Parented parents (L.setmetatable h m) (L'.setmetatable h m) :=
  parented.update h ((parented.table h).setMetatable (some m))

/-- A class table gets a parent. -/
theorem setParent {h : Nat} (inside : h < L.heap.size) (notGlobals : h ≠ L.globals) (p : Nat) :
    Parented (Function.update parents h (some p)) L (L'.rawset h metaParent (.table p)) where
  stack := parented.stack
  size := (L'.heap.size_update h _).trans parented.size
  globals := parented.globals
  closures := parented.closures
  userdata := parented.userdata
  table g := by
    by_cases same : g = h
    · rw [same, Function.update_self, Thread.rawset_table_self L' (parented.size ▸ inside)]
      exact (parented.table h).setParent p
    · rw [Function.update_of_ne same, L'.rawset_table_of_ne same]
      exact parented.table g
  isClass g p' isParent := by
    by_cases same : g = h
    · rw [same]
      exact ⟨inside, notGlobals⟩
    · rw [Function.update_of_ne same] at isParent
      exact parented.isClass g p' isParent

end Changes

section Members

variable {L L' : Thread CFunction (Payload Func Variable)}
  {bindings : Bindings Object Func CFunction}

theorem setConstructor (parented : Parented parents L L') (func : CFunction) (h : Nat) :
    Parented parents (setConstructor func h L) (setConstructor func h L') := by
  rw [Tinker.setConstructor, Tinker.setConstructor, parented.size, parented.closures]
  exact ((parented.newtable.close func []).rawset _ metaCall _
    (.inl (by decide +kernel))).setmetatable h _

theorem newClass (parented : Parented parents L L') (object : Object) (name : CString) :
    Parented parents (newClass bindings object name L) (newClass bindings object name L') := by
  rw [Tinker.newClass, Tinker.newClass, parented.size, parented.closures]
  have named := parented.newtable.rawset L.heap.size metaName (.string name.bytes)
    (.inl (by decide +kernel))
  have indexed := (named.close bindings.meta_get []).rawset L.heap.size metaIndex
    (.function L.closures.length) (.inl (by decide +kernel))
  have assigned := (indexed.close bindings.meta_set []).rawset L.heap.size metaNewindex
    (.function (L.closures.length + 1)) (.inl (by decide +kernel))
  exact (assigned.close (bindings.destroyer object) []).rawset L.heap.size metaGc
    (.function (L.closures.length + 2)) (.inl (by decide +kernel))

theorem bindMember (parented : Parented parents L L') {name : CString}
    (notParent : name ≠ metaParent) (slot : Slot Func Variable CFunction) (h : Nat) :
    Parented parents (bindMember bindings name slot h L) (bindMember bindings name slot h L') := by
  have constructed : Parented parents (Tinker.construct bindings slot L).1
      (Tinker.construct bindings slot L').1 := by
    cases slot with
    | string s => exact parented
    | cfunction f => exact parented.close f []
    | functor func =>
        rw [Tinker.construct, Tinker.construct, parented.userdata]
        exact (parented.construct _).close _ _
    | mem_var val => exact parented.construct _
  have sameValue :
      (Tinker.construct bindings slot L').2 = (Tinker.construct bindings slot L).2 := by
    cases slot <;> simp [Tinker.construct, parented.closures, parented.userdata]
  rw [Tinker.bindMember, Tinker.bindMember, sameValue]
  exact constructed.rawset h name _ (.inl notParent)

end Members

end Parented

/-! ## The state of the builder with parents -/

/-- The state is what the builder alone has made, but that class tables have parents. -/
structure World.Parented (parents : Nat → Option Nat)
    (base world : World Object Func Variable CFunction) : Prop where
  thread : Tinker.Parented parents base.L world.L
  temp : world.temp = base.temp
  m_bCreated : world.m_bCreated = base.m_bCreated

namespace World.Parented

variable {parents : Nat → Option Nat} {bindings : Bindings Object Func CFunction}
  {base world : World Object Func Variable CFunction} {object : Object}

theorem found (parented : World.Parented parents base world) :
    world.L.global (world.temp object) = base.L.global (base.temp object) := by
  rw [parented.temp, parented.thread.global]

theorem plain (parented : World.Parented parents base world) (isPlain : base.Plain) :
    world.Plain := by
  rw [World.Plain, parented.thread.globals, (parented.thread.table _).metatable]
  exact isPlain

theorem isFound (parented : World.Parented parents base world) (isFound : base.Found object) :
    world.Found object := by
  obtain ⟨h, found, unset⟩ := isFound
  refine ⟨h, parented.found.trans found, ?_⟩
  exact (parented.thread.luaL_getmetafield (by decide +kernel) h).trans unset

theorem onClass (parented : World.Parented parents base world)
    {change : Nat → Thread CFunction (Payload Func Variable) →
      Thread CFunction (Payload Func Variable)}
    (changes : ∀ h, Tinker.Parented parents (change h base.L) (change h world.L)) :
    World.Parented parents (base.onClass object change) (world.onClass object change) := by
  rw [World.onClass, World.onClass, parented.found]
  split
  next h _ => exact ⟨changes h, parented.temp, parented.m_bCreated⟩
  next => exact parented

theorem ready (parented : World.Parented parents base world)
    {call : Call Object Func Variable CFunction} (isReady : Ready bindings call base) :
    Ready bindings call world where
  plain := parented.plain isReady.plain
  inside := by
    rw [parented.thread.globals, parented.thread.size]
    exact isReady.inside
  enabled := by
    have enabled := isReady.enabled
    obtain ⟨object, builder, operation⟩ := call
    cases operation with
    | LuaClass => trivial
    | create func =>
        refine ⟨enabled.1, fun created => parented.isFound (enabled.2 ?_)⟩
        rw [← parented.m_bCreated]
        exact created
    | class_add => exact enabled
    | define name func => exact parented.isFound enabled
    | def2 name f => exact parented.isFound enabled
    | def_cpoint name => exact parented.isFound enabled
    | mem name val => exact parented.isFound enabled

variable [DecidableEq Object]

theorem setCreated (parented : World.Parented parents base world) (object : Object) (builder : Nat)
    (flag : Bool) : World.Parented parents (base.setCreated object builder flag)
      (world.setCreated object builder flag) where
  thread := parented.thread
  temp := parented.temp
  m_bCreated := by
    rw [World.setCreated, World.setCreated, parented.m_bCreated]

theorem add (parented : World.Parented parents base world) (object : Object) :
    World.Parented parents (base.add bindings object) (world.add bindings object) where
  thread := by
    rw [World.add, World.add]
    dsimp only
    rw [parented.thread.size, parented.thread.globals]
    have ofGlobals := parented.thread.ofGlobals
    exact (parented.thread.newClass object _).rawset _ _ _ (.inr ofGlobals)
  temp := by
    rw [World.add, World.add, parented.temp]
  m_bCreated := parented.m_bCreated

theorem added (parented : World.Parented parents base world) (object : Object) (builder : Nat) :
    World.Parented parents (base.added bindings object builder)
      (world.added bindings object builder) := by
  rw [World.added, World.added, parented.m_bCreated]
  split
  next => exact parented
  next => exact (parented.add object).setCreated object builder true

/-- A call of the builder does the same to both. -/
theorem effect (parented : World.Parented parents base world)
    {call : Call Object Func Variable CFunction}
    (keepsParent : ∀ name slot, call.operation.binding bindings = some (name, slot) →
      name ≠ metaParent) :
    World.Parented parents (effect bindings call base) (effect bindings call world) := by
  obtain ⟨object, builder, operation⟩ := call
  cases operation.kind bindings with
  | LuaClass => exact parented.setCreated object builder false
  | create func => exact (parented.added object builder).onClass fun h =>
      (parented.added object builder).thread.setConstructor func h
  | class_add => exact parented.add object
  | binds isBinding =>
      rw [effect_of_binding isBinding, effect_of_binding isBinding]
      exact parented.onClass (parented.thread.bindMember (keepsParent _ _ isBinding) _)

end World.Parented

end LuaEngine.Tinker
