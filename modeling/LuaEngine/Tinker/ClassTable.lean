import LuaEngine.Tinker.Registry

/-!
# Class tables

The class tables in the state of Lua represent the registry: the global of a
registered name is a table of its own, whose entries denote the members of the class.
-/

namespace LuaEngine.Tinker

open LuaEngine.Codec LuaEngine.Lua LuaEngine.System

variable {Object Func Variable CFunction : Type}

/-- The value is the one a slot stands for. -/
def Denotes (bindings : Bindings Object Func CFunction)
    (L : Thread CFunction (Payload Func Variable)) (value : LuaValue) :
    Option (Slot Func Variable CFunction) → Prop
  | none => value = .nil
  | some (.string s) => value = .string s.bytes
  | some (.cfunction f) => ∃ cl, value = .function cl ∧ L.closures[cl]? = some ⟨f, []⟩
  | some (.functor func) => ∃ cl u, value = .function cl ∧
      L.closures[cl]? = some ⟨bindings.invoke func, [.userdata u]⟩ ∧
        L.userdata[u]? = some (.functor func)
  | some (.mem_var val) => ∃ u, value = .userdata u ∧ L.userdata[u]? = some (.mem_var val)

/-- A table whose string keys hold the members. -/
structure Holds (bindings : Bindings Object Func CFunction)
    (L : Thread CFunction (Payload Func Variable)) (h : Nat)
    (members : Members Func Variable CFunction) : Prop where
  inside : h < L.heap.size
  entry : ∀ name, Denotes bindings L ((L.heap.table h).rawget (.string name.bytes)) (members name)

/-- The metatable that `class_con` sets. -/
def constructorMembers (func : CFunction) : Members Func Variable CFunction :=
  Function.update (fun _ => none) metaCall (some (.cfunction func))

theorem constructorMembers_of_ne (func : CFunction) {name : CString} (different : name ≠ metaCall) :
    (constructorMembers func : Members Func Variable CFunction) name = none :=
  Function.update_of_ne different _ _

/-- The class table under a global name. -/
structure IsClass (bindings : Bindings Object Func CFunction)
    (L : Thread CFunction (Payload Func Variable)) (name : CString) (h : Nat)
    (members : Members Func Variable CFunction) : Prop where
  found : L.global name = .table h
  holds : Holds bindings L h members
  metatable : ∀ m, (L.heap.table h).metatable = some m →
    ∃ func, Holds bindings L m (constructorMembers func)

/-- Nothing is taken away: what handles refer to is still there. -/
structure Extends {Payload : Type} (L L' : Thread CFunction Payload) : Prop where
  globals : L'.globals = L.globals
  size : L.heap.size ≤ L'.heap.size
  closures : L.closures <+: L'.closures
  userdata : L.userdata <+: L'.userdata

namespace Extends

variable {Payload : Type} {L middle final : Thread CFunction Payload}

theorem trans (first : Extends L middle) (second : Extends middle final) : Extends L final where
  globals := second.globals.trans first.globals
  size := first.size.trans second.size
  closures := first.closures.trans second.closures
  userdata := first.userdata.trans second.userdata

variable (L)

theorem newtable : Extends L L.newtable :=
  ⟨rfl, by simp [Thread.newtable], List.prefix_rfl, List.prefix_rfl⟩

theorem construct (payload : Payload) : Extends L (L.construct payload) :=
  ⟨rfl, Nat.le_refl _, List.prefix_rfl, List.prefix_append _ _⟩

theorem close (f : CFunction) (upvalue : List LuaValue) : Extends L (L.close f upvalue) :=
  ⟨rfl, Nat.le_refl _, List.prefix_append _ _, List.prefix_rfl⟩

theorem rawset (h : Nat) (key : CString) (value : LuaValue) : Extends L (L.rawset h key value) :=
  ⟨rfl, (L.heap.size_update h _).ge, List.prefix_rfl, List.prefix_rfl⟩

theorem setmetatable (h m : Nat) : Extends L (L.setmetatable h m) :=
  ⟨rfl, (L.heap.size_update h _).ge, List.prefix_rfl, List.prefix_rfl⟩

end Extends

section Rules

variable {bindings : Bindings Object Func CFunction}
  {L L' : Thread CFunction (Payload Func Variable)} {value : LuaValue} {h : Nat}
  {slot : Option (Slot Func Variable CFunction)} {members : Members Func Variable CFunction}

theorem found_of_prefix {α : Type} {first second : List α} (extended : first <+: second)
    {i : Nat} {element : α} (found : first[i]? = some element) : second[i]? = some element := by
  obtain ⟨below, rfl⟩ := List.getElem?_eq_some_iff.mp found
  have further : i < second.length := below.trans_le extended.length_le
  exact List.getElem?_eq_some_iff.mpr ⟨further, (extended.getElem below).symm⟩

theorem Denotes.mono (denotes : Denotes bindings L value slot) (extended : Extends L L') :
    Denotes bindings L' value slot := by
  match slot with
  | none => exact denotes
  | some (.string s) => exact denotes
  | some (.cfunction f) =>
      obtain ⟨cl, isFunction, closure⟩ := denotes
      exact ⟨cl, isFunction, found_of_prefix extended.closures closure⟩
  | some (.functor func) =>
      obtain ⟨cl, u, isFunction, closure, payload⟩ := denotes
      exact ⟨cl, u, isFunction, found_of_prefix extended.closures closure,
        found_of_prefix extended.userdata payload⟩
  | some (.mem_var val) =>
      obtain ⟨u, isUserdata, payload⟩ := denotes
      exact ⟨u, isUserdata, found_of_prefix extended.userdata payload⟩

theorem Denotes.nil_iff (denotes : Denotes bindings L value slot) :
    value = .nil ↔ slot = none := by
  match slot with
  | none => exact iff_of_true denotes rfl
  | some (.string s) => simp [show value = _ from denotes]
  | some (.cfunction f) =>
      obtain ⟨cl, rfl, _⟩ := denotes
      simp
  | some (.functor func) =>
      obtain ⟨cl, u, rfl, _⟩ := denotes
      simp
  | some (.mem_var val) =>
      obtain ⟨u, rfl, _⟩ := denotes
      simp

theorem Denotes.not_table (denotes : Denotes bindings L value slot) : value ≠ .table h := by
  rintro rfl
  match slot with
  | none => exact LuaValue.noConfusion denotes
  | some (.string s) => exact LuaValue.noConfusion denotes
  | some (.cfunction f) =>
      obtain ⟨cl, isFunction, _⟩ := denotes
      contradiction
  | some (.functor func) =>
      obtain ⟨cl, u, isFunction, _⟩ := denotes
      contradiction
  | some (.mem_var val) =>
      obtain ⟨u, isUserdata, _⟩ := denotes
      contradiction

theorem Holds.mono (holds : Holds bindings L h members) (extended : Extends L L')
    (same : ∀ key, (L'.heap.table h).rawget key = (L.heap.table h).rawget key) :
    Holds bindings L' h members where
  inside := holds.inside.trans_le extended.size
  entry name := by
    rw [same]
    exact (holds.entry name).mono extended

theorem Holds.newtable : Holds bindings L.newtable L.heap.size (fun _ => none) where
  inside := by simp [Thread.newtable]
  entry name := by
    rw [Thread.newtable, Heap.table_alloc_new]
    rfl

theorem Holds.newtable_old (holds : Holds bindings L h members) :
    Holds bindings L.newtable h members :=
  holds.mono (.newtable L) fun key => by rw [Thread.newtable_table]

theorem Holds.rawset_of_ne {other : Nat} (holds : Holds bindings L h members)
    (apart : h ≠ other) (key : CString) (value : LuaValue) :
    Holds bindings (L.rawset other key value) h members :=
  holds.mono (.rawset L other key value) fun _ => by rw [Thread.rawset_table_of_ne L apart]

theorem denotes_close (f : CFunction) (cl : Nat) (isLast : L.closures.length = cl) :
    Denotes bindings (L.close f []) (.function cl) (some (.cfunction f)) :=
  ⟨cl, rfl, by simp [← isLast]⟩

theorem Holds.close (holds : Holds bindings L h members) (f : CFunction)
    (upvalue : List LuaValue) : Holds bindings (L.close f upvalue) h members :=
  holds.mono (.close L f upvalue) fun _ => rfl

/-- A key that is assigned denotes the value it is given. -/
theorem Holds.rawset (holds : Holds bindings L h members) (key : CString)
    (denotes : Denotes bindings L value slot) :
    Holds bindings (L.rawset h key value) h (Function.update members key slot) where
  inside := holds.inside.trans_le (Extends.rawset L h key value).size
  entry name := by
    rw [Thread.rawset_table_self L holds.inside]
    by_cases same : name = key
    · rw [same, Function.update_self, Table.rawget_rawset_self]
      exact denotes.mono (.rawset L h key value)
    · rw [Function.update_of_ne same, Table.rawget_rawset_of_ne _ _ _ (CString.key_ne same)]
      exact (holds.entry name).mono (.rawset L h key value)

theorem Holds.setmetatable (holds : Holds bindings L h members) (other m : Nat) :
    Holds bindings (L.setmetatable other m) h members := by
  apply holds.mono (.setmetatable L other m)
  intro key
  by_cases same : h = other
  · rw [← same, Thread.setmetatable, Heap.lua_setmetatable,
      Heap.table_update_self _ _ holds.inside]
    rfl
  · rw [Thread.setmetatable_table_of_ne L same]

theorem Holds.ne {other : Nat} {others : Members Func Variable CFunction} {name : CString}
    (first : Holds bindings L h members) (second : Holds bindings L other others)
    (has : (members name).isSome) (lacks : others name = none) : other ≠ h := by
  rintro rfl
  have isNil := (second.entry name).nil_iff.mpr lacks
  rw [(first.entry name).nil_iff.mp isNil] at has
  contradiction

/-- No entry of it is a table, and among the globals there is one. -/
theorem Holds.ne_globals {name : CString} {other : Nat} (holds : Holds bindings L h members)
    (found : L.global name = .table other) : h ≠ L.globals := by
  rintro rfl
  exact (holds.entry name).not_table found

theorem IsClass.mono {name : CString} (isClass : IsClass bindings L name h members)
    (extended : Extends L L') (same : L'.global name = L.global name)
    (tables : ∀ g, g = h ∨ (L.heap.table h).metatable = some g →
      L'.heap.table g = L.heap.table g) : IsClass bindings L' name h members where
  found := same.trans isClass.found
  holds := isClass.holds.mono extended fun key => by rw [tables h (.inl rfl)]
  metatable m isMetatable := by
    rw [tables h (.inl rfl)] at isMetatable
    obtain ⟨func, constructor⟩ := isClass.metatable m isMetatable
    exact ⟨func, constructor.mono extended fun key => by rw [tables m (.inr isMetatable)]⟩

theorem IsClass.newindex {name : CString} (isClass : IsClass bindings L name h members) :
    L.heap.luaL_getmetafield h "__newindex" = .nil := by
  rw [Heap.luaL_getmetafield]
  cases isMetatable : (L.heap.table h).metatable with
  | none => rfl
  | some m =>
      obtain ⟨func, constructor⟩ := isClass.metatable m isMetatable
      exact (constructor.entry metaNewindex).nil_iff.mpr
        (constructorMembers_of_ne func (by decide +kernel))

end Rules

/-! ## The registry in the state of Lua -/

/-- `class_add` has been called for the type, so that its buffer is not empty. -/
def World.Registered (world : World Object Func Variable CFunction) (object : Object) : Prop :=
  world.temp object ≠ .empty

/-- The class table of a type, which is found as the functions of the source find it. -/
def World.classTable (world : World Object Func Variable CFunction) (object : Object) :
    Option (Nat × Table) :=
  if world.temp object = .empty then
    none
  else
    match world.L.global (world.temp object) with
    | .table h => some (h, world.L.heap.table h)
    | _ => none

/-- The table is none of those that classes are made of. -/
def World.Apart (world : World Object Func Variable CFunction) (h : Nat) : Prop :=
  h ≠ world.L.globals ∧
    ∀ object, ∀ found ∈ world.classTable object, h ≠ found.1 ∧ found.2.metatable ≠ some h

structure Represents (bindings : Bindings Object Func CFunction)
    (world : World Object Func Variable CFunction)
    (registry : Registry Object Func Variable CFunction) : Prop where
  plain : world.Plain
  inside : world.L.globals < world.L.heap.size
  flags : world.m_bCreated = registry.created
  created : ∀ object builder, registry.created object builder = true →
    (registry.classes object).isSome
  unregistered : ∀ object, registry.classes object = none → world.temp object = .empty
  named : ∀ object, (registry.classes object).isSome → world.temp object = bindings.name object
  isClass : ∀ object members, registry.classes object = some members →
    ∃ h, IsClass bindings world.L (bindings.name object) h members
  slot : ∀ object members, registry.classes object = some members → (members metaName).isSome
  apart : ∀ object other h, (registry.classes object).isSome → (registry.classes other).isSome →
    world.L.global (bindings.name object) = .table h →
      world.L.global (bindings.name other) = .table h → object = other

/-- A change to the class of one type: the class gets the members, and what the other
classes and the globals are made of stays. -/
structure Change (bindings : Bindings Object Func CFunction) (object : Object)
    (world : World Object Func Variable CFunction)
    (registry : Registry Object Func Variable CFunction)
    (members : Members Func Variable CFunction)
    (next : World Object Func Variable CFunction) : Prop where
  stack : next.L.stack = world.L.stack
  extended : Extends world.L next.L
  plain : next.Plain
  flags : next.m_bCreated = world.m_bCreated
  buffer : next.temp object = bindings.name object
  temp : ∀ other, other ≠ object → next.temp other = world.temp other
  global : ∀ other, other ≠ object →
    next.L.global (bindings.name other) = world.L.global (bindings.name other)
  tables : ∀ g < world.L.heap.size, g ≠ world.L.globals →
    ((registry.classes object).isSome → world.L.global (bindings.name object) ≠ .table g) →
      next.L.heap.table g = world.L.heap.table g
  slot : (members metaName).isSome
  isClass : ∃ h, IsClass bindings next.L (bindings.name object) h members ∧
    (world.L.heap.size ≤ h ∨
      (registry.classes object).isSome ∧ world.L.global (bindings.name object) = .table h)

theorem Represents.classTable {bindings : Bindings Object Func CFunction} {object : Object}
    {world : World Object Func Variable CFunction}
    {registry : Registry Object Func Variable CFunction}
    {members : Members Func Variable CFunction} {h : Nat}
    (represents : Represents bindings world registry)
    (isMembers : registry.classes object = some members)
    (isClass : IsClass bindings world.L (bindings.name object) h members) :
    world.classTable object = some (h, world.L.heap.table h) := by
  rw [World.classTable, represents.named object (isMembers ▸ rfl), if_neg (bindings.named object),
    isClass.found]

section Change

variable {bindings : Bindings Object Func CFunction} {object : Object}
  {world next : World Object Func Variable CFunction}
  {registry : Registry Object Func Variable CFunction}
  {members : Members Func Variable CFunction}

/-- The table and the metatable of another class are left alone. -/
theorem Change.tables_other (change : Change bindings object world registry members next)
    (represents : Represents bindings world registry) {other : Object} (different : other ≠ object)
    {others : Members Func Variable CFunction} (isOther : registry.classes other = some others)
    {h : Nat} (isClass : IsClass bindings world.L (bindings.name other) h others) :
    ∀ g, g = h ∨ (world.L.heap.table h).metatable = some g →
      next.L.heap.table g = world.L.heap.table g := by
  rintro g (rfl | isMetatable)
  · apply change.tables g isClass.holds.inside (isClass.holds.ne_globals isClass.found)
    intro isSome own
    exact different (represents.apart other object g (isOther ▸ rfl) isSome isClass.found own)
  · obtain ⟨func, constructor⟩ := isClass.metatable g isMetatable
    apply change.tables g constructor.inside (constructor.ne_globals isClass.found)
    intro isSome own
    obtain ⟨ownMembers, isOwn⟩ := Option.isSome_iff_exists.mp isSome
    obtain ⟨ownHandle, ownClass⟩ := represents.isClass object ownMembers isOwn
    obtain rfl := LuaValue.table.inj (ownClass.found.symm.trans own)
    exact ownClass.holds.ne constructor (represents.slot object ownMembers isOwn)
      (constructorMembers_of_ne func (by decide +kernel)) rfl

theorem Change.classTable (change : Change bindings object world registry members next)
    (represents : Represents bindings world registry) {other : Object}
    (different : other ≠ object) : next.classTable other = world.classTable other := by
  rw [World.classTable, World.classTable, change.temp other different]
  cases isOther : registry.classes other with
  | none => 
      have isEmpty := represents.unregistered other isOther
      rw [if_pos isEmpty, if_pos isEmpty]
  | some others =>
      obtain ⟨h, isClass⟩ := represents.isClass other others isOther
      have same := change.tables_other represents different isOther isClass h (.inl rfl)
      rw [represents.named other (isOther ▸ rfl), change.global other different, isClass.found]
      dsimp only
      rw [same]

/-- The class of the type has a table of its own. -/
theorem Change.apart (change : Change bindings object world registry members next)
    (represents : Represents bindings world registry) {other : Object} (different : other ≠ object)
    (isSome : (registry.classes other).isSome) {h : Nat}
    (own : next.L.global (bindings.name object) = .table h) :
    next.L.global (bindings.name other) ≠ .table h := by
  intro shared
  rw [change.global other different] at shared
  obtain ⟨ownHandle, ownClass, fresh | ⟨isOwn, before⟩⟩ := change.isClass
  · obtain rfl := LuaValue.table.inj (ownClass.found.symm.trans own)
    obtain ⟨others, isOther⟩ := Option.isSome_iff_exists.mp isSome
    obtain ⟨otherHandle, otherClass⟩ := represents.isClass other others isOther
    obtain rfl := LuaValue.table.inj (otherClass.found.symm.trans shared)
    exact Nat.lt_irrefl _ (otherClass.holds.inside.trans_le fresh)
  · obtain rfl := LuaValue.table.inj (ownClass.found.symm.trans own)
    exact different (represents.apart other object ownHandle isSome isOwn shared before)

theorem Change.represents [DecidableEq Object]
    (change : Change bindings object world registry members next)
    (represents : Represents bindings world registry) :
    Represents bindings next (registry.setClass object members) where
  plain := change.plain
  inside := by
    rw [change.extended.globals]
    exact represents.inside.trans_le change.extended.size
  flags := change.flags.trans represents.flags
  created other builder flag := by
    by_cases same : other = object
    · rw [same, Registry.setClass_self]
      rfl
    · rw [Registry.setClass_of_ne same]
      exact represents.created other builder flag
  unregistered other isNone := by
    by_cases same : other = object
    · rw [same, Registry.setClass_self] at isNone
      contradiction
    · rw [Registry.setClass_of_ne same] at isNone
      rw [change.temp other same]
      exact represents.unregistered other isNone
  named other isSome := by
    by_cases same : other = object
    · rw [same]
      exact change.buffer
    · rw [Registry.setClass_of_ne same] at isSome
      rw [change.temp other same]
      exact represents.named other isSome
  isClass other others isOther := by
    by_cases same : other = object
    · rw [same, Registry.setClass_self, Option.some.injEq] at isOther
      obtain ⟨h, isClass, _⟩ := change.isClass
      rw [same, ← isOther]
      exact ⟨h, isClass⟩
    · rw [Registry.setClass_of_ne same] at isOther
      obtain ⟨h, isClass⟩ := represents.isClass other others isOther
      exact ⟨h, isClass.mono change.extended (change.global other same)
        (change.tables_other represents same isOther isClass)⟩
  slot other others isOther := by
    by_cases same : other = object
    · rw [same, Registry.setClass_self, Option.some.injEq] at isOther
      rw [← isOther]
      exact change.slot
    · rw [Registry.setClass_of_ne same] at isOther
      exact represents.slot other others isOther
  apart first second h isFirst isSecond found foundSecond := by
    by_cases sameFirst : first = object
    · by_cases sameSecond : second = object
      · exact sameFirst.trans sameSecond.symm
      · rw [Registry.setClass_of_ne sameSecond] at isSecond
        rw [sameFirst] at found
        exact absurd foundSecond (change.apart represents sameSecond isSecond found)
    · rw [Registry.setClass_of_ne sameFirst] at isFirst
      by_cases sameSecond : second = object
      · rw [sameSecond] at foundSecond
        exact absurd found (change.apart represents sameFirst isFirst foundSecond)
      · rw [Registry.setClass_of_ne sameSecond] at isSecond
        rw [change.global first sameFirst] at found
        rw [change.global second sameSecond] at foundSecond
        exact represents.apart first second h isFirst isSecond found foundSecond

end Change

end LuaEngine.Tinker
