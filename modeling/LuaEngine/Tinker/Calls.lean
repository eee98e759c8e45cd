import LuaEngine.Tinker.ClassTable

/-!
# Calls of the builders

Every call changes the class of its own type at most, and brings the class tables where
the registry goes.
-/

namespace LuaEngine.Tinker

open LuaEngine.Codec LuaEngine.Lua LuaEngine.System

variable {Object Func Variable CFunction : Type} {bindings : Bindings Object Func CFunction}

section Thread

variable {L L' : Thread CFunction (Payload Func Variable)} {h : Nat}
  {members : Members Func Variable CFunction}

/-- More closures and userdata, and the same tables. -/
structure SameTables (L L' : Thread CFunction (Payload Func Variable)) : Prop where
  stack : L'.stack = L.stack
  heap : L'.heap = L.heap
  extended : Extends L L'

theorem SameTables.global (same : SameTables L L') (name : CString) :
    L'.global name = L.global name := by
  rw [Thread.global, Thread.global, same.heap, same.extended.globals]

theorem IsClass.sameTables {name : CString} (isClass : IsClass bindings L name h members)
    (same : SameTables L L') : IsClass bindings L' name h members :=
  isClass.mono same.extended (same.global name) fun g _ => by rw [same.heap]

/-- A member is assigned in the class table. -/
theorem IsClass.rawset {name key : CString} {value : LuaValue}
    {slot : Option (Slot Func Variable CFunction)} (isClass : IsClass bindings L name h members)
    (isSome : (members metaName).isSome) (denotes : Denotes bindings L value slot) :
    IsClass bindings (L.rawset h key value) name h (Function.update members key slot) where
  found := by
    rw [L.rawset_global_of_ne (isClass.holds.ne_globals isClass.found).symm]
    exact isClass.found
  holds := isClass.holds.rawset key denotes
  metatable m isMetatable := by
    rw [Thread.rawset_metatable] at isMetatable
    obtain ⟨func, constructor⟩ := isClass.metatable m isMetatable
    have apart : m ≠ h :=
      isClass.holds.ne constructor isSome (constructorMembers_of_ne func (by decide +kernel))
    refine ⟨func, constructor.mono (.rawset L h key value) fun other => ?_⟩
    rw [L.rawset_table_of_ne apart]

theorem table_setConstructor {func : CFunction} {g : Nat} (inside : g < L.heap.size)
    (apart : g ≠ h) : (setConstructor func h L).heap.table g = L.heap.table g := by
  rw [setConstructor, Thread.setmetatable_table_of_ne _ apart,
    Thread.rawset_table_of_ne _ inside.ne, Thread.close_heap, Thread.newtable_table]

theorem extends_setConstructor {func : CFunction} : Extends L (setConstructor func h L) :=
  (((Extends.newtable _).trans (.close _ _ _)).trans (.rawset _ _ _ _)).trans
    (.setmetatable _ _ _)

/-- The class keeps its members and gets a metatable with `__call`. -/
theorem IsClass.constructed {name : CString} (isClass : IsClass bindings L name h members)
    (globals : L.globals < L.heap.size) (func : CFunction) :
    IsClass bindings (setConstructor func h L) name h members where
  found := by
    have notGlobals := isClass.holds.ne_globals isClass.found
    rw [Thread.global, extends_setConstructor.globals, table_setConstructor globals notGlobals.symm]
    exact isClass.found
  holds :=
    ((isClass.holds.newtable_old.close func []).rawset_of_ne isClass.holds.inside.ne _ _
      ).setmetatable _ _
  metatable m isMetatable := by
    have inside : h < ((L.newtable.close func []).rawset L.heap.size metaCall
        (.function L.closures.length)).heap.size :=
      isClass.holds.inside.trans_le
        (((Extends.newtable L).trans (.close _ func [])).trans (.rawset _ _ _ _)).size
    rw [setConstructor, Thread.setmetatable_metatable_self _ inside, Option.some.injEq]
      at isMetatable
    rw [← isMetatable]
    exact ⟨func,
      ((Holds.newtable.close func []).rawset metaCall (denotes_close func _ rfl)).setmetatable h _⟩

theorem table_newClass (object : Object) (name : CString) {g : Nat} (inside : g < L.heap.size) :
    (newClass bindings object name L).heap.table g = L.heap.table g := by
  simp [newClass, Thread.rawset_table_of_ne _ inside.ne]

theorem extends_newClass (object : Object) (name : CString) :
    Extends L (newClass bindings object name L) := by
  have closure (L : Thread CFunction (Payload Func Variable)) (f : CFunction) (key : CString)
      (h : Nat) (value : LuaValue) : Extends L ((L.close f []).rawset h key value) :=
    (Extends.close L f []).trans (.rawset _ h key value)
  have named := (Extends.newtable L).trans (.rawset _ L.heap.size metaName (.string name.bytes))
  exact ((named.trans (closure _ bindings.meta_get _ _ _)).trans
    (closure _ bindings.meta_set _ _ _)).trans (closure _ (bindings.destroyer object) _ _ _)

theorem global_newClass (object : Object) (name : CString) (inside : L.globals < L.heap.size)
    (other : CString) : (newClass bindings object name L).global other = L.global other :=
  congrArg (fun table : Table => table.rawget _) (table_newClass object name inside)

theorem inside_newClass (bindings : Bindings Object Func CFunction) (object : Object)
    (name : CString) (inside : L.globals < L.heap.size) :
    (newClass bindings object name L).globals < (newClass bindings object name L).heap.size :=
  inside.trans_le (extends_newClass object name).size

theorem metatable_newClass (object : Object) (name : CString) :
    ((newClass bindings object name L).heap.table L.heap.size).metatable = none := by
  have isEmpty : L.heap.table L.heap.size = .empty := List.getD_eq_default _ _ (Nat.le_refl _)
  simp [newClass, isEmpty, Table.empty]

theorem holds_newClass (object : Object) :
    Holds bindings (newClass bindings object (bindings.name object) L) L.heap.size
      (standardMembers bindings object) := by
  have isName : Denotes bindings L.newtable (.string (bindings.name object).bytes)
      (some (.string (bindings.name object))) := rfl
  have named := Holds.newtable.rawset metaName isName
  have indexed := (named.close bindings.meta_get []).rawset metaIndex
    (denotes_close bindings.meta_get L.closures.length rfl)
  have assigned := (indexed.close bindings.meta_set []).rawset metaNewindex
    (denotes_close bindings.meta_set (L.closures.length + 1) (by simp))
  exact (assigned.close (bindings.destroyer object) []).rawset metaGc
    (denotes_close (bindings.destroyer object) (L.closures.length + 2) (by simp))

end Thread

theorem standardMembers_isSome (object : Object) :
    ((standardMembers bindings object : Members Func Variable CFunction) metaName).isSome := by
  rw [standardMembers, Function.update_of_ne (by decide +kernel),
    Function.update_of_ne (by decide +kernel), Function.update_of_ne (by decide +kernel),
    Function.update_self]
  rfl

section Change

variable {world : World Object Func Variable CFunction}
  {registry : Registry Object Func Variable CFunction} {object : Object}
  {members : Members Func Variable CFunction} {h : Nat} 

/-- What `def`, `def2` and `mem` do to the class of a registered type. -/
theorem change_bind (represents : Represents bindings world registry)
    (isMembers : registry.classes object = some members)
    (isClass : IsClass bindings world.L (bindings.name object) h members)
    {L' : Thread CFunction (Payload Func Variable)} (same : SameTables world.L L')
    {value : LuaValue} {slot : Slot Func Variable CFunction}
    (denotes : Denotes bindings L' value (some slot)) (key : CString) :
    Change bindings object world registry (Function.update members key (some slot))
      (world.onThread fun _ => L'.rawset h key value) where
  stack := same.stack
  extended := same.extended.trans (.rawset L' h key value)
  plain := by
    have plain := represents.plain
    unfold World.Plain at plain ⊢
    dsimp only [World.onThread]
    rw [Thread.rawset_metatable, Thread.rawset_globals, same.heap, same.extended.globals]
    exact plain
  flags := rfl
  buffer := represents.named object (isMembers ▸ rfl)
  temp _ _ := rfl
  global other _ := by
    have notGlobals := isClass.holds.ne_globals isClass.found
    rw [← same.extended.globals] at notGlobals
    exact (L'.rawset_global_of_ne notGlobals.symm key value _).trans (same.global _)
  tables g inside notGlobals own := by
    have apart : g ≠ h := fun isOwn =>
      own (isMembers ▸ rfl) (isOwn ▸ isClass.found)
    exact (L'.rawset_table_of_ne apart key value).trans (by rw [same.heap])
  slot := by
    by_cases isName : metaName = key
    · rw [isName, Function.update_self]
      rfl
    · rw [Function.update_of_ne isName]
      exact represents.slot object members isMembers
  isClass := by
    have isSome := represents.slot object members isMembers
    exact ⟨h, (isClass.sameTables same).rawset isSome denotes,
      .inr ⟨isMembers ▸ rfl, isClass.found⟩⟩

/-- What `class_con` does to it. -/
theorem change_constructor (represents : Represents bindings world registry)
    (isMembers : registry.classes object = some members)
    (isClass : IsClass bindings world.L (bindings.name object) h members) (func : CFunction) :
    Change bindings object world registry members (world.onThread (setConstructor func h)) where
  stack := rfl
  extended := extends_setConstructor
  plain := by
    have notGlobals := isClass.holds.ne_globals isClass.found
    exact (congrArg Table.metatable (table_setConstructor represents.inside notGlobals.symm)).trans
      represents.plain
  flags := rfl
  buffer := represents.named object (isMembers ▸ rfl)
  temp _ _ := rfl
  global other _ := by
    have notGlobals := isClass.holds.ne_globals isClass.found
    exact congrArg (fun table : Table => table.rawget _)
      (table_setConstructor represents.inside notGlobals.symm)
  tables g inside notGlobals own := by
    have apart : g ≠ h := fun isOwn =>
      own (isMembers ▸ rfl) (isOwn ▸ isClass.found)
    exact table_setConstructor inside apart
  slot := represents.slot object members isMembers
  isClass :=
    ⟨h, isClass.constructed represents.inside func, .inr ⟨isMembers ▸ rfl, isClass.found⟩⟩

/-- What `class_add` does. -/
theorem change_add [DecidableEq Object] (represents : Represents bindings world registry) :
    Change bindings object world registry (standardMembers bindings object)
      { world with
        L := (newClass bindings object (bindings.name object) world.L).rawset world.L.globals
          (bindings.name object) (.table world.L.heap.size)
        temp := Function.update world.temp object (bindings.name object) } where
  stack := rfl
  extended := (extends_newClass object _).trans (.rawset _ _ _ _)
  plain := by
    have plain : (world.L.heap.table world.L.globals).metatable = none := represents.plain
    rw [World.Plain, Thread.rawset_metatable, Thread.rawset_globals,
      (extends_newClass _ _).globals, table_newClass _ _ represents.inside]
    exact plain
  flags := rfl
  buffer := Function.update_self _ _ _
  temp other different := Function.update_of_ne different _ _
  global other different := by
    have apart : bindings.name other ≠ bindings.name object := fun same =>
      different (bindings.distinct same)
    have inside := inside_newClass bindings object (bindings.name object)
      represents.inside
    exact (Thread.rawset_global_other _ inside apart _).trans
      (global_newClass object _ represents.inside _)
  tables g inside notGlobals _ :=
    (Thread.rawset_table_of_ne _ notGlobals _ _).trans (table_newClass object _ inside)
  slot := standardMembers_isSome object
  isClass := by
    have inside := inside_newClass bindings object (bindings.name object)
      represents.inside
    refine ⟨world.L.heap.size, ⟨Thread.rawset_global_self _ inside _ _, ?_, ?_⟩,
      .inl (Nat.le_refl _)⟩
    · exact (holds_newClass object).rawset_of_ne represents.inside.ne' _ _
    · intro m isMetatable
      rw [Thread.rawset_metatable, metatable_newClass] at isMetatable
      contradiction

end Change

/-! ## What a call leaves -/

/-- A table under the empty name, where a type that is not registered is looked for, is no
class. -/
def World.Harmless (world : World Object Func Variable CFunction) : Prop :=
  ∀ h ∈ (world.L.global .empty).handle, world.Apart h

/-- And `lua_settable` finds one and assigns in it. -/
def World.Assignable (world : World Object Func Variable CFunction) : Prop :=
  ∃ h ∈ (world.L.global .empty).handle,
    world.Apart h ∧ world.L.heap.luaL_getmetafield h "__newindex" = .nil

/-- The stack, the class tables of other types and what the tables stand for. -/
structure Follows (bindings : Bindings Object Func CFunction) (object : Object)
    (world : World Object Func Variable CFunction)
    (registry : Registry Object Func Variable CFunction)
    (next : World Object Func Variable CFunction) : Prop where
  stack : next.L.stack = world.L.stack
  others : ∀ other, other ≠ object → next.classTable other = world.classTable other
  represents : Represents bindings next registry

/-- The call returns. -/
def follows (bindings : Bindings Object Func CFunction) (object : Object)
    (world : World Object Func Variable CFunction)
    (registry : Registry Object Func Variable CFunction) :
    Postcondition (World Object Func Variable CFunction) Failure Unit :=
  ⟨fun _ next => Follows bindings object world registry next, fun _ _ => False, False⟩

section Follows

variable {world next final : World Object Func Variable CFunction}
  {registry later : Registry Object Func Variable CFunction} {object : Object}

theorem Follows.refl (represents : Represents bindings world registry) (object : Object) :
    Follows bindings object world registry world :=
  ⟨rfl, fun _ _ => rfl, represents⟩

theorem Follows.trans (first : Follows bindings object world registry next)
    (second : Follows bindings object next later final) :
    Follows bindings object world later final where
  stack := second.stack.trans first.stack
  others other different := (second.others other different).trans (first.others other different)
  represents := second.represents

/-- One call after another for the same type. -/
theorem follows_bind {program : Builder Object Func Variable CFunction Unit}
    {rest : Unit → Builder Object Func Variable CFunction Unit}
    (first : (program.run world).Meets (follows bindings object world registry))
    (second : ∀ next, Represents bindings next registry →
      ((rest ()).run next).Meets (follows bindings object next later)) :
    ((program >>= rest).run world).Meets (follows bindings object world later) := by
  apply Program.bind_meets.mpr
  apply first.weaken
  intro _ next followed
  apply (second next followed.represents).weaken
  exact fun _ final => followed.trans

section Apart

variable {h : Nat} {L' : Thread CFunction (Payload Func Variable)}

theorem World.Apart.global (apart : world.Apart h) (same : SameTables world.L L') (key : CString)
    (value : LuaValue) (name : CString) :
    (L'.rawset h key value).global name = world.L.global name := by
  have notGlobals := apart.1.symm
  rw [← same.extended.globals] at notGlobals
  exact (L'.rawset_global_of_ne notGlobals key value name).trans (same.global name)

theorem SameTables.table_rawset (same : SameTables world.L L') {g : Nat} (different : g ≠ h)
    (key : CString) (value : LuaValue) :
    (L'.rawset h key value).heap.table g = world.L.heap.table g := by
  rw [L'.rawset_table_of_ne different, same.heap]

theorem World.Apart.isClass (apart : world.Apart h)
    (represents : Represents bindings world registry) {other : Object}
    {members : Members Func Variable CFunction} (isOther : registry.classes other = some members) :
    ∃ g, IsClass bindings world.L (bindings.name other) g members ∧ g ≠ h ∧
      (world.L.heap.table g).metatable ≠ some h := by
  obtain ⟨g, isClass⟩ := represents.isClass other members isOther
  obtain ⟨different, metatable⟩ := apart.2 other _ (represents.classTable isOther isClass)
  exact ⟨g, isClass, different.symm, metatable⟩

theorem World.Apart.classTable (apart : world.Apart h)
    (represents : Represents bindings world registry) (same : SameTables world.L L')
    (key : CString) (value : LuaValue) (other : Object) :
    (world.onThread fun _ => L'.rawset h key value).classTable other =
      world.classTable other := by
  unfold World.classTable
  cases isOther : registry.classes other with
  | none =>
      have isEmpty := represents.unregistered other isOther
      simp only [World.onThread, isEmpty, if_true]
  | some members =>
      obtain ⟨g, isClass, different, -⟩ := apart.isClass represents isOther
      have isNamed := represents.named other (isOther ▸ rfl)
      simp only [World.onThread, apart.global same, isNamed, isClass.found,
        same.table_rawset different]

theorem World.Apart.represents (apart : world.Apart h)
    (represents : Represents bindings world registry) (same : SameTables world.L L')
    (key : CString) (value : LuaValue) :
    Represents bindings (world.onThread fun _ => L'.rawset h key value) registry := by
  have extended : Extends world.L (L'.rawset h key value) :=
    same.extended.trans (.rawset L' h key value)
  refine ⟨?_, ?_, represents.flags, represents.created, represents.unregistered,
    represents.named, ?_, represents.slot, ?_⟩
  · have plain := represents.plain
    unfold World.Plain at plain ⊢
    simp only [World.onThread, Thread.rawset_metatable, Thread.rawset_globals, same.heap,
      same.extended.globals, plain]
  · simp only [World.onThread, extended.globals]
    exact represents.inside.trans_le extended.size
  · intro other members isOther
    obtain ⟨g, isClass, different, metatable⟩ := apart.isClass represents isOther
    refine ⟨g, isClass.mono extended (apart.global same key value _) ?_⟩
    rintro g' (rfl | isMetatable)
    · exact same.table_rawset different key value
    · apply same.table_rawset _ key value
      rintro rfl
      exact metatable isMetatable
  · intro first second g isFirst isSecond found foundSecond
    simp only [World.onThread, apart.global same] at found foundSecond
    exact represents.apart first second g isFirst isSecond found foundSecond

/-- What is assigned in a table that no class is made of changes no class. -/
theorem Follows.rawset_apart (represents : Represents bindings world registry)
    (apart : world.Apart h) (same : SameTables world.L L') (object : Object) (key : CString)
    (value : LuaValue) :
    Follows bindings object world registry (world.onThread fun _ => L'.rawset h key value) :=
  ⟨same.stack, fun other _ => apart.classTable represents same key value other,
    apart.represents represents same key value⟩

end Apart

variable [DecidableEq Object]

theorem Change.follows {members : Members Func Variable CFunction}
    (change : Change bindings object world registry members next)
    (represents : Represents bindings world registry) :
    Follows bindings object world (registry.setClass object members) next :=
  ⟨change.stack, fun _ => change.classTable represents, change.represents represents⟩

variable {tms : Metamethods}

theorem class_add_follows (represents : Represents bindings world registry)
    (fits : (bindings.name object).bytes.length < tempSize) :
    ((class_add tms bindings object (bindings.name object)).run world).Meets
      (follows bindings object world (registry.add bindings object)) :=
  (class_add_meets represents.plain fits).mpr ((change_add represents).follows represents)

theorem class_con_follows (represents : Represents bindings world registry)
    (isSome : (registry.classes object).isSome) (func : CFunction) :
    ((class_con tms object func).run world).Meets (follows bindings object world registry) := by
  obtain ⟨members, isMembers⟩ := Option.isSome_iff_exists.mp isSome
  obtain ⟨h, isClass⟩ := represents.isClass object members isMembers
  have found : world.L.global (world.temp object) = .table h := by
    rw [represents.named object isSome]
    exact isClass.found
  apply (class_con_meets represents.plain found func).mpr
  have followed := (change_constructor represents isMembers isClass func).follows represents
  rw [Registry.setClass_eq isMembers] at followed
  exact followed

/-- A member call on a type with a class. -/
theorem bind_follows (represents : Represents bindings world registry)
    {members : Members Func Variable CFunction}
    (isMembers : registry.classes object = some members) :
    ∃ h, world.L.global (world.temp object) = .table h ∧
      world.L.heap.luaL_getmetafield h "__newindex" = .nil ∧
        ∀ L' value slot key, SameTables world.L L' → Denotes bindings L' value (some slot) →
          Follows bindings object world (registry.bind object key slot)
            (world.onThread fun _ => L'.rawset h key value) := by
  obtain ⟨h, isClass⟩ := represents.isClass object members isMembers
  refine ⟨h, ?_, isClass.newindex, ?_⟩
  · rw [represents.named object (isMembers ▸ rfl)]
    exact isClass.found
  · intro L' value slot key same denotes
    rw [Registry.bind_of_some isMembers]
    exact (change_bind represents isMembers isClass same denotes key).follows represents

/-- What `def` and `mem` have in common: without a class they do nothing to any. -/
theorem withClass_follows (represents : Represents bindings world registry)
    (allowed : world.Registered object ∨ world.Harmless)
    {body : Api CFunction (Payload Func Variable) Unit}
    {L' : Thread CFunction (Payload Func Variable)} {name : CString} {value : LuaValue}
    {slot : Slot Func Variable CFunction} (same : SameTables world.L L')
    (denotes : Denotes bindings L' value (some slot))
    (does : ∀ h post, (body.run (world.L.push (.table h))).Meets post ↔
      post.returned () ((L'.rawset h name value).push (.table h))) :
    ((withClass tms object body).run world).Meets
      (follows bindings object world (registry.bind object name slot)) := by
  cases isClass : registry.classes object with
  | none =>
      have isEmpty := represents.unregistered object isClass
      have harmless := allowed.resolve_left (not_not_intro isEmpty)
      rw [Registry.bind_of_none isClass]
      cases found : (world.L.global .empty).handle with
      | none =>
          rw [← isEmpty] at found
          exact (withClass_not_found represents.plain found).mpr (.refl represents object)
      | some h =>
          have isTable := LuaValue.handle_eq_some.mp found
          rw [← isEmpty] at isTable
          exact (withClass_meets represents.plain isTable (does h)).mpr
            (.rawset_apart represents (harmless h found) same object name value)
  | some members =>
      obtain ⟨h, found, _, binds⟩ := bind_follows represents isClass
      exact (withClass_meets represents.plain found (does h)).mpr (binds _ _ _ _ same denotes)

theorem class_def_follows (represents : Represents bindings world registry)
    (allowed : world.Registered object ∨ world.Harmless) (name : CString) (func : Func) :
    ((class_def tms bindings object name func).run world).Meets
      (follows bindings object world (registry.bind object name (.functor func))) := by
  have same : SameTables world.L ((world.L.construct (.functor func)).close
      (bindings.invoke func) [.userdata world.L.userdata.length]) :=
    ⟨rfl, rfl, (Extends.construct _ _).trans (.close _ _ _)⟩
  have denotes : Denotes bindings ((world.L.construct (.functor func)).close
      (bindings.invoke func) [.userdata world.L.userdata.length])
      (.function world.L.closures.length) (some (.functor func)) :=
    ⟨_, world.L.userdata.length, rfl, by simp, by simp [Thread.construct, Thread.close]⟩
  exact withClass_follows represents allowed same denotes fun h post => by simp

theorem class_mem_follows (represents : Represents bindings world registry)
    (allowed : world.Registered object ∨ world.Harmless) (name : CString) (val : Variable) :
    ((class_mem tms object name val).run world).Meets
      (follows bindings object world (registry.bind object name (.mem_var val))) := by
  have same : SameTables world.L (world.L.construct (.mem_var val)) :=
    ⟨rfl, rfl, .construct _ _⟩
  have denotes : Denotes bindings (world.L.construct (.mem_var val))
      (.userdata world.L.userdata.length) (some (.mem_var val)) :=
    ⟨_, rfl, by simp [Thread.construct]⟩
  exact withClass_follows represents allowed same denotes fun h post => by simp

theorem RegisterMyFunc_follows (represents : Represents bindings world registry)
    (allowed : world.Registered object ∨ world.Assignable) (name : CString) (f : CFunction) :
    ((RegisterMyFunc tms object name f).run world).Meets
      (follows bindings object world (registry.bind object name (.cfunction f))) := by
  cases isClass : registry.classes object with
  | none =>
      have isEmpty := represents.unregistered object isClass
      obtain ⟨h, found, apart, unset⟩ := allowed.resolve_left (not_not_intro isEmpty)
      have isTable := LuaValue.handle_eq_some.mp found
      rw [← isEmpty] at isTable
      rw [Registry.bind_of_none isClass]
      apply (RegisterMyFunc_meets represents.plain isTable unset name f).mpr
      have same : SameTables world.L (world.L.close f []) := ⟨rfl, rfl, .close _ _ _⟩
      exact .rawset_apart represents apart same object name _
  | some members =>
      obtain ⟨h, found, unset, binds⟩ := bind_follows represents isClass
      apply (RegisterMyFunc_meets represents.plain found unset name f).mpr
      exact binds _ _ _ _ ⟨rfl, rfl, .close _ _ _⟩ (denotes_close f _ rfl)

end Follows

end LuaEngine.Tinker
