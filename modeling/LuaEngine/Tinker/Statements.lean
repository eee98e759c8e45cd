import LuaEngine.Tinker.Parents

/-!
# The builder and `class_inh`

The calls that make types known to Lua, in any order in which a type is registered before
it is used: what they leave are the class tables of the builder, each with the parent
that was set last.
-/

namespace LuaEngine.Tinker

open LuaEngine.Codec LuaEngine.Lua LuaEngine.System

variable {Object Func Variable CFunction : Type}

/-- A call of the builder or of one of the functions next to it. -/
inductive Statement (Object Func Variable CFunction : Type) where
  | builder (call : Call Object Func Variable CFunction)
  | class_inh (T P : Object)
  | class_con (T : Object) (func : CFunction)

section Code

variable [DecidableEq Object] (tms : Metamethods) (bindings : Bindings Object Func CFunction)

def Statement.execute :
    Statement Object Func Variable CFunction → Builder Object Func Variable CFunction Unit
  | .builder call => LuaClass.execute tms bindings call
  | .class_inh T P => Tinker.class_inh tms T P
  | .class_con T func => Tinker.class_con tms T func

/-- A call that returns. -/
def Statement.step (world : World Object Func Variable CFunction)
    (statement : Statement Object Func Variable CFunction) :
    Option (World Object Func Variable CFunction) :=
  match (statement.execute tms bindings).run world with
  | .returned _ next => some next
  | _ => none

def Statement.machine (start : World Object Func Variable CFunction) :
    Machine (World Object Func Variable CFunction) (Statement Object Func Variable CFunction) :=
  ⟨start, Statement.step tms bindings⟩

end Code

def builderCalls (history : List (Statement Object Func Variable CFunction)) :
    List (Call Object Func Variable CFunction) :=
  history.filterMap fun statement =>
    match statement with
    | .builder call => some call
    | _ => none

/-- The table of a class. -/
def World.handleOf (bindings : Bindings Object Func CFunction)
    (world : World Object Func Variable CFunction) (object : Object) : Nat :=
  match world.L.global (bindings.name object) with
  | .table h => h
  | _ => 0

section Histories

variable [DecidableEq Object]

/-- What a type inherits from: the last `class_inh` says it, as long as the table that it
was called for is the class. -/
def parentOf (object : Object) : List (Statement Object Func Variable CFunction) → Option Object
  | [] => none
  | .builder call :: earlier =>
      if call.object = object ∧ makesTable call (builderCalls earlier) = true then none
      else parentOf object earlier
  | .class_inh T P :: earlier => if T = object then some P else parentOf object earlier
  | .class_con _ _ :: earlier => parentOf object earlier

/-- A type is registered before its members are bound and before it inherits or is
inherited from, and not again while another type inherits from it.  No member is bound
to the name `__parent`. -/
def Statement.InOrder (bindings : Bindings Object Func CFunction)
    (history : List (Statement Object Func Variable CFunction)) :
    Statement Object Func Variable CFunction → Prop
  | .builder call =>
      (match call.operation with
        | .LuaClass => True
        | .create _ => (bindings.name call.object).bytes.length < tempSize
        | .class_add => (bindings.name call.object).bytes.length < tempSize
        | _ => registered call.object (builderCalls history) = true) ∧
      (call.operation.binding bindings).map Prod.fst ≠ some metaParent ∧
      (makesTable call (builderCalls history) = true →
        ∀ T, parentOf T history ≠ some call.object)
  | .class_inh T P =>
      registered T (builderCalls history) = true ∧ registered P (builderCalls history) = true
  | .class_con T _ => registered T (builderCalls history) = true

/-- Every statement is. -/
def InOrder (bindings : Bindings Object Func CFunction) :
    List (Statement Object Func Variable CFunction) →
      List (Statement Object Func Variable CFunction) → Prop
  | _, [] => True
  | history, statement :: statements =>
      statement.InOrder bindings history ∧ InOrder bindings (statement :: history) statements

instance decidableStatementInOrder [Fintype Object] (bindings : Bindings Object Func CFunction)
    (history : List (Statement Object Func Variable CFunction)) :
    ∀ statement : Statement Object Func Variable CFunction,
      Decidable (statement.InOrder bindings history)
  | .builder ⟨_, _, .LuaClass⟩ => inferInstanceAs (Decidable (True ∧ _ ∧ _))
  | .builder ⟨_, _, .create _⟩ => inferInstanceAs (Decidable (_ < _ ∧ _ ∧ _))
  | .builder ⟨_, _, .class_add⟩ => inferInstanceAs (Decidable (_ < _ ∧ _ ∧ _))
  | .builder ⟨_, _, .define _ _⟩ => inferInstanceAs (Decidable (_ = true ∧ _ ∧ _))
  | .builder ⟨_, _, .def2 _ _⟩ => inferInstanceAs (Decidable (_ = true ∧ _ ∧ _))
  | .builder ⟨_, _, .def_cpoint _⟩ => inferInstanceAs (Decidable (_ = true ∧ _ ∧ _))
  | .builder ⟨_, _, .mem _ _⟩ => inferInstanceAs (Decidable (_ = true ∧ _ ∧ _))
  | .class_inh _ _ => inferInstanceAs (Decidable (_ = true ∧ _ = true))
  | .class_con _ _ => inferInstanceAs (Decidable (_ = true))

instance decidableInOrder [Fintype Object] (bindings : Bindings Object Func CFunction) :
    ∀ history statements : List (Statement Object Func Variable CFunction),
      Decidable (InOrder bindings history statements)
  | _, [] => isTrue trivial
  | history, statement :: statements =>
      have := decidableInOrder bindings (statement :: history) statements
      inferInstanceAs (Decidable (_ ∧ _))

/-- The types that a type inherits from, the nearest first. -/
inductive Ancestors (parent : Object → Option Object) : Object → List Object → Prop
  | root {object : Object} : parent object = none → Ancestors parent object []
  | inherits {object next : Object} {ancestors : List Object} : parent object = some next →
      Ancestors parent next ancestors → Ancestors parent object (next :: ancestors)

end Histories

section Represents

variable {bindings : Bindings Object Func CFunction} {base : World Object Func Variable CFunction}
  {registry : Registry Object Func Variable CFunction} {T : Object}

/-- The class of a registered type. -/
theorem Represents.isClass_handleOf (represents : Represents bindings base registry)
    {members : Members Func Variable CFunction} (isMembers : registry.classes T = some members) :
    IsClass bindings base.L (bindings.name T) (base.handleOf bindings T) members := by
  obtain ⟨h, isClass⟩ := represents.isClass T members isMembers
  have isHandle : base.handleOf bindings T = h := by
    rw [World.handleOf, isClass.found]
  rw [isHandle]
  exact isClass

theorem Represents.global_handleOf (represents : Represents bindings base registry)
    (isSome : (registry.classes T).isSome) :
    base.L.global (bindings.name T) = .table (base.handleOf bindings T) := by
  obtain ⟨members, isMembers⟩ := Option.isSome_iff_exists.mp isSome
  exact (represents.isClass_handleOf isMembers).found

theorem Represents.handleOf_injective (represents : Represents bindings base registry)
    {other : Object} (isSome : (registry.classes T).isSome)
    (isOther : (registry.classes other).isSome)
    (same : base.handleOf bindings T = base.handleOf bindings other) : T = other := by
  apply represents.apart T other _ isSome isOther (represents.global_handleOf isSome)
  rw [same]
  exact represents.global_handleOf isOther

theorem Represents.found_handleOf (represents : Represents bindings base registry)
    (isSome : (registry.classes T).isSome) :
    base.L.global (base.temp T) = .table (base.handleOf bindings T) := by
  rw [represents.named T isSome]
  exact represents.global_handleOf isSome

theorem Represents.found (represents : Represents bindings base registry)
    (isSome : (registry.classes T).isSome) : base.Found T := by
  obtain ⟨members, isMembers⟩ := Option.isSome_iff_exists.mp isSome
  exact ⟨_, represents.found_handleOf isSome, (represents.isClass_handleOf isMembers).newindex⟩

/-- A class table is not the table of globals. -/
theorem Represents.inside_handleOf (represents : Represents bindings base registry)
    (isSome : (registry.classes T).isSome) :
    base.handleOf bindings T < base.L.heap.size ∧ base.handleOf bindings T ≠ base.L.globals := by
  obtain ⟨members, isMembers⟩ := Option.isSome_iff_exists.mp isSome
  have isClass := represents.isClass_handleOf isMembers
  exact ⟨isClass.holds.inside, isClass.holds.ne_globals isClass.found⟩

end Represents

/-! ### The class tables that a call leaves -/

section Handles

variable {bindings : Bindings Object Func CFunction} {base : World Object Func Variable CFunction}
  {object : Object}

theorem setConstructor_global {L : Thread CFunction (Payload Func Variable)} {h : Nat}
    (inside : L.globals < L.heap.size) (apart : h ≠ L.globals) (func : CFunction)
    (name : CString) : (setConstructor func h L).global name = L.global name :=
  congrArg (fun table : Table => table.rawget _) (table_setConstructor inside apart.symm)

theorem bindMember_global {L : Thread CFunction (Payload Func Variable)} {h : Nat}
    (apart : h ≠ L.globals) (key : CString) (slot : Slot Func Variable CFunction)
    (name : CString) : (bindMember bindings key slot h L).global name = L.global name := by
  cases slot <;> exact Thread.rawset_global_of_ne _ apart.symm _ _ _

theorem onClass_global {change : Nat → Thread CFunction (Payload Func Variable) →
    Thread CFunction (Payload Func Variable)} {h : Nat} {name : CString}
    (found : base.L.global (base.temp object) = .table h)
    (keeps : (change h base.L).global name = base.L.global name) :
    (base.onClass object change).L.global name = base.L.global name := by
  rw [World.onClass_of_found found]
  exact keeps

variable [DecidableEq Object]

theorem add_global_other (inside : base.L.globals < base.L.heap.size) {other : Object}
    (different : other ≠ object) :
    (base.add bindings object).L.global (bindings.name other) =
      base.L.global (bindings.name other) := by
  have apart : bindings.name other ≠ bindings.name object := fun same =>
    different (bindings.distinct same)
  exact (Thread.rawset_global_other _ (inside_newClass bindings object _ inside) apart _).trans
    (global_newClass object _ inside _)

/-- The constructor of a class that was just made. -/
theorem added_global (inside : base.L.globals < base.L.heap.size) (builder : Nat)
    (func : CFunction) (name : CString) :
    (((base.add bindings object).setCreated object builder true).onClass object
      (setConstructor func)).L.global name = (base.add bindings object).L.global name := by
  have sameGlobals : (base.add bindings object).L.globals = base.L.globals := by
    rw [World.add, Thread.rawset_globals, (extends_newClass object _).globals]
  have stillInside : (base.add bindings object).L.globals <
      (base.add bindings object).L.heap.size := by
    rw [World.add, Thread.rawset_globals]
    exact (inside_newClass bindings object _ inside).trans_le (Extends.rawset _ _ _ _).size
  have apart : base.L.heap.size ≠ (base.add bindings object).L.globals := by
    rw [sameGlobals]
    exact inside.ne'
  exact onClass_global (World.add_found inside)
    (setConstructor_global stillInside apart func name)

variable {history : List (Call Object Func Variable CFunction)}
  {call : Call Object Func Variable CFunction}

omit [DecidableEq Object] in
theorem handleOf_of_global {world : World Object Func Variable CFunction}
    (same : world.L.global (bindings.name object) = base.L.global (bindings.name object)) :
    world.handleOf bindings object = base.handleOf bindings object := by
  rw [World.handleOf, World.handleOf, same]

theorem handleOf_add (inside : base.L.globals < base.L.heap.size) :
    (base.add bindings object).handleOf bindings object = base.L.heap.size := by
  have found : (base.add bindings object).L.global (bindings.name object) =
      .table base.L.heap.size :=
    Thread.rawset_global_self _ (inside_newClass bindings object _ inside) _ _
  rw [World.handleOf, found]

variable (represents : Represents bindings base (Registry.ofHistory bindings history))

include represents

theorem m_bCreated_eq (builder : Nat) :
    base.m_bCreated object builder = hasCreated object builder history := by
  rw [represents.flags, created_ofHistory]

/-- A call that makes a class table makes a new one. -/
theorem handleOf_made (makes : makesTable call history = true) :
    (effect bindings call base).handleOf bindings call.object = base.L.heap.size := by
  obtain ⟨object, builder, operation⟩ := call
  have inside := represents.inside
  cases operation.kind bindings with
  | LuaClass => contradiction
  | create func =>
      have notCreated : base.m_bCreated object builder = false := by
        rw [m_bCreated_eq represents]
        simpa [makesTable] using makes
      rw [effect, World.added, notCreated]
      exact (handleOf_of_global (added_global inside builder func _)).trans (handleOf_add inside)
  | class_add => exact handleOf_add inside
  | binds isBinding =>
      rw [makesTable_of_binding isBinding] at makes
      contradiction

/-- The other class tables stay where they are. -/
theorem handleOf_kept {other : Object}
    (isRegistered : ∀ name slot, call.operation.binding bindings = some (name, slot) →
      registered call.object history = true)
    (kept : ¬ (call.object = other ∧ makesTable call history = true)) :
    (effect bindings call base).handleOf bindings other = base.handleOf bindings other := by
  apply handleOf_of_global
  obtain ⟨object, builder, operation⟩ := call
  have inside := represents.inside
  cases operation.kind bindings with
  | LuaClass => rfl
  | create func =>
      rw [effect, World.added]
      cases flag : base.m_bCreated object builder with
      | true =>
          have isSome := represents.created object builder (represents.flags ▸ flag)
          exact onClass_global (represents.found_handleOf isSome)
            (setConstructor_global inside (represents.inside_handleOf isSome).2 func _)
      | false =>
          have makes : makesTable ⟨object, builder, .create func⟩ history = true := by
            rw [makesTable, ← m_bCreated_eq represents, flag]
            rfl
          exact (added_global inside builder func _).trans
            (add_global_other inside fun same => kept ⟨same.symm, makes⟩)
  | class_add => exact add_global_other inside fun same => kept ⟨same.symm, rfl⟩
  | binds isBinding =>
      have isSome := isRegistered _ _ isBinding
      rw [← isSome_classes bindings] at isSome
      rw [effect_of_binding isBinding]
      exact onClass_global (represents.found_handleOf isSome)
        (bindMember_global (represents.inside_handleOf isSome).2 _ _ _)

end Handles

/-! ### Runs -/

section Bound

variable [DecidableEq Object] {tms : Metamethods} {bindings : Bindings Object Func CFunction}
  {history : List (Statement Object Func Variable CFunction)}
  {statement : Statement Object Func Variable CFunction} {parents : Nat → Option Nat}
  {base world : World Object Func Variable CFunction} {object T P : Object}

/-- What the statements have made, the last of which stands first: the class tables that
the calls of the builder alone make, and their parents. -/
structure Bound (bindings : Bindings Object Func CFunction)
    (history : List (Statement Object Func Variable CFunction)) (parents : Nat → Option Nat)
    (base world : World Object Func Variable CFunction) : Prop where
  represents : Represents bindings base (Registry.ofHistory bindings (builderCalls history))
  parented : World.Parented parents base world
  agrees : ∀ object, registered object (builderCalls history) = true →
    parents (base.handleOf bindings object) =
      (parentOf object history).map (base.handleOf bindings)
  known : ∀ object next, parentOf object history = some next →
    registered next (builderCalls history) = true
  noParent : ∀ object, lastMember bindings object metaParent (builderCalls history) = none

theorem Bound.initially {start : World Object Func Variable CFunction} (fresh : Fresh start) :
    Bound bindings [] (fun _ => none) start start where
  represents := fresh.represents
  parented := ⟨.refl _, rfl, rfl⟩
  agrees _ isRegistered := by contradiction
  known _ _ isParent := by contradiction
  noParent _ := rfl

variable (bindings) in
theorem isSome_of_registered (isRegistered : registered object (builderCalls history) = true) :
    ((Registry.ofHistory bindings (builderCalls history)).classes object).isSome := by
  rw [isSome_classes]
  exact isRegistered

theorem Bound.global (bound : Bound bindings history parents base world)
    (isRegistered : registered object (builderCalls history) = true) :
    world.L.global (world.temp object) = .table (base.handleOf bindings object) :=
  bound.parented.found.trans
    (bound.represents.found_handleOf (isSome_of_registered bindings isRegistered))

theorem Bound.ready (bound : Bound bindings history parents base world)
    {call : Call Object Func Variable CFunction}
    (inOrder : (Statement.builder call).InOrder bindings history) : Ready bindings call base where
  plain := bound.represents.plain
  inside := bound.represents.inside
  enabled := by
    obtain ⟨enabled, -, -⟩ := inOrder
    have found : registered call.object (builderCalls history) = true → base.Found call.object :=
      fun isRegistered => bound.represents.found (isSome_of_registered bindings isRegistered)
    obtain ⟨object, builder, operation⟩ := call
    cases operation with
    | LuaClass => trivial
    | create func =>
        refine ⟨enabled, fun created => bound.represents.found ?_⟩
        exact bound.represents.created object builder (bound.represents.flags ▸ created)
    | class_add => exact enabled
    | define name func => exact found enabled
    | def2 name f => exact found enabled
    | def_cpoint name => exact found enabled
    | mem name val => exact found enabled

theorem Bound.allowed (bound : Bound bindings history parents base world)
    {call : Call Object Func Variable CFunction}
    (inOrder : (Statement.builder call).InOrder bindings history) : Allowed bindings base call := by
  obtain ⟨enabled, -, -⟩ := inOrder
  obtain ⟨object, builder, operation⟩ := call
  cases operation with
  | LuaClass => trivial
  | create func => exact enabled
  | class_add => exact enabled
  | define name func => exact .inl (registered_of_represents bound.represents enabled)
  | def2 name f => exact .inl (registered_of_represents bound.represents enabled)
  | def_cpoint name => exact .inl (registered_of_represents bound.represents enabled)
  | mem name val => exact .inl (registered_of_represents bound.represents enabled)

theorem keepsParent_of_inOrder {call : Call Object Func Variable CFunction}
    (inOrder : (Statement.builder call).InOrder bindings history) (name : CString)
    (slot : Slot Func Variable CFunction)
    (isBinding : call.operation.binding bindings = some (name, slot)) : name ≠ metaParent := by
  rintro rfl
  obtain ⟨-, keepsParent, -⟩ := inOrder
  exact keepsParent (congrArg (Option.map Prod.fst) isBinding)

/-- A member is bound to a registered type. -/
theorem registered_of_binding {call : Call Object Func Variable CFunction} {name : CString}
    {slot : Slot Func Variable CFunction}
    (inOrder : (Statement.builder call).InOrder bindings history)
    (isBinding : call.operation.binding bindings = some (name, slot)) :
    registered call.object (builderCalls history) = true := by
  obtain ⟨enabled, -, -⟩ := inOrder
  obtain ⟨object, builder, operation⟩ := call
  cases operation with
  | LuaClass => contradiction
  | create func => contradiction
  | class_add => contradiction
  | define name func => exact enabled
  | def2 name f => exact enabled
  | def_cpoint name => exact enabled
  | mem name val => exact enabled

theorem registered_cons_iff {call : Call Object Func Variable CFunction}
    {calls : List (Call Object Func Variable CFunction)} :
    registered object (call :: calls) = true ↔
      (call.object = object ∧ makesTable call calls = true) ∨ registered object calls = true := by
  simp [registered]

variable (tms) in
theorem Bound.builder (bound : Bound bindings history parents base world)
    {call : Call Object Func Variable CFunction}
    (inOrder : (Statement.builder call).InOrder bindings history) :
    Statement.step tms bindings world (.builder call) = some (effect bindings call world) ∧
      Bound bindings (.builder call :: history) parents (effect bindings call base)
        (effect bindings call world) := by
  have ready := bound.ready inOrder
  have follows := (execute_effect ready).mp
    (execute_follows tms bound.represents call (bound.allowed inOrder))
  have keepsParent := keepsParent_of_inOrder inOrder
  obtain ⟨-, -, notAgain⟩ := id inOrder
  have kept : ∀ other, ¬ (call.object = other ∧ makesTable call (builderCalls history) = true) →
      (effect bindings call base).handleOf bindings other = base.handleOf bindings other :=
    fun other => handleOf_kept bound.represents fun _ _ => registered_of_binding inOrder
  refine ⟨step_effect tms (bound.parented.ready ready), follows.represents,
    bound.parented.effect keepsParent, ?_, ?_, ?_⟩
  · intro object isRegistered
    unfold parentOf
    by_cases makes : call.object = object ∧ makesTable call (builderCalls history) = true
    · obtain ⟨rfl, made⟩ := makes
      rw [if_pos ⟨rfl, made⟩, handleOf_made bound.represents made]
      cases isParent : parents base.L.heap.size with
      | none => rfl
      | some p => exact absurd (bound.parented.thread.isClass _ p isParent).1 (Nat.lt_irrefl _)
    · have before := (registered_cons_iff.mp isRegistered).resolve_left makes
      rw [if_neg makes, kept object makes, bound.agrees object before]
      cases isParent : parentOf object history with
      | none => rfl
      | some next =>
          have stays : ¬ (call.object = next ∧ makesTable call (builderCalls history) = true) := by
            rintro ⟨rfl, made⟩
            exact notAgain made object isParent
          rw [Option.map_some, Option.map_some, kept next stays]
  · intro object next isParent
    unfold parentOf at isParent
    split at isParent
    next => contradiction
    next => exact registered_cons_iff.mpr (.inr (bound.known object next isParent))
  · intro object
    have earlier := bound.noParent object
    change lastMember bindings object metaParent (call :: builderCalls history) = none
    unfold lastMember
    split
    next => exact earlier
    next =>
      split
      next => rfl
      next =>
        split
        next name slot isBinding =>
          rw [if_neg (keepsParent name slot isBinding)]
          exact earlier
        next => exact earlier

theorem Bound.class_inh (bound : Bound bindings history parents base world)
    (isClass : registered T (builderCalls history) = true)
    (isParent : registered P (builderCalls history) = true) :
    Bound bindings (.class_inh T P :: history)
      (Function.update parents (base.handleOf bindings T) (some (base.handleOf bindings P))) base
      (world.onThread fun L => L.rawset (base.handleOf bindings T) metaParent
        (.table (base.handleOf bindings P))) where
  represents := bound.represents
  parented := by
    obtain ⟨inside, notGlobals⟩ :=
      bound.represents.inside_handleOf (isSome_of_registered bindings isClass)
    exact ⟨bound.parented.thread.setParent inside notGlobals _, bound.parented.temp,
      bound.parented.m_bCreated⟩
  agrees object isRegistered := by
    unfold parentOf
    by_cases same : T = object
    · rw [if_pos same, same, Function.update_self]
      rfl
    · have apart : base.handleOf bindings object ≠ base.handleOf bindings T := fun equality =>
        same (bound.represents.handleOf_injective (isSome_of_registered bindings isRegistered)
          (isSome_of_registered bindings isClass) equality).symm
      rw [if_neg same, Function.update_of_ne apart]
      exact bound.agrees object isRegistered
  known object next isNext := by
    unfold parentOf at isNext
    split at isNext
    next =>
      rw [← Option.some.inj isNext]
      exact isParent
    next => exact bound.known object next isNext
  noParent := bound.noParent

theorem step_of_meets {next : World Object Func Variable CFunction}
    (meets : ((statement.execute tms bindings).run world).Meets
      ⟨fun _ final => final = next, fun _ _ => False, False⟩) :
    Statement.step tms bindings world statement = some next := by
  obtain ⟨_, final, returned, rfl⟩ := meets.returns (fun _ _ => id) id
  rw [Statement.step, returned]

variable (tms) in
theorem Bound.step_class_inh (bound : Bound bindings history parents base world)
    (isClass : registered T (builderCalls history) = true)
    (isParent : registered P (builderCalls history) = true) :
    Statement.step tms bindings world (.class_inh T P) =
      some (world.onThread fun L => L.rawset (base.handleOf bindings T) metaParent
        (.table (base.handleOf bindings P))) := by
  apply step_of_meets
  have plain := bound.parented.plain bound.represents.plain
  exact (class_inh_meets plain (bound.global isClass) (bound.global isParent)).mpr rfl

variable (tms) in
theorem Bound.class_con (bound : Bound bindings history parents base world)
    (isRegistered : registered T (builderCalls history) = true) (func : CFunction) :
    Statement.step tms bindings world (.class_con T func) =
        some (world.onClass T (setConstructor func)) ∧
      Bound bindings (.class_con T func :: history) parents
        (base.onClass T (setConstructor func)) (world.onClass T (setConstructor func)) := by
  have represents := bound.represents
  have isSome := isSome_of_registered bindings isRegistered
  have found := represents.found_handleOf isSome
  have constructed : ((Tinker.class_con tms T func).run base).Meets (follows bindings T base
      (Registry.ofHistory bindings (builderCalls history))) :=
    class_con_follows represents isSome func
  have follows := (class_con_effect represents.plain ⟨_, found⟩ func).mp constructed
  have kept : ∀ other, (base.onClass T (setConstructor func)).handleOf bindings other =
      base.handleOf bindings other := fun other =>
    handleOf_of_global (onClass_global found
      (setConstructor_global represents.inside (represents.inside_handleOf isSome).2 func _))
  refine ⟨?_, follows.represents,
    bound.parented.onClass fun h => bound.parented.thread.setConstructor func h, ?_,
    bound.known, bound.noParent⟩
  · apply step_of_meets
    have plain := bound.parented.plain represents.plain
    exact (class_con_effect plain ⟨_, bound.global isRegistered⟩ func).mpr rfl
  · intro object isObject
    rw [kept, funext kept]
    exact bound.agrees object isObject

variable (tms) in
theorem Bound.step (bound : Bound bindings history parents base world)
    (inOrder : statement.InOrder bindings history) :
    ∃ parents base next, Statement.step tms bindings world statement = some next ∧
      Bound bindings (statement :: history) parents base next := by
  cases statement with
  | builder call =>
      obtain ⟨stepped, bound'⟩ := bound.builder tms inOrder
      exact ⟨_, _, _, stepped, bound'⟩
  | class_inh T P =>
      obtain ⟨isClass, isParent⟩ := inOrder
      exact ⟨_, _, _, bound.step_class_inh tms isClass isParent,
        bound.class_inh isClass isParent⟩
  | class_con T func =>
      obtain ⟨stepped, bound'⟩ := bound.class_con tms inOrder func
      exact ⟨_, _, _, stepped, bound'⟩

variable (tms) in
theorem run_bound (start : World Object Func Variable CFunction)
    (bound : Bound bindings history parents base world)
    {statements : List (Statement Object Func Variable CFunction)}
    (inOrder : InOrder bindings history statements) :
    ∃ parents base final, (Statement.machine tms bindings start).runFrom world statements =
      some final ∧ Bound bindings (statements.reverse ++ history) parents base final := by
  induction statements generalizing history parents base world with
  | nil => exact ⟨parents, base, world, rfl, bound⟩
  | cons statement statements inductionHypothesis =>
      obtain ⟨first, later⟩ := inOrder
      obtain ⟨_, _, next, stepped, bound'⟩ := bound.step tms first
      obtain ⟨parents', base', final, reached, final_bound⟩ := inductionHypothesis bound' later
      refine ⟨parents', base', final,
        (Machine.runFrom_cons_eq_some _).mpr ⟨next, stepped, reached⟩, ?_⟩
      rw [List.reverse_cons, List.append_assoc]
      exact final_bound

/-! ### What a run leaves -/

theorem Bound.handleOf (bound : Bound bindings history parents base world) (object : Object) :
    world.handleOf bindings object = base.handleOf bindings object :=
  handleOf_of_global (bound.parented.thread.global _)

theorem Bound.holds (bound : Bound bindings history parents base world)
    (isRegistered : registered object (builderCalls history) = true) :
    ∃ members, Holds bindings base.L (base.handleOf bindings object) members ∧
      ∀ name, members name = (lastMember bindings object name (builderCalls history)).or
        (standardMembers bindings object name) := by
  obtain ⟨members, isMembers⟩ :=
    Option.isSome_iff_exists.mp (isSome_of_registered bindings isRegistered)
  exact ⟨members, (bound.represents.isClass_handleOf isMembers).holds, members_ofHistory isMembers⟩

omit [DecidableEq Object] in
theorem standardMembers_metaParent :
    (standardMembers bindings object : Members Func Variable CFunction) metaParent = none := by
  simp only [standardMembers]
  rw [Function.update_of_ne (by decide +kernel), Function.update_of_ne (by decide +kernel),
    Function.update_of_ne (by decide +kernel), Function.update_of_ne (by decide +kernel)]

/-- The class tables lie under one another as the types do. -/
theorem Bound.lineage (bound : Bound bindings history parents base world)
    {ancestors : List Object}
    (lineage : Ancestors (fun object => parentOf object history) T ancestors)
    (isRegistered : registered T (builderCalls history) = true) :
    Lineage world.L.heap (world.handleOf bindings T) (ancestors.map (world.handleOf bindings)) := by
  rw [bound.handleOf, funext bound.handleOf]
  induction lineage with
  | root isNone =>
      apply Lineage.root
      obtain ⟨members, holds, isMember⟩ := bound.holds isRegistered
      have noParents := bound.agrees _ isRegistered
      rw [isNone] at noParents
      rw [(bound.parented.thread.table _).entry _ (.inr noParents)]
      apply (holds.entry metaParent).nil_iff.mpr
      rw [isMember, bound.noParent, standardMembers_metaParent]
      rfl
  | inherits isParent _ inductionHypothesis =>
      have isSome := bound.agrees _ isRegistered
      rw [isParent] at isSome
      exact .inherits ((bound.parented.thread.table _).isParent _ isSome)
        (inductionHypothesis (bound.known _ _ isParent))

theorem Bound.ancestors (bound : Bound bindings history parents base world)
    {ancestors : List Object}
    (lineage : Ancestors (fun object => parentOf object history) T ancestors) :
    ∀ other ∈ ancestors, registered other (builderCalls history) = true := by
  induction lineage with
  | root => exact fun other membership => absurd membership List.not_mem_nil
  | inherits isParent _ inductionHypothesis =>
      intro other membership
      rcases List.mem_cons.mp membership with rfl | further
      · exact bound.known _ _ isParent
      · exact inductionHypothesis other further

/-- A class table denotes what was bound last, but for its parent. -/
theorem Bound.denotes (bound : Bound bindings history parents base world)
    (isRegistered : registered object (builderCalls history) = true) {name : CString}
    (notParent : name ≠ metaParent) :
    Denotes bindings world.L
      ((world.L.heap.table (world.handleOf bindings object)).rawget (.string name.bytes))
      ((lastMember bindings object name (builderCalls history)).or
        (standardMembers bindings object name)) := by
  obtain ⟨members, holds, isMember⟩ := bound.holds isRegistered
  have thread := bound.parented.thread
  have extended : Extends base.L world.L := ⟨thread.globals, thread.size.ge,
    thread.closures ▸ List.prefix_rfl, thread.userdata ▸ List.prefix_rfl⟩
  rw [bound.handleOf, (thread.table _).entry _ (.inl (CString.key_ne notParent)), ← isMember]
  exact (holds.entry name).mono extended

end Bound

end LuaEngine.Tinker
