import LuaEngine.Tinker.LuaClass

/-!
# The registry of classes

What the builder is for: a type has a class once it is registered, and a class gives
each name the value of the last call for it.
-/

namespace LuaEngine.Tinker

open LuaEngine.Codec LuaEngine.Lua LuaEngine.System

/-- What a class has under a name. -/
inductive Slot (Func Variable CFunction : Type) where
  | string (s : CString)
  | cfunction (f : CFunction)
  | functor (func : Func)
  | mem_var (val : Variable)
  deriving DecidableEq

abbrev Members (Func Variable CFunction : Type) := CString → Option (Slot Func Variable CFunction)

structure Registry (Object Func Variable CFunction : Type) where
  created : Object → Nat → Bool
  classes : Object → Option (Members Func Variable CFunction)

variable {Object Func Variable CFunction : Type}

/-- What `class_add` puts in a class table. -/
def standardMembers (bindings : Bindings Object Func CFunction) (object : Object) :
    Members Func Variable CFunction :=
  Function.update (Function.update (Function.update (Function.update (fun _ => none)
    metaName (some (.string (bindings.name object))))
    metaIndex (some (.cfunction bindings.meta_get)))
    metaNewindex (some (.cfunction bindings.meta_set)))
    metaGc (some (.cfunction (bindings.destroyer object)))

/-- The name a call is for and the value it gives it. -/
def Operation.binding (bindings : Bindings Object Func CFunction) :
    Operation Func Variable CFunction → Option (CString × Slot Func Variable CFunction)
  | .define name func => some (name, .functor func)
  | .def2 name func => some (name, .cfunction func)
  | .def_cpoint name => some (name.getD cpoint, .cfunction bindings.my_getpoint)
  | .mem name val => some (name, .mem_var val)
  | _ => none

namespace Registry

def empty : Registry Object Func Variable CFunction := ⟨fun _ _ => false, fun _ => none⟩

variable [DecidableEq Object]

def setClass (object : Object) (members : Members Func Variable CFunction)
    (registry : Registry Object Func Variable CFunction) :
    Registry Object Func Variable CFunction :=
  { registry with classes := Function.update registry.classes object (some members) }

@[simp]
theorem setClass_self (object : Object) (members : Members Func Variable CFunction)
    (registry : Registry Object Func Variable CFunction) :
    (registry.setClass object members).classes object = some members :=
  Function.update_self _ _ _

theorem setClass_of_ne {object other : Object} (different : other ≠ object)
    (members : Members Func Variable CFunction)
    (registry : Registry Object Func Variable CFunction) :
    (registry.setClass object members).classes other = registry.classes other :=
  Function.update_of_ne different _ _

def add (bindings : Bindings Object Func CFunction) (object : Object)
    (registry : Registry Object Func Variable CFunction) :
    Registry Object Func Variable CFunction :=
  registry.setClass object (standardMembers bindings object)

def bind (object : Object) (name : CString) (slot : Slot Func Variable CFunction)
    (registry : Registry Object Func Variable CFunction) :
    Registry Object Func Variable CFunction :=
  { registry with
    classes := Function.update registry.classes object
      ((registry.classes object).map fun members => Function.update members name (some slot)) }

theorem bind_of_some {object : Object} {members : Members Func Variable CFunction}
    {registry : Registry Object Func Variable CFunction}
    (isClass : registry.classes object = some members) (name : CString)
    (slot : Slot Func Variable CFunction) :
    registry.bind object name slot =
      registry.setClass object (Function.update members name (some slot)) := by
  rw [bind, isClass]
  rfl

theorem bind_of_none {object : Object} {registry : Registry Object Func Variable CFunction}
    (noClass : registry.classes object = none) (name : CString)
    (slot : Slot Func Variable CFunction) : registry.bind object name slot = registry := by
  rw [bind, noClass, Option.map_none, ← noClass, Function.update_eq_self]

/-- A class that gets the members it has. -/
theorem setClass_eq {object : Object} {members : Members Func Variable CFunction}
    {registry : Registry Object Func Variable CFunction}
    (isClass : registry.classes object = some members) :
    registry.setClass object members = registry := by
  rw [setClass, ← isClass, Function.update_eq_self]

def setCreated (object : Object) (builder : Nat) (flag : Bool)
    (registry : Registry Object Func Variable CFunction) :
    Registry Object Func Variable CFunction :=
  { registry with
    created := Function.update registry.created object
      (Function.update (registry.created object) builder flag) }

theorem update_eq_ite {Value : Type} (f : Object → Value) (object other : Object)
    (value : Value) :
    Function.update f object value other = if object = other then value else f other := by
  rw [Function.update_apply]
  exact if_congr eq_comm rfl rfl

theorem setCreated_created (object : Object) (builder : Nat) (flag : Bool)
    (registry : Registry Object Func Variable CFunction) (other : Object) (otherBuilder : Nat) :
    (registry.setCreated object builder flag).created other otherBuilder =
      if object = other ∧ builder = otherBuilder then flag
      else registry.created other otherBuilder := by
  unfold setCreated
  dsimp only
  rw [update_eq_ite]
  by_cases same : object = other
  · rw [if_pos same, update_eq_ite, ← same]
    simp only [true_and]
  · rw [if_neg same, if_neg fun both => same both.1]

/-- The registry after a call. -/
def step (bindings : Bindings Object Func CFunction)
    (registry : Registry Object Func Variable CFunction)
    (call : Call Object Func Variable CFunction) : Registry Object Func Variable CFunction :=
  match call.operation with
  | .LuaClass => registry.setCreated call.object call.builder false
  | .create _ =>
      if registry.created call.object call.builder then
        registry
      else
        (registry.add bindings call.object).setCreated call.object call.builder true
  | .class_add => registry.add bindings call.object
  | operation =>
      match operation.binding bindings with
      | some (name, slot) => registry.bind call.object name slot
      | none => registry

/-- The registry after the calls, of which the last stands first. -/
def ofHistory (bindings : Bindings Object Func CFunction) :
    List (Call Object Func Variable CFunction) → Registry Object Func Variable CFunction
  | [] => empty
  | call :: earlier => (ofHistory bindings earlier).step bindings call

end Registry

/-! ## Histories, the last call first -/

section History

variable [DecidableEq Object] (bindings : Bindings Object Func CFunction)

/-- The flag of a builder. -/
def hasCreated (object : Object) (builder : Nat) :
    List (Call Object Func Variable CFunction) → Bool
  | [] => false
  | call :: earlier =>
      if call.object = object ∧ call.builder = builder then
        match call.operation with
        | .LuaClass => false
        | .create _ => true
        | _ => hasCreated object builder earlier
      else
        hasCreated object builder earlier

/-- The call makes a class table for its type. -/
def makesTable (call : Call Object Func Variable CFunction)
    (earlier : List (Call Object Func Variable CFunction)) : Bool :=
  match call.operation with
  | .class_add => true
  | .create _ => !hasCreated call.object call.builder earlier
  | _ => false

def registered (object : Object) : List (Call Object Func Variable CFunction) → Bool
  | [] => false
  | call :: earlier => call.object = object && makesTable call earlier || registered object earlier

/-- The value of the last call for a name since the class table was last made. -/
def lastMember (object : Object) (name : CString) :
    List (Call Object Func Variable CFunction) → Option (Slot Func Variable CFunction)
  | [] => none
  | call :: earlier =>
      if call.object ≠ object then
        lastMember object name earlier
      else if makesTable call earlier then
        none
      else
        match call.operation.binding bindings with
        | some (bound, slot) =>
            if bound = name then some slot else lastMember object name earlier
        | none => lastMember object name earlier

end History

section Agreement

variable {bindings : Bindings Object Func CFunction}

/-- A call works on a builder or a class table, or it is for a name. -/
inductive Operation.Kind (bindings : Bindings Object Func CFunction) :
    Operation Func Variable CFunction → Prop
  | LuaClass : Kind bindings .LuaClass
  | create (constructor : CFunction) : Kind bindings (.create constructor)
  | class_add : Kind bindings .class_add
  | binds {operation : Operation Func Variable CFunction} {name : CString}
      {slot : Slot Func Variable CFunction} :
      operation.binding bindings = some (name, slot) → Kind bindings operation

theorem Operation.kind (bindings : Bindings Object Func CFunction)
    (operation : Operation Func Variable CFunction) :
    operation.Kind bindings := by
  cases operation with
  | LuaClass => exact .LuaClass
  | create constructor => exact .create constructor
  | class_add => exact .class_add
  | define name func => exact .binds rfl
  | def2 name func => exact .binds rfl
  | def_cpoint name => exact .binds rfl
  | mem name val => exact .binds rfl

variable [DecidableEq Object] {call : Call Object Func Variable CFunction}
  {earlier : List (Call Object Func Variable CFunction)} {name : CString}
  {slot : Slot Func Variable CFunction}

section Binds

variable (isBinding : call.operation.binding bindings = some (name, slot))

include isBinding

theorem Registry.step_of_binding (registry : Registry Object Func Variable CFunction) :
    registry.step bindings call = registry.bind call.object name slot := by
  unfold Registry.step
  split <;> simp_all [Operation.binding]

theorem makesTable_of_binding : makesTable call earlier = false := by
  unfold makesTable
  split <;> simp_all [Operation.binding]

theorem hasCreated_of_binding (object : Object) (builder : Nat) :
    hasCreated object builder (call :: earlier) = hasCreated object builder earlier := by
  rw [hasCreated]
  split
  next =>
    split <;> simp_all [Operation.binding]
  next => rfl

end Binds

theorem created_ofHistory (bindings : Bindings Object Func CFunction) (object : Object)
    (builder : Nat)
    (history : List (Call Object Func Variable CFunction)) :
    (Registry.ofHistory bindings history).created object builder =
      hasCreated object builder history := by
  induction history with
  | nil => rfl
  | cons call earlier inductionHypothesis =>
      obtain ⟨callObject, callBuilder, operation⟩ := call
      unfold Registry.ofHistory
      cases operation.kind bindings with
      | LuaClass => rw [Registry.step, Registry.setCreated_created, hasCreated, inductionHypothesis]
      | create constructor =>
          rw [Registry.step, hasCreated, ← inductionHypothesis]
          dsimp only
          by_cases flag :
              (Registry.ofHistory bindings earlier).created callObject callBuilder = true
          · rw [if_pos flag]
            split
            next same => rw [← same.1, ← same.2, flag]
            next => rfl
          · rw [if_neg flag, Registry.setCreated_created]
            rfl
      | class_add =>
          rw [hasCreated, ite_self]
          exact inductionHypothesis
      | binds isBinding =>
          rw [Registry.step_of_binding isBinding, hasCreated_of_binding isBinding]
          exact inductionHypothesis

/-- The classes before and after a call. -/
theorem classes_ofHistory_cons (call : Call Object Func Variable CFunction)
    (earlier : List (Call Object Func Variable CFunction)) (object : Object) :
    (Registry.ofHistory bindings (call :: earlier)).classes object =
      if call.object = object then
        if makesTable call earlier then
          some (standardMembers bindings call.object)
        else
          match call.operation.binding bindings with
          | some (name, slot) => ((Registry.ofHistory bindings earlier).classes call.object).map
              fun members => Function.update members name (some slot)
          | none => (Registry.ofHistory bindings earlier).classes call.object
      else
        (Registry.ofHistory bindings earlier).classes object := by
  rw [Registry.ofHistory]
  have flag := created_ofHistory bindings call.object call.builder earlier
  generalize Registry.ofHistory bindings earlier = registry at flag ⊢
  have unchanged : registry.classes object =
      if call.object = object then registry.classes call.object
      else registry.classes object := by
    split
    next same => rw [same]
    next => rfl
  obtain ⟨callObject, callBuilder, operation⟩ := call
  cases operation.kind bindings with
  | LuaClass => exact unchanged
  | create constructor =>
      rw [Registry.step, makesTable, ← flag]
      dsimp only
      cases registry.created callObject callBuilder with
      | true => exact unchanged
      | false => exact Registry.update_eq_ite registry.classes _ _ _
  | class_add => exact Registry.update_eq_ite registry.classes _ _ _
  | binds isBinding =>
      rw [Registry.step_of_binding isBinding, makesTable_of_binding isBinding, isBinding]
      exact Registry.update_eq_ite registry.classes _ _ _

/-- A type has a class exactly where a call has made its table. -/
theorem isSome_classes (bindings : Bindings Object Func CFunction) (object : Object)
    (history : List (Call Object Func Variable CFunction)) :
    ((Registry.ofHistory bindings history).classes object).isSome = registered object history := by
  induction history with
  | nil => rfl
  | cons call earlier inductionHypothesis =>
      rw [classes_ofHistory_cons, registered, ← inductionHypothesis]
      by_cases same : call.object = object
      · rw [if_pos same, decide_eq_true same, Bool.true_and]
        cases makesTable call earlier with
        | true => rfl
        | false =>
            rw [if_neg Bool.false_ne_true, Bool.false_or, same]
            split
            next => exact Option.isSome_map
            next => rfl
      · rw [if_neg same, decide_eq_false same, Bool.false_and, Bool.false_or]

/-- A class gives a name the value of the last call for it, and without one the value it
had at first. -/
theorem members_ofHistory {object : Object}
    {history : List (Call Object Func Variable CFunction)}
    {members : Members Func Variable CFunction}
    (isClass : (Registry.ofHistory bindings history).classes object = some members)
    (name : CString) :
    members name =
      (lastMember bindings object name history).or (standardMembers bindings object name) := by
  induction history generalizing members with
  | nil => contradiction
  | cons call earlier inductionHypothesis =>
      rw [classes_ofHistory_cons] at isClass
      unfold lastMember
      by_cases same : call.object = object
      · rw [if_pos same] at isClass
        rw [if_neg (not_not_intro same)]
        cases makes : makesTable call earlier with
        | true =>
            rw [makes, if_pos rfl, Option.some.injEq] at isClass
            rw [if_pos rfl, ← isClass, same]
            rfl
        | false =>
            rw [makes, if_neg Bool.false_ne_true] at isClass
            rw [if_neg Bool.false_ne_true]
            cases binding : call.operation.binding bindings with
            | none =>
                rw [binding, same] at isClass
                exact inductionHypothesis isClass
            | some bound =>
                obtain ⟨boundName, slot⟩ := bound
                rw [binding, same] at isClass
                obtain ⟨before, isBefore, rfl⟩ := Option.map_eq_some_iff.mp isClass
                dsimp only
                by_cases isName : boundName = name
                · rw [if_pos isName, isName, Function.update_self]
                  rfl
                · rw [if_neg isName, Function.update_of_ne (Ne.symm isName)]
                  exact inductionHypothesis isBefore
      · rw [if_neg same] at isClass
        rw [if_pos same]
        exact inductionHypothesis isClass

end Agreement

end LuaEngine.Tinker
