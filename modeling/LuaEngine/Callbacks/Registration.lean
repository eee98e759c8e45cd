import LuaEngine.Lua.Reference

/-!
# Registration of callbacks

`_setNewConnectionCallback` and `_setMessageCallback` keep the value they are given
in the registry and its reference in a static variable.  The reference that was
there before is not given back.
-/

namespace LuaEngine.Callbacks

open LuaEngine.Codec LuaEngine.Lua

inductive Slot where
  | newConnection
  | message
  deriving DecidableEq

structure Registration where
  slot : Slot
  value : LuaValue
  deriving DecidableEq

/-- The registry and the static variables of `LuaStart.cpp`. -/
structure Statics where
  registry : Table
  lua_messgecallback : Int
  lua_newconnectioncallback : Int

def setNewConnectionCallback (length : Length) (value : LuaValue) (statics : Statics) :
    Statics :=
  let (ref, registry) := luaL_ref length statics.registry value
  { statics with registry := registry, lua_newconnectioncallback := ref }

def setMessageCallback (length : Length) (value : LuaValue) (statics : Statics) : Statics :=
  let (ref, registry) := luaL_ref length statics.registry value
  { statics with registry := registry, lua_messgecallback := ref }

def register (length : Length) (statics : Statics) (call : Registration) : Statics :=
  match call.slot with
  | .newConnection => setNewConnectionCallback length call.value statics
  | .message => setMessageCallback length call.value statics

def Statics.initial (registry : Table) : Statics := ⟨registry, Lua.LUA_REFNIL, Lua.LUA_REFNIL⟩

def registerAll (length : Length) (registry : Table) (calls : List Registration) : Statics :=
  calls.foldl (register length) (.initial registry)

def Statics.reference (statics : Statics) : Slot → Int
  | .newConnection => statics.lua_newconnectioncallback
  | .message => statics.lua_messgecallback

/-- What `onNewConnection` and `onMessage` find. -/
def Statics.resolve (statics : Statics) (slot : Slot) : LuaValue :=
  statics.registry.rawgeti (statics.reference slot)

/-- The value last given to the slot, nil before the first call. -/
def lastGiven (slot : Slot) (calls : List Registration) : LuaValue :=
  ((calls.reverse.find? fun call => call.slot = slot).map Registration.value).getD .nil

/-- The references in use that were not before the calls. -/
def held (registry : Table) (statics : Statics) : Set Int :=
  {ref | InUse statics.registry ref ∧ ¬ InUse registry ref}

/-- After each call the slots resolve to the values last given, and at most two
references are held. -/
def Replaces (length : Length) (registry : Table) (calls : List Registration) : Prop :=
  ∀ done, done <+: calls →
    (∀ slot, (registerAll length registry done).resolve slot = lastGiven slot done) ∧
      (held registry (registerAll length registry done)).encard ≤ 2

/-- The calls that are given a value other than nil. -/
def kept (calls : List Registration) : List Registration :=
  calls.filter fun call => call.value ≠ .nil

namespace Statics

variable {length : Length} {registry : Table} {calls : List Registration}

/-- The slot holds nothing, or a reference in use. -/
def Resolves (statics : Statics) (slot : Slot) (value : LuaValue) : Prop :=
  (statics.reference slot = Lua.LUA_REFNIL ∧ value = .nil) ∨
    (InUse statics.registry (statics.reference slot) ∧ statics.resolve slot = value)

/-- What the calls have made of the registry: one reference for each value kept. -/
structure Registered (registry : Table) (calls : List Registration) (statics : Statics) :
    Prop where
  wellFormed : WellFormed statics.registry
  resolves : ∀ slot, statics.Resolves slot (lastGiven slot calls)
  before : ∀ ref, InUse registry ref → InUse statics.registry ref
  count : (held registry statics).encard = (kept calls).length

theorem registry_register (length : Length) (statics : Statics) (call : Registration) :
    (register length statics call).registry =
      (luaL_ref length statics.registry call.value).2 := by
  rcases call with ⟨slot, value⟩
  cases slot <;> rfl

theorem reference_register_self (length : Length) (statics : Statics) (call : Registration) :
    (register length statics call).reference call.slot =
      (luaL_ref length statics.registry call.value).1 := by
  rcases call with ⟨slot, value⟩
  cases slot <;> rfl

theorem reference_register_of_ne (length : Length) (statics : Statics) (call : Registration)
    {slot : Slot} (other : slot ≠ call.slot) :
    (register length statics call).reference slot = statics.reference slot := by
  rcases call with ⟨called, value⟩
  cases called with
  | newConnection =>
      cases slot with
      | newConnection => contradiction
      | message => rfl
  | message =>
      cases slot with
      | newConnection => rfl
      | message => contradiction

theorem lastGiven_append_self (calls : List Registration) (call : Registration) :
    lastGiven call.slot (calls ++ [call]) = call.value := by
  simp [lastGiven]

theorem lastGiven_append_of_ne (calls : List Registration) (call : Registration) {slot : Slot}
    (other : slot ≠ call.slot) : lastGiven slot (calls ++ [call]) = lastGiven slot calls := by
  simp [lastGiven, other.symm]

/-- A call that is given nil: the registry is left alone. -/
theorem Registered.nil {statics : Statics} (registered : Registered registry calls statics)
    {call : Registration} (isNil : call.value = .nil) :
    Registered registry (calls ++ [call]) (register length statics call) := by
  have sameRegistry : (register length statics call).registry = statics.registry := by
    rw [registry_register, luaL_ref, if_pos isNil]
  refine ⟨?_, ?_, ?_, ?_⟩
  · rw [sameRegistry]
    exact registered.wellFormed
  · intro slot
    by_cases isSlot : slot = call.slot
    · subst isSlot
      left
      rw [reference_register_self, luaL_ref, if_pos isNil, lastGiven_append_self]
      exact ⟨rfl, isNil⟩
    · rw [Resolves, resolve, reference_register_of_ne length statics call isSlot, sameRegistry,
        lastGiven_append_of_ne calls call isSlot]
      exact registered.resolves slot
  · rw [sameRegistry]
    exact registered.before
  · have same : kept (calls ++ [call]) = kept calls := by simp [kept, isNil]
    rw [held, sameRegistry, same]
    exact registered.count

/-- A call that is given a value: one more reference is held. -/
theorem Registered.allocated {statics : Statics} (registered : Registered registry calls statics)
    {call : Registration} (notNil : call.value ≠ .nil) :
    Registered registry (calls ++ [call]) (register length statics call) := by
  have allocated := luaL_ref_allocates length registered.wellFormed notNil
  rw [← registry_register, ← reference_register_self] at allocated
  refine ⟨allocated.wellFormed, ?_, ?_, ?_⟩
  · intro slot
    by_cases isSlot : slot = call.slot
    · subst isSlot
      right
      rw [lastGiven_append_self]
      exact ⟨(allocated.inUse _).mpr (.inr rfl), allocated.holds⟩
    · rw [Resolves, resolve, reference_register_of_ne length statics call isSlot,
        lastGiven_append_of_ne calls call isSlot]
      rcases registered.resolves slot with unset | ⟨used, resolved⟩
      · exact .inl unset
      · right
        rw [allocated.keeps _ used]
        exact ⟨(allocated.inUse _).mpr (.inl used), resolved⟩
  · exact fun ref used => (allocated.inUse ref).mpr (.inl (registered.before ref used))
  · have oneMore : held registry (register length statics call) =
        insert ((register length statics call).reference call.slot) (held registry statics) := by
      ext ref
      simp only [held, Set.mem_ofPred_eq, Set.mem_insert_iff, allocated.inUse]
      constructor
      · rintro ⟨used | isNew, notBefore⟩
        · exact .inr ⟨used, notBefore⟩
        · exact .inl isNew
      · rintro (isNew | ⟨used, notBefore⟩)
        · refine ⟨.inr isNew, ?_⟩
          rw [isNew]
          exact fun earlier => allocated.fresh (registered.before _ earlier)
        · exact ⟨.inl used, notBefore⟩
    have new : (register length statics call).reference call.slot ∉ held registry statics :=
      fun membership => allocated.fresh membership.1
    have longer : kept (calls ++ [call]) = kept calls ++ [call] := by simp [kept, notNil]
    rw [oneMore, Set.encard_insert_of_notMem new, registered.count, longer, List.length_append]
    rfl

theorem registered_all (length : Length) (wellFormed : WellFormed registry)
    (calls : List Registration) :
    Registered registry calls (registerAll length registry calls) := by
  induction calls using List.reverseRecOn with
  | nil =>
      refine ⟨wellFormed, ?_, fun _ used => used, ?_⟩
      · intro slot
        cases slot with
        | newConnection => exact .inl ⟨rfl, rfl⟩
        | message => exact .inl ⟨rfl, rfl⟩
      · have none : held registry (registerAll length registry []) = ∅ :=
          Set.eq_empty_of_forall_notMem fun ref membership => membership.2 membership.1
        rw [none]
        exact Set.encard_empty
  | append_singleton calls call inductionHypothesis =>
      rw [registerAll, List.foldl_concat]
      by_cases isNil : call.value = .nil
      · exact inductionHypothesis.nil isNil
      · exact inductionHypothesis.allocated isNil

/-- Whatever was registered before, and in whatever order, a slot resolves to the value
last given to it. -/
theorem Registered.resolve_eq {statics : Statics}
    (registered : Registered registry calls statics) (slot : Slot) :
    statics.resolve slot = lastGiven slot calls := by
  rcases registered.resolves slot with ⟨isRef, isNil⟩ | ⟨-, resolved⟩
  · rw [resolve, isRef, isNil]
    exact registered.wellFormed.refnil
  · exact resolved

end Statics

section Replace

variable {length : Length} {registry : Table} {calls : List Registration}

theorem replaces_of_few (length : Length) (wellFormed : WellFormed registry)
    (few : (kept calls).length ≤ 2) : Replaces length registry calls := by
  intro done earlier
  have registered := Statics.registered_all length wellFormed done
  refine ⟨registered.resolve_eq, ?_⟩
  rw [registered.count]
  have shorter : (kept done).length ≤ 2 := (earlier.filter _).length_le.trans few
  exact_mod_cast shorter

theorem few_of_replaces (wellFormed : WellFormed registry)
    (replaces : Replaces length registry calls) : (kept calls).length ≤ 2 := by
  have bounded := (replaces calls (List.prefix_refl calls)).2
  rw [(Statics.registered_all length wellFormed calls).count] at bounded
  exact_mod_cast bounded

/-- The slots always resolve to what they were last given, but every value given that is
not nil keeps a reference of its own. -/
theorem replaces_iff (length : Length) (wellFormed : WellFormed registry)
    (calls : List Registration) :
    Replaces length registry calls ↔ (kept calls).length ≤ 2 := by
  constructor
  · exact few_of_replaces wellFormed
  · exact replaces_of_few length wellFormed

end Replace

/-- Both callbacks are registered, as `startServer` in `ServStart.lua` does. -/
theorem replaces_startServer :
    Replaces firstBorder .empty [⟨.newConnection, .function 0⟩, ⟨.message, .function 1⟩] :=
  (replaces_iff firstBorder wellFormed_empty _).mpr (by decide)

/-- One callback is registered three times. -/
theorem registered_again_accumulates :
    ¬ Replaces firstBorder .empty
      [⟨.message, .function 0⟩, ⟨.message, .function 1⟩, ⟨.message, .function 2⟩] := by
  intro replaces
  have few := few_of_replaces wellFormed_empty replaces
  contradiction

end LuaEngine.Callbacks
