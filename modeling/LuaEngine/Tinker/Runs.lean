import LuaEngine.Tinker.Calls

/-!
# Runs of builder calls

Calls for any number of types in any order.  `def2` and `def_cpoint` assign to what is
found for the type without a look at it, so that they raise on a type that is not
registered; `def` and `mem` look first.
-/

namespace LuaEngine.Tinker

open LuaEngine.Codec LuaEngine.Lua LuaEngine.System

variable {Object Func Variable CFunction : Type}

/-- A name fits its buffer, and a type is registered before its members are bound.  Where
it is not, `def` and `mem` may find no table under the empty name or one that is no class,
and `def2` and `def_cpoint` must find one that is no class. -/
def Allowed (bindings : Bindings Object Func CFunction)
    (world : World Object Func Variable CFunction)
    (call : Call Object Func Variable CFunction) : Prop :=
  match call.operation with
  | .LuaClass => True
  | .create _ => (bindings.name call.object).bytes.length < tempSize
  | .class_add => (bindings.name call.object).bytes.length < tempSize
  | .define _ _ => world.Registered call.object ∨ world.Harmless
  | .mem _ _ => world.Registered call.object ∨ world.Harmless
  | .def2 _ _ => world.Registered call.object ∨ world.Assignable
  | .def_cpoint _ => world.Registered call.object ∨ world.Assignable

/-- The call returns with the stack as it was, and leaves the class tables of the other
types alone. -/
def Safe [DecidableEq Object] (tms : Metamethods) (bindings : Bindings Object Func CFunction)
    (world : World Object Func Variable CFunction)
    (call : Call Object Func Variable CFunction) : Prop :=
  ∃ next, LuaClass.step tms bindings world call = some next ∧
    next.L.stack = world.L.stack ∧
      ∀ other, other ≠ call.object → next.classTable other = world.classTable other

/-- A state of Lua before any call, with globals that have no metatable. -/
structure Fresh (world : World Object Func Variable CFunction) : Prop where
  plain : world.Plain
  inside : world.L.globals < world.L.heap.size
  temp : ∀ object, world.temp object = .empty
  m_bCreated : ∀ object builder, world.m_bCreated object builder = false

section Calls

variable {tms : Metamethods} {bindings : Bindings Object Func CFunction}
  {world next : World Object Func Variable CFunction}
  {registry : Registry Object Func Variable CFunction}

theorem Fresh.represents (fresh : Fresh world) : Represents bindings world Registry.empty where
  plain := fresh.plain
  inside := fresh.inside
  flags := by
    funext object builder
    exact fresh.m_bCreated object builder
  created _ _ flag := absurd flag Bool.false_ne_true
  unregistered object _ := fresh.temp object
  named _ isSome := absurd isSome Bool.false_ne_true
  isClass _ _ isMembers := by contradiction
  slot _ _ isMembers := by contradiction
  apart _ _ _ isSome := absurd isSome Bool.false_ne_true

variable [DecidableEq Object]

theorem setCreated_follows (represents : Represents bindings world registry) (object : Object)
    (builder : Nat) (flag : Bool) (allowed : flag = true → (registry.classes object).isSome) :
    ((LuaClass.setCreated object builder flag).run world).Meets
      (follows bindings object world (registry.setCreated object builder flag)) := by
  refine ⟨rfl, fun _ _ => rfl, ?_⟩
  refine ⟨represents.plain, represents.inside, ?_, ?_, represents.unregistered, represents.named,
    represents.isClass, represents.slot, represents.apart⟩
  · dsimp only [Registry.setCreated]
    rw [represents.flags]
  · intro other otherBuilder isCreated
    rw [Registry.setCreated_created] at isCreated
    split at isCreated
    next same =>
      rw [← same.1]
      exact allowed isCreated
    next => exact represents.created other otherBuilder isCreated

theorem create_follows (represents : Represents bindings world registry) (object : Object)
    (builder : Nat) (constructor : CFunction)
    (fits : (bindings.name object).bytes.length < tempSize) :
    ((LuaClass.create tms bindings object builder constructor).run world).Meets
      (follows bindings object world
        (registry.step bindings ⟨object, builder, .create constructor⟩)) := by
  rw [LuaClass.create, Program.bind_meets, Program.get_meets]
  dsimp only
  rw [represents.flags, Registry.step]
  dsimp only
  cases flag : registry.created object builder with
  | true => exact class_con_follows represents (represents.created object builder flag) constructor
  | false =>
      have isSome : ((registry.add bindings object).classes object).isSome := by
        rw [Registry.add, Registry.setClass_self]
        rfl
      apply follows_bind (class_add_follows represents fits)
      intro added whenAdded
      apply follows_bind (setCreated_follows whenAdded object builder true fun _ => isSome)
      intro flagged whenFlagged
      exact class_con_follows whenFlagged isSome constructor

theorem execute_follows (tms : Metamethods) (represents : Represents bindings world registry)
    (call : Call Object Func Variable CFunction) (allowed : Allowed bindings world call) :
    ((LuaClass.execute tms bindings call).run world).Meets
      (follows bindings call.object world (registry.step bindings call)) := by
  obtain ⟨object, builder, operation⟩ := call
  cases operation with
  | LuaClass => exact setCreated_follows represents object builder false (by simp)
  | create constructor => exact create_follows represents object builder constructor allowed
  | class_add => exact class_add_follows represents allowed
  | define name func => exact class_def_follows represents allowed name func
  | def2 name func => exact RegisterMyFunc_follows represents allowed name func
  | def_cpoint name =>
      cases name with
      | none => exact RegisterMyFunc_follows represents allowed _ _
      | some name => exact RegisterMyFunc_follows represents allowed _ _
  | mem name val => exact class_mem_follows represents allowed name val

/-- A step of the machine where the call returns. -/
theorem step_of_follows (tms : Metamethods) (represents : Represents bindings world registry)
    (call : Call Object Func Variable CFunction) (allowed : Allowed bindings world call) :
    ∃ next, LuaClass.step tms bindings world call = some next ∧
      Follows bindings call.object world (registry.step bindings call) next := by
  obtain ⟨_, next, returned, followed⟩ :=
    (execute_follows tms represents call allowed).returns (fun _ _ => id) id
  refine ⟨next, ?_, followed⟩
  rw [LuaClass.step, returned]

theorem history_of_follows (tms : Metamethods) (bindings : Bindings Object Func CFunction)
    (history : List (Call Object Func Variable CFunction))
    (world : World Object Func Variable CFunction) (call : Call Object Func Variable CFunction)
    (represents : Represents bindings world (Registry.ofHistory bindings history))
    (allowed : Allowed bindings world call) :
    ∃ next, LuaClass.step tms bindings world call = some next ∧
      Represents bindings next (Registry.ofHistory bindings (call :: history)) := by
  obtain ⟨next, stepped, followed⟩ := step_of_follows tms represents call allowed
  exact ⟨next, stepped, followed.represents⟩

/-- The class table of a registered type, by the calls before. -/
theorem classTable_of_represents {history : List (Call Object Func Variable CFunction)}
    (represents : Represents bindings world (Registry.ofHistory bindings history))
    {object : Object} (isRegistered : registered object history = true) :
    ∃ h table, world.classTable object = some (h, table) ∧
      ∀ name slot, lastMember bindings object name history = some slot →
        Denotes bindings world.L (table.rawget (.string name.bytes)) (some slot) := by
  rw [← isSome_classes bindings] at isRegistered
  obtain ⟨members, isMembers⟩ := Option.isSome_iff_exists.mp isRegistered
  obtain ⟨h, isClass⟩ := represents.isClass object members isMembers
  refine ⟨h, world.L.heap.table h, represents.classTable isMembers isClass, ?_⟩
  · intro name slot isLast
    have entry := isClass.holds.entry name
    rw [members_ofHistory isMembers name, isLast] at entry
    exact entry

theorem safe_of_allowed (tms : Metamethods) (represents : Represents bindings world registry)
    {calls : List (Call Object Func Variable CFunction)}
    (allowed : (LuaClass.machine tms bindings world).MeetsFrom (Allowed bindings) world calls) :
    (LuaClass.machine tms bindings world).MeetsFrom (Safe tms bindings) world calls := by
  refine Machine.meetsFrom_of_invariant _
    (fun world => ∃ registry, Represents bindings world registry) ?_ ?_ ⟨_, represents⟩ allowed
  · rintro world call next ⟨registry, represents⟩ met stepped
    obtain ⟨_, enabled, followed⟩ := step_of_follows tms represents call met
    obtain rfl := Option.some.inj (enabled.symm.trans stepped)
    exact ⟨_, followed.represents⟩
  · rintro world call ⟨registry, represents⟩ met
    obtain ⟨next, stepped, followed⟩ := step_of_follows tms represents call met
    exact ⟨next, stepped, followed.stack, followed.others⟩

end Calls

/-- Where every call is allowed, every call is safe, and in the end each registered type
has a class table with the value of the last call for each name. -/
theorem builders_safe [DecidableEq Object] (tms : Metamethods)
    (bindings : Bindings Object Func CFunction) {start : World Object Func Variable CFunction}
    (fresh : Fresh start)
    (calls : List (Call Object Func Variable CFunction))
    (allowed : (LuaClass.machine tms bindings start).MeetsFrom (Allowed bindings) start calls) :
    (LuaClass.machine tms bindings start).MeetsFrom (Safe tms bindings) start calls ∧
      ∃ final, (LuaClass.machine tms bindings start).run calls = some final ∧
        ∀ object, registered object calls.reverse = true →
          ∃ h table, final.classTable object = some (h, table) ∧
            ∀ name slot, lastMember bindings object name calls.reverse = some slot →
              Denotes bindings final.L (table.rawget (.string name.bytes)) (some slot) := by
  constructor
  · exact safe_of_allowed tms fresh.represents allowed
  · have initially : Represents bindings start (Registry.ofHistory bindings []) := fresh.represents
    obtain ⟨final, reached, represents⟩ := Machine.runFrom_history _
      (motive := fun history world =>
        Represents bindings world (Registry.ofHistory bindings history))
      (history_of_follows tms bindings) initially allowed
    rw [List.append_nil] at represents
    exact ⟨final, reached, fun object => classTable_of_represents represents⟩

/-! ## Calls that are not safe -/

section NotSafe

variable [DecidableEq Object] {tms : Metamethods} {bindings : Bindings Object Func CFunction}
  {world : World Object Func Variable CFunction}
  {call : Call Object Func Variable CFunction}

theorem not_safe_of_raises
    (raises : ((LuaClass.execute tms bindings call).run world).Meets
      ⟨fun _ _ => False, fun _ _ => True, True⟩) : ¬ Safe tms bindings world call := by
  rintro ⟨next, stepped, _⟩
  rw [LuaClass.step] at stepped
  cases result : (LuaClass.execute tms bindings call).run world with
  | returned value final =>
      rw [result] at raises
      exact raises
  | raised error final =>
      rw [result] at stepped
      contradiction
  | unfinished =>
      rw [result] at stepped
      contradiction

/-- `def2` raises on a type that is not registered, in every state without a global under
the empty name. -/
theorem def2_not_safe (plain : world.Plain) (isCall : ∃ name f, call.operation = .def2 name f)
    (notRegistered : ¬ world.Registered call.object) (noGlobal : world.L.global .empty = .nil)
    (unset : tms.newindex.luaT_gettmbyobj .nil = .nil) : ¬ Safe tms bindings world call := by
  obtain ⟨name, f, isDef2⟩ := isCall
  have isNil : world.L.global (world.temp call.object) = .nil := by
    rw [not_not.mp notRegistered]
    exact noGlobal
  apply not_safe_of_raises
  rw [LuaClass.execute, isDef2]
  exact (RegisterMyFunc_not_found plain isNil unset name f).mpr trivial

/-- A name with its end is written past the end of the buffer where it does not fit. -/
theorem class_add_not_safe (isCall : call.operation = .class_add)
    (long : tempSize ≤ (bindings.name call.object).bytes.length) :
    ¬ Safe tms bindings world call := by
  apply not_safe_of_raises
  rw [LuaClass.execute, isCall]
  dsimp only
  rw [class_add, class_name, if_neg (Nat.not_lt.mpr long)]
  trivial

end NotSafe

/-! ## Two types -/

namespace TwoTypes

def letter (object : Bool) : CString := ⟨[if object then 65 else 66], by cases object <;> decide⟩

def bindings : Bindings Bool Unit Nat where
  name := letter
  distinct := by decide
  named := by decide
  meta_get := 0
  meta_set := 1
  my_getpoint := 2
  destroyer _ := 3
  invoke _ := 4

def noMetamethods : Metamethods :=
  ⟨⟨fun _ => .nil, fun _ _ _ => .ok .nil⟩, ⟨fun _ => .nil, fun heap _ _ _ _ => .ok heap⟩⟩

/-- No globals, and a value on the stack. -/
def start : World Bool Unit Nat Nat :=
  ⟨⟨[.boolean true], ⟨[.empty]⟩, 0, [], []⟩, fun _ => .empty, fun _ _ => false⟩

theorem start_fresh : Fresh start := ⟨rfl, by decide, fun _ => rfl, fun _ _ => rfl⟩

/-- A member of the second type before it is registered, and one again after. -/
def calls : List (Call Bool Unit Nat Nat) :=
  [⟨true, 0, .create 5⟩, ⟨true, 0, .define cpoint ()⟩, ⟨false, 0, .mem cpoint 6⟩,
    ⟨false, 0, .class_add⟩, ⟨false, 0, .mem cpoint 7⟩, ⟨true, 0, .def_cpoint none⟩]

instance decidableApart (world : World Bool Unit Nat Nat) (h : Nat) : Decidable (world.Apart h) :=
  inferInstanceAs (Decidable (_ ∧ ∀ object : Bool, ∀ found ∈ world.classTable object, _))

instance decidableHarmless (world : World Bool Unit Nat Nat) : Decidable world.Harmless :=
  inferInstanceAs (Decidable (∀ h ∈ (world.L.global .empty).handle, world.Apart h))

instance decidableAssignable (world : World Bool Unit Nat Nat) : Decidable world.Assignable :=
  inferInstanceAs (Decidable (∃ h ∈ (world.L.global .empty).handle, world.Apart h ∧ _))

instance decidableAllowed (world : World Bool Unit Nat Nat) (call : Call Bool Unit Nat Nat) :
    Decidable (Allowed bindings world call) :=
  match call with
  | ⟨_, _, .LuaClass⟩ => isTrue trivial
  | ⟨_, _, .create _⟩ => inferInstanceAs (Decidable (_ < _))
  | ⟨_, _, .class_add⟩ => inferInstanceAs (Decidable (_ < _))
  | ⟨_, _, .define _ _⟩ => inferInstanceAs (Decidable (¬ _ ∨ _))
  | ⟨_, _, .mem _ _⟩ => inferInstanceAs (Decidable (¬ _ ∨ _))
  | ⟨_, _, .def2 _ _⟩ => inferInstanceAs (Decidable (¬ _ ∨ _))
  | ⟨_, _, .def_cpoint _⟩ => inferInstanceAs (Decidable (¬ _ ∨ _))

theorem calls_allowed :
    (LuaClass.machine noMetamethods bindings start).MeetsFrom (Allowed bindings) start calls := by
  decide +kernel

end TwoTypes

theorem builders_safe_for_two_types :
    ∃ final, (LuaClass.machine TwoTypes.noMetamethods TwoTypes.bindings TwoTypes.start).run
        TwoTypes.calls = some final ∧
      ∃ h table, final.classTable true = some (h, table) ∧
        Denotes TwoTypes.bindings final.L (table.rawget (.string cpoint.bytes))
          (some (.cfunction 2)) := by
  obtain ⟨_, final, reached, holds⟩ := builders_safe TwoTypes.noMetamethods TwoTypes.bindings
    TwoTypes.start_fresh TwoTypes.calls TwoTypes.calls_allowed
  obtain ⟨h, table, isTable, denotes⟩ := holds true (by decide +kernel)
  exact ⟨final, reached, h, table, isTable, denotes cpoint _ (by decide +kernel)⟩

theorem def2_before_class_raises :
    ¬ (LuaClass.machine TwoTypes.noMetamethods TwoTypes.bindings TwoTypes.start).MeetsFrom
      (Safe TwoTypes.noMetamethods TwoTypes.bindings) TwoTypes.start
        [⟨true, 0, .def2 cpoint 5⟩] := by
  rintro ⟨safe, _⟩
  exact absurd safe (def2_not_safe TwoTypes.start_fresh.plain ⟨cpoint, 5, rfl⟩
    (not_not_intro rfl) rfl rfl)

/-! ## `exportClass` -/

section Export

variable [DecidableEq Object]

/-- Each type is registered, under a name that fits, before its members are bound. -/
def RegisteredFirst (bindings : Bindings Object Func CFunction) :
    List (Call Object Func Variable CFunction) → List (Call Object Func Variable CFunction) → Prop
  | _, [] => True
  | history, call :: calls =>
      (match call.operation with
        | .LuaClass => True
        | .create _ => (bindings.name call.object).bytes.length < tempSize
        | .class_add => (bindings.name call.object).bytes.length < tempSize
        | _ => registered call.object history = true) ∧
      RegisteredFirst bindings (call :: history) calls

variable {bindings : Bindings Object Func CFunction}
  {world : World Object Func Variable CFunction}
  {history calls : List (Call Object Func Variable CFunction)}

theorem registered_of_represents
    (represents : Represents bindings world (Registry.ofHistory bindings history))
    {object : Object} (isRegistered : registered object history = true) :
    world.Registered object := by
  rw [← isSome_classes bindings] at isRegistered
  rw [World.Registered, represents.named object isRegistered]
  exact bindings.named object

theorem allowed_of_registeredFirst (tms : Metamethods)
    {start : World Object Func Variable CFunction}
    (represents : Represents bindings world (Registry.ofHistory bindings history))
    (first : RegisteredFirst bindings history calls) :
    (LuaClass.machine tms bindings start).MeetsFrom (Allowed bindings) world calls := by
  induction calls generalizing world history with
  | nil => trivial
  | cons call calls inductionHypothesis =>
      obtain ⟨ready, later⟩ := first
      have allowed : Allowed bindings world call := by
        obtain ⟨object, builder, operation⟩ := call
        cases operation with
        | LuaClass => trivial
        | create constructor => exact ready
        | class_add => exact ready
        | define name func => exact .inl (registered_of_represents represents ready)
        | def2 name func => exact .inl (registered_of_represents represents ready)
        | def_cpoint name => exact .inl (registered_of_represents represents ready)
        | mem name val => exact .inl (registered_of_represents represents ready)
      obtain ⟨next, stepped, onwards⟩ :=
        history_of_follows tms bindings history world call represents allowed
      refine ⟨allowed, ?_⟩
      dsimp only [LuaClass.machine]
      rw [stepped]
      exact inductionHypothesis onwards later

end Export

/-- The types `exportClass` makes known. -/
inductive Exported where
  | LuaServer
  | StringArg
  | InetAddress
  | EventLoop
  | Thread
  deriving DecidableEq

namespace Exported

def luaName : Exported → CString
  | LuaServer => ⟨ascii "ChatServer", by decide +kernel⟩
  | StringArg => ⟨ascii "StringArg", by decide +kernel⟩
  | InetAddress => ⟨ascii "InetAddress", by decide +kernel⟩
  | EventLoop => ⟨ascii "EventLoop", by decide +kernel⟩
  | Thread => ⟨ascii "Thread", by decide +kernel⟩

def start : CString := ⟨ascii "start", by decide +kernel⟩

def onConnection : CString := ⟨ascii "onConnection", by decide +kernel⟩

def loop : CString := ⟨ascii "loop", by decide +kernel⟩

def join : CString := ⟨ascii "join", by decide +kernel⟩

/-- A builder for each type in turn; `member` is the member function of a name. -/
def exportClass (constructor : Exported → CFunction) (member : Exported → CString → Func) :
    List (Call Exported Func Variable CFunction) :=
  [⟨LuaServer, 0, .LuaClass⟩,
    ⟨LuaServer, 0, .create (constructor LuaServer)⟩,
    ⟨LuaServer, 0, .define start (member LuaServer start)⟩,
    ⟨LuaServer, 0, .define onConnection (member LuaServer onConnection)⟩,
    ⟨StringArg, 0, .LuaClass⟩,
    ⟨StringArg, 0, .create (constructor StringArg)⟩,
    ⟨InetAddress, 0, .LuaClass⟩,
    ⟨InetAddress, 0, .create (constructor InetAddress)⟩,
    ⟨EventLoop, 0, .LuaClass⟩,
    ⟨EventLoop, 0, .create (constructor EventLoop)⟩,
    ⟨EventLoop, 0, .define loop (member EventLoop loop)⟩,
    ⟨Thread, 0, .LuaClass⟩,
    ⟨Thread, 0, .create (constructor Thread)⟩,
    ⟨Thread, 0, .define start (member Thread start)⟩,
    ⟨Thread, 0, .define join (member Thread join)⟩]

theorem luaName_fits (object : Exported) : (luaName object).bytes.length < tempSize := by
  cases object <;> decide +kernel

theorem exportClass_safe (tms : Metamethods) (bindings : Bindings Exported Func CFunction)
    (named : bindings.name = luaName) (constructor : Exported → CFunction)
    (member : Exported → CString → Func) {world : World Exported Func Variable CFunction}
    (fresh : Fresh world) :
    (LuaClass.machine tms bindings world).MeetsFrom (Safe tms bindings) world
      (exportClass constructor member) := by
  have represents : Represents bindings world (Registry.ofHistory bindings []) := fresh.represents
  apply safe_of_allowed tms represents
  apply allowed_of_registeredFirst tms represents
  have fits (object : Exported) : (bindings.name object).bytes.length < tempSize := by
    rw [named]
    exact luaName_fits object
  exact ⟨trivial, fits _, rfl, rfl, trivial, fits _, trivial, fits _, trivial, fits _, rfl,
    trivial, fits _, rfl, rfl, trivial⟩

end Exported

end LuaEngine.Tinker
