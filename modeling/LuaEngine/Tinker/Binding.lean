import LuaEngine.Tinker.Accesses
import LuaEngine.Tinker.Statements

/-!
# From the builder to the object

A script finds in an object what was bound to its type, and otherwise what was bound to
the nearest type that it inherits from.
-/

namespace LuaEngine.Tinker

open LuaEngine.Codec LuaEngine.Lua LuaEngine.System

variable {Object Func Variable Instance CFunction Cell : Type}

/-- The state with objects of classes, behind what the members are constructed in. -/
def World.scene (world : World Object Func Variable CFunction) (objects : List (Nat × Instance))
    (memory : Instance → Variable → Cell) : Scene Func Variable Instance CFunction Cell where
  L :=
    { stack := []
      heap := world.L.heap
      globals := world.L.globals
      closures := world.L.closures
      userdata := world.L.userdata.map (fun payload => ⟨none, .inl payload⟩) ++
        objects.map fun object => ⟨some object.1, .inr object.2⟩ }
  memory := memory

/-- How a member reads, by the slots of the type itself and of those it inherits from: a
variable of a parent is not read, but returned as it is. -/
inductive ReadsAs (bindings : Bindings Object Func CFunction)
    (L : Thread CFunction (Payload Func Variable)) (value : Variable → LuaValue)
    (missing : LuaValue) :
    Option (Slot Func Variable CFunction) → Option (Slot Func Variable CFunction) → Response → Prop
  | variable (val : Variable) (inherited : Option (Slot Func Variable CFunction)) :
      ReadsAs bindings L value missing (some (.mem_var val)) inherited (.value (value val))
  | own {slot : Slot Func Variable CFunction} {entry : LuaValue}
      (inherited : Option (Slot Func Variable CFunction)) : (∀ val, slot ≠ .mem_var val) →
      Denotes bindings L entry (some slot) →
      ReadsAs bindings L value missing (some slot) inherited (.value entry)
  | inherited {slot : Slot Func Variable CFunction} {entry : LuaValue} :
      Denotes bindings L entry (some slot) →
      ReadsAs bindings L value missing none (some slot) (.value entry)
  | missing : ReadsAs bindings L value missing none none (.error missing)

section Reads

variable {bindings : Bindings Object Func CFunction}
  {L : Thread CFunction (Payload Func Variable)}

theorem firstEntry_denotes {heap : Heap} {key : LuaValue} {handle : Object → Nat}
    {slot : Object → Option (Slot Func Variable CFunction)} {objects : List Object}
    (denotes : ∀ object ∈ objects,
      Denotes bindings L ((heap.table (handle object)).rawget key) (slot object)) :
    Denotes bindings L (firstEntry heap key (objects.map handle)) (objects.findSome? slot) := by
  induction objects with
  | nil => exact rfl
  | cons object objects inductionHypothesis =>
      have first := denotes object List.mem_cons_self
      rw [List.map_cons, firstEntry, List.findSome?_cons]
      by_cases absent : (heap.table (handle object)).rawget key = .nil
      · rw [if_pos absent, first.nil_iff.mp absent]
        exact inductionHypothesis fun other membership =>
          denotes other (List.mem_cons_of_mem _ membership)
      · rw [if_neg absent]
        cases isSlot : slot object with
        | none => exact absurd (first.nil_iff.mpr isSlot) absent
        | some found => rwa [isSlot] at first

variable {world : World Object Func Variable CFunction} {objects : List (Nat × Instance)}
  {memory : Instance → Variable → Cell} {layout : Layout Variable Instance Cell}
  {object : Instance} {value : LuaValue}

theorem variableOf_mem_var {val : Variable} (denotes : Denotes bindings world.L value
    (some (.mem_var val))) (has : layout.has object val = true) :
    (world.scene objects memory).variableOf layout object value = some val := by
  obtain ⟨v, rfl, isBlock⟩ := denotes
  apply Scene.variableOf_eq_some.mpr
  refine ⟨v, none, rfl, ?_, has⟩
  have inside : v < (world.L.userdata.map fun payload =>
      (⟨none, .inl payload⟩ : Block Func Variable Instance)).length := by
    rw [List.length_map]
    exact (List.getElem?_eq_some_iff.mp isBlock).1
  have block : (world.L.userdata.map fun payload =>
      (⟨none, .inl payload⟩ : Block Func Variable Instance))[v]? =
        some ⟨none, .inl (.mem_var val)⟩ := by
    rw [List.getElem?_map, isBlock]
    rfl
  exact (List.getElem?_append_left inside).trans block

/-- Only a variable is userdata. -/
theorem Denotes.notUserdata {slot : Option (Slot Func Variable CFunction)}
    (denotes : Denotes bindings L value slot) (notVariable : ∀ val, slot ≠ some (.mem_var val)) :
    value.isUserdata = false := by
  match slot with
  | none =>
      obtain rfl : value = .nil := denotes
      rfl
  | some (.string s) =>
      obtain rfl : value = .string s.bytes := denotes
      rfl
  | some (.cfunction f) =>
      obtain ⟨cl, rfl, -⟩ := denotes
      rfl
  | some (.functor func) =>
      obtain ⟨cl, u, rfl, -⟩ := denotes
      rfl
  | some (.mem_var val) => exact absurd rfl (notVariable val)

/-- A read of an object, by what its class and the classes above denote. -/
theorem index_readsAs (rendering : Rendering) (ofType : LuaValue → Option Nat) {u h : Nat}
    {ancestors : List Nat} {name : CString} {own inherited : Option (Slot Func Variable CFunction)}
    (isObject : (world.scene objects memory).classOf u = some (h, object))
    (lineage : Lineage world.L.heap h ancestors) (shallow : ancestors.length + 1 < LUA_MINSTACK)
    (ownEntry : Denotes bindings world.L ((world.L.heap.table h).rawget (.string name.bytes)) own)
    (above : Denotes bindings world.L
      (firstEntry world.L.heap (.string name.bytes) ancestors) inherited)
    (has : ∀ val, own = some (.mem_var val) → layout.has object val = true) :
    ReadsAs bindings world.L (fun val => layout.push val (memory object val))
      (notFound (some name.bytes)) own inherited
      (index layout rendering ofType (world.scene objects memory) u (.string name.bytes)) := by
  have room : slots (fun p => (world.scene objects memory).contents.entry p (.string name.bytes))
      ancestors < LUA_MINSTACK := (slots_le _ ancestors).trans_lt shallow
  have read := fun notForeign : ¬ (world.scene objects memory).Foreign layout object
      ((world.scene objects memory).contents.entry h (.string name.bytes)) =>
    index_eq rendering ofType isObject notForeign lineage fun _ => room
  have entry : (world.scene objects memory).contents.entry h (.string name.bytes) =
      (world.L.heap.table h).rawget (.string name.bytes) := rfl
  have heap : (world.scene objects memory).L.heap = world.L.heap := rfl
  rw [entry, firstEntry, heap] at read
  by_cases isVariable : ∃ val, own = some (.mem_var val)
  · obtain ⟨val, rfl⟩ := isVariable
    have found : (world.scene objects memory).variableOf layout object _ = some val :=
      variableOf_mem_var ownEntry (has val rfl)
    rw [read fun foreign => Option.some_ne_none _ (found.symm.trans foreign.2), found]
    exact .variable val inherited
  · have notVariable : ∀ val, own ≠ some (.mem_var val) := fun val isVal => isVariable ⟨val, isVal⟩
    have notUserdata := ownEntry.notUserdata notVariable
    have noVariable : (world.scene objects memory).variableOf layout object _ = none :=
      Scene.onUserdata object _ notUserdata
    rw [read fun foreign => Bool.false_ne_true (notUserdata.symm.trans foreign.1), noVariable,
      answer]
    by_cases absent : (world.L.heap.table h).rawget (.string name.bytes) = .nil
    · obtain rfl := ownEntry.nil_iff.mp absent
      rw [if_pos absent]
      by_cases missing : firstEntry world.L.heap (.string name.bytes) ancestors = .nil
      · obtain rfl := above.nil_iff.mp missing
        rw [if_pos missing]
        exact .missing
      · rw [if_neg missing]
        cases inherited with
        | none => exact absurd (above.nil_iff.mpr rfl) missing
        | some slot => exact .inherited above
    · rw [if_neg absent, if_neg absent]
      cases own with
      | none => exact absurd (ownEntry.nil_iff.mpr rfl) absent
      | some slot =>
          exact .own inherited (fun val isVal => notVariable val (congrArg some isVal)) ownEntry

end Reads

/-- What is bound to a type. -/
def memberOf [DecidableEq Object] (bindings : Bindings Object Func CFunction)
    (history : List (Statement Object Func Variable CFunction)) (object : Object) :
    Members Func Variable CFunction := fun name =>
  (lastMember bindings object name (builderCalls history)).or
    (standardMembers bindings object name)

/-- After calls of the builder and of `class_inh` in any order, an object of a registered
type reads each name as the type itself has it, and otherwise as the nearest type above. -/
theorem builders_visible [DecidableEq Object] (tms : Metamethods)
    (bindings : Bindings Object Func CFunction) {start : World Object Func Variable CFunction}
    (fresh : Fresh start) (statements : List (Statement Object Func Variable CFunction))
    (inOrder : InOrder bindings [] statements) :
    ∃ final, (Statement.machine tms bindings start).run statements = some final ∧
      ∀ T ancestors, registered T (builderCalls statements.reverse) = true →
        Ancestors (fun object => parentOf object statements.reverse) T ancestors →
        ancestors.length + 1 < LUA_MINSTACK →
      ∀ (Instance Cell : Type) (layout : Layout Variable Instance Cell) (rendering : Rendering)
        (ofType : LuaValue → Option Nat) (objects : List (Nat × Instance))
        (memory : Instance → Variable → Cell) (u : Nat) (object : Instance) (name : CString),
        name ≠ metaParent →
        (final.scene objects memory).classOf u = some (final.handleOf bindings T, object) →
        (∀ val, memberOf bindings statements.reverse T name = some (.mem_var val) →
          layout.has object val = true) →
        ReadsAs bindings final.L (fun val => layout.push val (memory object val))
          (notFound (some name.bytes)) (memberOf bindings statements.reverse T name)
          (ancestors.findSome? fun other => memberOf bindings statements.reverse other name)
          (index layout rendering ofType (final.scene objects memory) u
            (.string name.bytes)) := by
  obtain ⟨parents, base, final, reached, bound⟩ :=
    run_bound tms start (Bound.initially fresh) inOrder
  rw [List.append_nil] at bound
  refine ⟨final, reached, ?_⟩
  intro T ancestors isRegistered lineage shallow Instance Cell layout rendering ofType objects
    memory u object name notParent isObject has
  refine index_readsAs rendering ofType isObject (bound.lineage lineage isRegistered) ?_
    (bound.denotes isRegistered notParent) (firstEntry_denotes ?_) has
  · rw [List.length_map]
    exact shallow
  · intro other membership
    exact bound.denotes (bound.ancestors lineage other membership) notParent

/-- The first object is behind what the members are constructed in. -/
theorem classOf_first (world : World Object Func Variable CFunction) (h : Nat) (object : Instance)
    (memory : Instance → Variable → Cell) :
    (world.scene [(h, object)] memory).classOf world.L.userdata.length = some (h, object) := by
  simp [Scene.classOf, World.scene]

/-! ### `luaBindClass` of the sample -/

inductive Sample where
  | base
  | test
  deriving DecidableEq

namespace Sample

instance fintype : Fintype Sample := ⟨{base, test}, fun object => by cases object <;> decide⟩

def nameOf : Sample → CString
  | base => ⟨ascii "base", by decide +kernel⟩
  | test => ⟨ascii "test", by decide +kernel⟩

def is_base : CString := ⟨ascii "is_base", by decide +kernel⟩

def is_test : CString := ⟨ascii "is_test", by decide +kernel⟩

def ret_void : CString := ⟨ascii "ret_void", by decide +kernel⟩

def ret_int : CString := ⟨ascii "ret_int", by decide +kernel⟩

def ret_mul : CString := ⟨ascii "ret_mul", by decide +kernel⟩

def get : CString := ⟨ascii "get", by decide +kernel⟩

def set : CString := ⟨ascii "set", by decide +kernel⟩

def memTest : CString := ⟨ascii "_test", by decide +kernel⟩

/-- A member function is known by its name. -/
def bindings : Bindings Sample CString Nat where
  name := nameOf
  distinct := by
    intro first second same
    cases first <;> cases second <;> first | rfl | (revert same; decide +kernel)
  named object := by cases object <;> decide +kernel
  meta_get := 0
  meta_set := 1
  my_getpoint := 2
  destroyer _ := 3
  invoke _ := 4

/-- `test` inherits from `base` after the one is bound and before the other is. -/
def luaBindClass : List (Statement Sample CString Unit Nat) :=
  [.builder ⟨base, 0, .LuaClass⟩,
    .builder ⟨base, 0, .create 5⟩,
    .builder ⟨base, 0, .define is_base is_base⟩,
    .builder ⟨test, 0, .class_add⟩,
    .class_inh test base,
    .class_con test 6,
    .builder ⟨test, 0, .LuaClass⟩,
    .builder ⟨test, 0, .define is_test is_test⟩,
    .builder ⟨test, 0, .define ret_void ret_void⟩,
    .builder ⟨test, 0, .define ret_int ret_int⟩,
    .builder ⟨test, 0, .define ret_mul ret_mul⟩,
    .builder ⟨test, 0, .define get get⟩,
    .builder ⟨test, 0, .define set set⟩,
    .builder ⟨test, 0, .mem memTest ()⟩]

def start : World Sample CString Unit Nat :=
  ⟨⟨[], ⟨[.empty]⟩, 0, [], []⟩, fun _ => .empty, fun _ _ => false⟩

theorem start_fresh : Fresh start := ⟨rfl, by decide, fun _ => rfl, fun _ _ => rfl⟩

theorem luaBindClass_inOrder : InOrder bindings [] luaBindClass := by
  decide +kernel

end Sample

open Sample in
theorem builders_visible_luaBindClass :
    ∃ final : World Sample CString Unit Nat,
      ReadsAs bindings final.L (fun _ => .number (.finite 11)) (notFound (some is_base.bytes))
        none (some (.functor is_base))
        (index sampleLayout sampleRendering (fun _ => none)
          (final.scene [(final.handleOf bindings test, ())] fun _ _ => 11)
          final.L.userdata.length (.string is_base.bytes)) ∧
      ReadsAs bindings final.L (fun _ => .number (.finite 11)) (notFound (some memTest.bytes))
        (some (.mem_var ())) none
        (index sampleLayout sampleRendering (fun _ => none)
          (final.scene [(final.handleOf bindings test, ())] fun _ _ => 11)
          final.L.userdata.length (.string memTest.bytes)) := by
  obtain ⟨final, -, reads⟩ := builders_visible TwoTypes.noMetamethods bindings start_fresh
    luaBindClass luaBindClass_inOrder
  have lineage : Ancestors (fun object => parentOf object luaBindClass.reverse) test [base] :=
    .inherits (by decide +kernel) (.root (by decide +kernel))
  have reads := fun name => reads test [base] (by decide +kernel) lineage (by decide) Unit Int
    sampleLayout sampleRendering (fun _ => none) [(final.handleOf bindings test, ())]
    (fun _ _ => 11) final.L.userdata.length () name
  have isObject := classOf_first final (final.handleOf bindings test) () (fun _ _ => (11 : Int))
  have own : memberOf bindings luaBindClass.reverse test is_base = none := by decide +kernel
  have above : [base].findSome? (fun other =>
      memberOf bindings luaBindClass.reverse other is_base) = some (.functor is_base) := by
    decide +kernel
  have isVariable : memberOf bindings luaBindClass.reverse test memTest =
      some (.mem_var ()) := by decide +kernel
  have notAbove : [base].findSome? (fun other =>
      memberOf bindings luaBindClass.reverse other memTest) = none := by decide +kernel
  have inherited := reads is_base (by decide +kernel) isObject fun _ _ => rfl
  have ownVariable := reads memTest (by decide +kernel) isObject fun _ _ => rfl
  rw [own, above] at inherited
  rw [isVariable, notAbove] at ownVariable
  exact ⟨final, inherited, ownVariable⟩

end LuaEngine.Tinker
