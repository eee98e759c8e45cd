import LuaEngine.Tinker.Inheritance

/-!
# Runs of accesses

A script reads and assigns the members of objects in any order.  What a class holds under
a key, once it is not nil, stays for good; a variable of an object holds what was last
assigned to it.
-/

namespace LuaEngine.Tinker

open LuaEngine.Codec LuaEngine.Lua LuaEngine.System

variable {Func Variable Instance CFunction Cell : Type}

/-- What the classes hold under each key, and the variables of the objects. -/
structure Contents (Variable Instance Cell : Type) where
  entry : Nat → LuaValue → LuaValue
  memory : Instance → Variable → Cell

namespace Event

def u : Event → Nat
  | .index u _ => u
  | .newindex u _ _ => u

def key : Event → LuaValue
  | .index _ key => key
  | .newindex _ key _ => key

end Event

namespace Scene

variable (layout : Layout Variable Instance Cell)
  (scene : Scene Func Variable Instance CFunction Cell)

def contents : Contents Variable Instance Cell :=
  ⟨fun h key => (scene.L.heap.table h).rawget key, scene.memory⟩

/-- The class and the object at an address. -/
def classOf (u : Nat) : Option (Nat × Instance) :=
  match scene.L.userdata[u]? with
  | some ⟨some h, .inr object⟩ => some (h, object)
  | _ => none

/-- The variable of an object that a value stands for. -/
def variableOf (object : Instance) : LuaValue → Option Variable
  | .userdata v =>
      match scene.L.userdata[v]? with
      | some ⟨_, .inl (.mem_var val)⟩ => if layout.has object val then some val else none
      | _ => none
  | _ => none

/-- Userdata that is no variable of the object. -/
def Foreign (object : Instance) (value : LuaValue) : Prop :=
  value.isUserdata = true ∧ scene.variableOf layout object value = none

end Scene

section After

variable [DecidableEq Variable] [DecidableEq Instance] (layout : Layout Variable Instance Cell)
  (classOf : Nat → Option (Nat × Instance))
  (variableOf : Instance → LuaValue → Option Variable)

/-- A variable is assigned to, an entry that is nil is set, any other stays.  A value that
cannot be read as the type of the variable has no place here: the access is undefined. -/
def Contents.assign (contents : Contents Variable Instance Cell) (h : Nat) (object : Instance)
    (key value : LuaValue) : Contents Variable Instance Cell :=
  match variableOf object (contents.entry h key) with
  | some val =>
      match layout.read val value with
      | some cell =>
          { contents with
            memory := Function.update contents.memory object
              (Function.update (contents.memory object) val cell) }
      | none => contents
  | none =>
      if contents.entry h key = .nil ∧ key.isKey = true then
        { contents with
          entry := Function.update contents.entry h
            (Function.update (contents.entry h) key value) }
      else
        contents

def Contents.after (contents : Contents Variable Instance Cell) :
    Event → Contents Variable Instance Cell
  | .index _ _ => contents
  | .newindex u key value =>
      match classOf u with
      | some (h, object) => contents.assign layout variableOf h object key value
      | none => contents

end After

/-- That an access does nothing undefined, by what the classes hold under each key. -/
structure Event.Defined (layout : Layout Variable Instance Cell)
    (scene : Scene Func Variable Instance CFunction Cell) (entry : Nat → LuaValue → LuaValue)
    (h : Nat) (object : Instance) (ancestors : List Nat) (event : Event) : Prop where
  notForeign : ¬ scene.Foreign layout object (entry h event.key)
  /-- The ancestors that have to be asked fit on the stack. -/
  room : ∀ u key, event = .index u key → entry h key = .nil →
    slots (fun p => entry p key) ancestors < LUA_MINSTACK
  /-- What is assigned to a variable can be read as its type. -/
  readable : ∀ u key value val, event = .newindex u key value →
    scene.variableOf layout object (entry h key) = some val → layout.read val value ≠ none

/-! ## One access -/

section Step

variable {layout : Layout Variable Instance Cell} {rendering : Rendering}
  {ofType : LuaValue → Option Nat} {scene next : Scene Func Variable Instance CFunction Cell}
  {u h : Nat} {object : Instance} {key value : LuaValue} {event : Event}

theorem Scene.isObject (isObject : scene.classOf u = some (h, object)) :
    scene.IsObject u h object := by
  rw [Scene.classOf] at isObject
  split at isObject
  next h' object' isBlock =>
    obtain ⟨rfl, rfl⟩ := Prod.mk.inj (Option.some.inj isObject)
    exact isBlock
  next => contradiction

theorem Scene.variableOf_eq_some {val : Variable} :
    scene.variableOf layout object value = some val ↔ scene.IsVariable layout object value val := by
  constructor
  · intro isVariable
    cases value with
    | userdata v =>
        rw [Scene.variableOf] at isVariable
        split at isVariable
        next metatable val' isBlock =>
          split at isVariable
          next has =>
            obtain rfl := Option.some.inj isVariable
            exact ⟨v, metatable, rfl, isBlock, has⟩
          next => contradiction
        next => contradiction
    | _ => contradiction
  · rintro ⟨v, metatable, rfl, isBlock, has⟩
    simp [Scene.variableOf, isBlock, has]

theorem Scene.foreign_iff :
    scene.Foreign layout object value ↔
      value.isUserdata = true ∧ ∀ val, ¬ scene.IsVariable layout object value val := by
  rw [Scene.Foreign, Option.eq_none_iff_forall_ne_some]
  simp only [ne_eq, Scene.variableOf_eq_some]

/-- What an access leaves alone, and what it makes of the contents. -/
structure Scene.Follows [DecidableEq Variable] [DecidableEq Instance]
    (layout : Layout Variable Instance Cell) (scene : Scene Func Variable Instance CFunction Cell)
    (event : Event) (next : Scene Func Variable Instance CFunction Cell) : Prop where
  userdata : next.L.userdata = scene.L.userdata
  size : next.L.heap.size = scene.L.heap.size
  contents : next.contents =
    scene.contents.after layout scene.classOf (scene.variableOf layout) event

variable [DecidableEq Variable] [DecidableEq Instance]

theorem access_eq_none
    (undefined : (execute layout rendering ofType scene event).Meets
      ⟨fun _ _ => False, fun error _ => error = .undefined, False⟩) :
    access layout rendering ofType scene event = none := by
  unfold access
  cases outcome : execute layout rendering ofType scene event with
  | returned _ final => rw [outcome] at undefined; exact undefined.elim
  | raised error final =>
      rw [outcome] at undefined
      obtain rfl : error = .undefined := undefined
      rfl
  | unfinished => rfl

theorem access_eq_some {holds : Scene Func Variable Instance CFunction Cell → Prop}
    (defined : (execute layout rendering ofType scene event).Meets
      ⟨fun _ final => holds final, fun error final => error ≠ .undefined ∧ holds final, False⟩) :
    ∃ final, access layout rendering ofType scene event = some final ∧ holds final := by
  unfold access
  cases outcome : execute layout rendering ofType scene event with
  | returned _ final =>
      rw [outcome] at defined
      exact ⟨final, rfl, defined⟩
  | raised error final =>
      rw [outcome] at defined
      obtain ⟨isDefined, holds⟩ := defined
      cases error with
      | raised value => exact ⟨final, rfl, holds⟩
      | undefined => exact absurd rfl isDefined
  | unfinished => rw [outcome] at defined; exact defined.elim

theorem Scene.Same.follows (same : scene.Same next)
    (unchanged : scene.contents.after layout scene.classOf (scene.variableOf layout) event =
      scene.contents) : scene.Follows layout event next := by
  obtain ⟨stack, rfl⟩ := same
  exact ⟨rfl, rfl, unchanged.symm⟩

theorem entries_update {heap : Heap} (inside : h < heap.size) (valid : key.isKey = true)
    (value : LuaValue) :
    (fun h' key' => ((heap.update h fun table => table.rawset key value valid).table h').rawget
      key') = Function.update (fun h' key' => (heap.table h').rawget key') h
        (Function.update (fun key' => (heap.table h).rawget key') key value) := by
  funext h' key'
  by_cases same : h' = h
  · rw [same, Function.update_self, heap.table_update_self _ inside]
    by_cases sameKey : key' = key
    · rw [sameKey, Function.update_self, Table.rawget_rawset_self]
    · rw [Function.update_of_ne sameKey, Table.rawget_rawset_of_ne _ _ _ sameKey]
  · rw [Function.update_of_ne same, heap.table_update_of_ne _ same]

section Defined

variable (isObject : scene.classOf u = some (h, object))
  (notForeign : ¬ scene.Foreign layout object (scene.contents.entry h key))

include isObject notForeign

theorem index_follows {ancestors : List Nat} (lineage : Lineage scene.L.heap h ancestors)
    (room : scene.contents.entry h key = .nil →
      slots (fun p => scene.contents.entry p key) ancestors < LUA_MINSTACK) :
    (execute layout rendering ofType scene (.index u key)).Meets
      ⟨fun _ final => scene.Follows layout (.index u key) final,
        fun error final => error ≠ .undefined ∧ scene.Follows layout (.index u key) final,
        False⟩ := by
  have isBlock := Scene.isObject isObject
  have follows : ∀ final, scene.Same final → scene.Follows layout (.index u key) final :=
    fun final same => same.follows rfl
  cases isVariable : scene.variableOf layout object (scene.contents.entry h key) with
  | some val =>
      have isOwn := Scene.variableOf_eq_some.mp isVariable
      exact (meta_get_variable isBlock isOwn).mpr (follows _ ⟨_, rfl⟩)
  | none =>
      have notUserdata : (scene.contents.entry h key).isUserdata = false := by
        by_contra isUserdata
        exact notForeign ⟨Bool.eq_true_of_not_eq_false isUserdata, isVariable⟩
      by_cases absent : scene.contents.entry h key = .nil
      · have inherits := lineage.inherits_first key
        by_cases missing : firstEntry scene.L.heap key ancestors = .nil
        · rw [missing] at inherits
          apply (meta_get_missing isBlock absent inherits (room absent)).consequence
          · intro _ _ impossible
            exact impossible.elim
          · rintro error final ⟨rfl, same⟩
            exact ⟨Failure.noConfusion, follows final same⟩
          · exact id
        · exact (meta_get_inherited isBlock absent inherits missing (room absent)).mpr
            (follows _ ⟨_, rfl⟩)
      · exact (meta_get_entry isBlock notUserdata absent).mpr (follows _ ⟨_, rfl⟩)

theorem newindex_follows (inside : h < scene.L.heap.size)
    (readable : ∀ val, scene.variableOf layout object (scene.contents.entry h key) = some val →
      layout.read val value ≠ none) :
    (execute layout rendering ofType scene (.newindex u key value)).Meets
      ⟨fun _ final => scene.Follows layout (.newindex u key value) final,
        fun error final => error ≠ .undefined ∧ scene.Follows layout (.newindex u key value) final,
        False⟩ := by
  have isBlock := Scene.isObject isObject
  have after : scene.contents.after layout scene.classOf (scene.variableOf layout)
      (.newindex u key value) =
        scene.contents.assign layout (scene.variableOf layout) h object key value := by
    rw [Contents.after, isObject]
  cases isVariable : scene.variableOf layout object (scene.contents.entry h key) with
  | some val =>
      obtain ⟨cell, reads⟩ := Option.ne_none_iff_exists'.mp (readable val isVariable)
      rw [Contents.assign, isVariable] at after
      dsimp only at after
      rw [reads] at after
      have isOwn := Scene.variableOf_eq_some.mp isVariable
      exact (meta_set_variable isBlock isOwn reads).mpr ⟨rfl, rfl, after.symm⟩
  | none =>
      rw [Contents.assign, isVariable] at after
      dsimp only at after
      by_cases absent : scene.contents.entry h key = .nil
      · by_cases valid : key.isKey = true
        · rw [if_pos ⟨absent, valid⟩] at after
          have sets : scene.L.heap.luaV_settable h key value =
              .ok (scene.L.heap.update h fun table => table.rawset key value valid) :=
            dif_pos valid
          refine (meta_set_absent isBlock absent sets).mpr ⟨rfl, scene.L.heap.size_update h _, ?_⟩
          rw [after]
          exact congrArg (Contents.mk · scene.memory) (entries_update inside valid value)
        · rw [if_neg (fun both => valid both.2)] at after
          have fails : ∃ error, scene.L.heap.luaV_settable h key value = .error error := by
            rw [Heap.luaV_settable, dif_neg valid]
            split
            next => exact ⟨_, rfl⟩
            next => exact ⟨_, rfl⟩
          obtain ⟨error, fails⟩ := fails
          apply (meta_set_invalid isBlock absent fails).consequence
          · intro _ _ impossible
            exact impossible.elim
          · rintro raised final ⟨rfl, same⟩
            exact ⟨Failure.noConfusion, same.follows after⟩
          · exact id
      · rw [if_neg (fun both => absent both.1)] at after
        have notUserdata : (scene.contents.entry h key).isUserdata = false := by
          by_contra isUserdata
          exact notForeign ⟨Bool.eq_true_of_not_eq_false isUserdata, isVariable⟩
        exact (meta_set_entry isBlock notUserdata absent).mpr
          (Scene.Same.follows ⟨_, rfl⟩ after)

end Defined

/-- An access that is not defined comes to no next state. -/
theorem access_undefined (isObject : scene.classOf event.u = some (h, object))
    {ancestors : List Nat} (lineage : Lineage scene.L.heap h ancestors)
    (undefined : ¬ event.Defined layout scene scene.contents.entry h object ancestors) :
    access layout rendering ofType scene event = none := by
  have isBlock := Scene.isObject isObject
  apply access_eq_none
  by_cases foreign : scene.Foreign layout object (scene.contents.entry h event.key)
  · obtain ⟨isUserdata, notVariable⟩ := Scene.foreign_iff.mp foreign
    cases event with
    | index u key => exact (meta_get_foreign isBlock isUserdata notVariable).mpr rfl
    | newindex u key value => exact (meta_set_foreign isBlock isUserdata notVariable).mpr rfl
  · cases event with
    | index u key =>
        have deep : ¬ (scene.contents.entry h key = .nil →
            slots (fun p => scene.contents.entry p key) ancestors < LUA_MINSTACK) := by
          intro room
          apply undefined
          refine ⟨foreign, ?_, ?_⟩
          · rintro _ _ ⟨rfl, rfl⟩
            exact room
          · rintro _ _ _ _ ⟨⟩
        obtain ⟨absent, full⟩ := Classical.not_imp.mp deep
        refine meta_get_overflows isBlock absent fun n value inherits => ?_
        rw [(lineage.inherits_first key).unique inherits]
        exact not_lt.mp full
    | newindex u key value =>
        have unreadable : ∃ val, scene.variableOf layout object (scene.contents.entry h key) =
            some val ∧ layout.read val value = none := by
          by_contra readable
          apply undefined
          refine ⟨foreign, ?_, ?_⟩
          · rintro _ _ ⟨⟩
          · rintro _ _ _ val ⟨rfl, rfl, rfl⟩ isVariable unread
            exact readable ⟨val, isVariable, unread⟩
        obtain ⟨val, isVariable, unread⟩ := unreadable
        exact (meta_set_unreadable isBlock (Scene.variableOf_eq_some.mp isVariable) unread).mpr rfl

variable (rendering) (ofType) in
/-- A defined access does to the contents what `Contents.after` says. -/
theorem access_defined (isObject : scene.classOf event.u = some (h, object))
    (inside : h < scene.L.heap.size) {ancestors : List Nat}
    (lineage : Lineage scene.L.heap h ancestors)
    (defined : event.Defined layout scene scene.contents.entry h object ancestors) :
    ∃ next, access layout rendering ofType scene event = some next ∧
      scene.Follows layout event next := by
  apply access_eq_some
  cases event with
  | index u key => exact index_follows isObject defined.notForeign lineage (defined.room u key rfl)
  | newindex u key value =>
      exact newindex_follows isObject defined.notForeign inside
        fun val => defined.readable u key value val rfl

end Step

/-! ## What is read -/

/-- The answer to a read, by the variable that the class holds, or by the first entry in
the lineage. -/
def answer (layout : Layout Variable Instance Cell) (rendering : Rendering) (key : LuaValue)
    (isVariable : Option Variable) (memory : Variable → Cell) (entry : LuaValue) : Response :=
  match isVariable with
  | some val => .value (layout.push val (memory val))
  | none => if entry = .nil then .error (notFound (rendering.text key)) else .value entry

section Index

variable {layout : Layout Variable Instance Cell} (rendering : Rendering)
  (ofType : LuaValue → Option Nat) {scene : Scene Func Variable Instance CFunction Cell}
  {u h : Nat} {object : Instance} {key : LuaValue}

theorem response_returned
    {outcome : Outcome (Scene Func Variable Instance CFunction Cell) Failure Unit}
    {final : Scene Func Variable Instance CFunction Cell}
    (meets : outcome.Meets ⟨fun _ state => state = final, fun _ _ => False, False⟩) :
    response outcome = .value (final.L.stack.headD .nil) := by
  cases outcome with
  | returned _ state =>
      obtain rfl : state = final := meets
      rfl
  | raised error state => exact meets.elim
  | unfinished => exact meets.elim

theorem response_raised
    {outcome : Outcome (Scene Func Variable Instance CFunction Cell) Failure Unit}
    {value : LuaValue} {holds : Scene Func Variable Instance CFunction Cell → Prop}
    (meets : outcome.Meets
      ⟨fun _ _ => False, fun error final => error = .raised value ∧ holds final, False⟩) :
    response outcome = .error value := by
  cases outcome with
  | returned _ state => exact meets.elim
  | raised error state =>
      obtain ⟨rfl, -⟩ := meets
      rfl
  | unfinished => exact meets.elim

theorem index_eq (isObject : scene.classOf u = some (h, object))
    (notForeign : ¬ scene.Foreign layout object (scene.contents.entry h key))
    {ancestors : List Nat} (lineage : Lineage scene.L.heap h ancestors)
    (room : scene.contents.entry h key = .nil →
      slots (fun p => scene.contents.entry p key) ancestors < LUA_MINSTACK) :
    index layout rendering ofType scene u key =
      answer layout rendering key (scene.variableOf layout object (scene.contents.entry h key))
        (scene.memory object) (firstEntry scene.L.heap key (h :: ancestors)) := by
  have isBlock := Scene.isObject isObject
  unfold index firstEntry
  cases isVariable : scene.variableOf layout object (scene.contents.entry h key) with
  | some val =>
      unfold answer
      exact response_returned
        ((meta_get_variable isBlock (Scene.variableOf_eq_some.mp isVariable)).mpr rfl)
  | none =>
      have notUserdata : (scene.contents.entry h key).isUserdata = false := by
        by_contra isUserdata
        exact notForeign ⟨Bool.eq_true_of_not_eq_false isUserdata, isVariable⟩
      unfold answer
      by_cases absent : (scene.L.heap.table h).rawget key = .nil
      · have inherits := lineage.inherits_first key
        rw [if_pos absent]
        by_cases missing : firstEntry scene.L.heap key ancestors = .nil
        · rw [if_pos missing]
          rw [missing] at inherits
          exact response_raised (meta_get_missing isBlock absent inherits (room absent))
        · rw [if_neg missing]
          exact response_returned
            ((meta_get_inherited isBlock absent inherits missing (room absent)).mpr rfl)
      · rw [if_neg absent, if_neg absent]
        exact response_returned ((meta_get_entry isBlock notUserdata absent).mpr rfl)

end Index

/-! ## Histories -/

/-- The first value that is not nil. -/
def firstValue (values : List LuaValue) : LuaValue := (values.find? (· ≠ .nil)).getD .nil

/-- What is assigned under a key through the objects of a class. -/
def assigned (classOf : Nat → Option (Nat × Instance)) (h : Nat) (key : LuaValue)
    (events : List Event) : List LuaValue :=
  events.filterMap fun event =>
    match event with
    | .index _ _ => none
    | .newindex u key' value =>
        if (classOf u).map Prod.fst = some h ∧ key' = key ∧ key.isKey = true then some value
        else none

/-- What a variable of an object comes to hold, by the keys it is registered under. -/
def written [DecidableEq Variable] [DecidableEq Instance] (layout : Layout Variable Instance Cell)
    (classOf : Nat → Option (Nat × Instance)) (variableOf : Instance → LuaValue → Option Variable)
    (entry : Nat → LuaValue → LuaValue) (object : Instance) (val : Variable)
    (events : List Event) : List Cell :=
  events.filterMap fun event =>
    match event with
    | .index _ _ => none
    | .newindex u key value =>
        match classOf u with
        | some (h, object') =>
            if object' = object ∧ variableOf object' (entry h key) = some val then
              layout.read val value
            else
              none
        | none => none

theorem firstValue_cons (value : LuaValue) (values : List LuaValue) :
    firstValue (value :: values) = if value = .nil then firstValue values else value := by
  by_cases isNil : value = .nil
  · rw [if_pos isNil, firstValue, List.find?_cons_of_neg (by simpa using isNil)]
    rfl
  · rw [if_neg isNil, firstValue, List.find?_cons_of_pos (by simpa using isNil)]
    rfl

theorem firstValue_singleton (value : LuaValue) : firstValue [value] = value := by
  rw [firstValue_cons]
  by_cases isNil : value = .nil
  · rw [if_pos isNil, isNil]
    rfl
  · rw [if_neg isNil]

theorem firstValue_append (first second : List LuaValue) :
    firstValue (firstValue first :: second) = firstValue (first ++ second) := by
  induction first with
  | nil => exact (firstValue_cons .nil second).trans (if_pos rfl)
  | cons value first inductionHypothesis =>
      rw [List.cons_append, firstValue_cons value (first ++ second), ← inductionHypothesis,
        firstValue_cons value first]
      by_cases isNil : value = .nil
      · rw [if_pos isNil, if_pos isNil]
      · rw [if_neg isNil, if_neg isNil, firstValue_cons, if_neg isNil]

/-- No userdata but where the class has an entry from the start. -/
def Event.Plain (classOf : Nat → Option (Nat × Instance)) (entry : Nat → LuaValue → LuaValue)
    (event : Event) : Prop :=
  ∀ u key value h object, event = .newindex u key value → classOf u = some (h, object) →
    value.isUserdata = true → entry h key ≠ .nil

/-- The entries from the start, and new ones that are no userdata. -/
def Grows (entry entry' : Nat → LuaValue → LuaValue) : Prop :=
  ∀ h key, entry' h key = entry h key ∨ entry h key = .nil ∧ (entry' h key).isUserdata = false

section Fold

variable {layout : Layout Variable Instance Cell}
  {classOf : Nat → Option (Nat × Instance)} {variableOf : Instance → LuaValue → Option Variable}
  (onUserdata : ∀ object value, value.isUserdata = false → variableOf object value = none)

include onUserdata

theorem Grows.registered {entry entry' : Nat → LuaValue → LuaValue} (grows : Grows entry entry')
    (object : Instance) (h : Nat) (key : LuaValue) :
    variableOf object (entry' h key) = variableOf object (entry h key) := by
  rcases grows h key with same | ⟨isNil, notUserdata⟩
  · rw [same]
  · rw [onUserdata object _ notUserdata, isNil, onUserdata object .nil rfl]

variable [DecidableEq Variable] [DecidableEq Instance]

theorem assign_entry (contents : Contents Variable Instance Cell) (h : Nat) (object : Instance)
    (key value : LuaValue) (h' : Nat) (key' : LuaValue) :
    (contents.assign layout variableOf h object key value).entry h' key' =
      if h = h' ∧ key = key' ∧ key'.isKey = true ∧ contents.entry h' key' = .nil then value
      else contents.entry h' key' := by
  by_cases here : h = h' ∧ key = key'
  · obtain ⟨rfl, rfl⟩ := here
    by_cases absent : contents.entry h key = .nil
    · have notVariable := onUserdata object (contents.entry h key) (by rw [absent]; rfl)
      rw [Contents.assign, notVariable]
      by_cases valid : key.isKey = true
      · simp [absent, valid]
      · simp [valid]
    · rw [if_neg fun all => absent all.2.2.2, Contents.assign]
      cases variableOf object (contents.entry h key) with
      | some val =>
          dsimp only
          split
          next => rfl
          next => rfl
      | none => simp [absent]
  · rw [if_neg fun all => here ⟨all.1, all.2.1⟩, Contents.assign]
    cases variableOf object (contents.entry h key) with
    | some val =>
        dsimp only
        split
        next => rfl
        next => rfl
    | none =>
        dsimp only
        split
        next =>
          by_cases sameClass : h' = h
          · have otherKey : key' ≠ key := fun sameKey => here ⟨sameClass.symm, sameKey.symm⟩
            simp only [sameClass, Function.update_self, Function.update_of_ne otherKey]
          · simp only [Function.update_of_ne sameClass]
        next => rfl

theorem after_entry (contents : Contents Variable Instance Cell) (event : Event) (h : Nat)
    (key : LuaValue) :
    (contents.after layout classOf variableOf event).entry h key =
      firstValue (contents.entry h key :: assigned classOf h key [event]) := by
  have unchanged := (firstValue_singleton (contents.entry h key)).symm
  cases event with
  | index u key' => exact unchanged
  | newindex u key' value =>
      rw [Contents.after]
      cases isObject : classOf u with
      | none =>
          have notAssigned : assigned classOf h key [.newindex u key' value] = [] := by
            simp [assigned, isObject]
          rw [notAssigned]
          exact unchanged
      | some found =>
          obtain ⟨h', object⟩ := found
          dsimp only
          rw [assign_entry onUserdata]
          by_cases here : h' = h ∧ key' = key ∧ key.isKey = true
          · have isAssigned : assigned classOf h key [.newindex u key' value] = [value] := by
              simp [assigned, isObject, here]
            rw [isAssigned, firstValue_cons]
            by_cases absent : contents.entry h key = .nil
            · rw [if_pos ⟨here.1, here.2.1, here.2.2, absent⟩, if_pos absent, firstValue_singleton]
            · rw [if_neg fun all => absent all.2.2.2, if_neg absent]
          · have notAssigned : assigned classOf h key [.newindex u key' value] = [] := by
              simpa [assigned, isObject] using fun first second => not_and.mp
                (not_and.mp here first) second
            rw [notAssigned, if_neg fun all => here ⟨all.1, all.2.1, all.2.2.1⟩]
            exact unchanged

/-- First come, first served. -/
theorem foldl_after_entry (contents : Contents Variable Instance Cell) (events : List Event)
    (h : Nat) (key : LuaValue) :
    (events.foldl (Contents.after layout classOf variableOf) contents).entry h key =
      firstValue (contents.entry h key :: assigned classOf h key events) := by
  induction events generalizing contents with
  | nil => exact (firstValue_singleton _).symm
  | cons event events inductionHypothesis =>
      have split : assigned classOf h key (event :: events) =
          assigned classOf h key [event] ++ assigned classOf h key events :=
        List.filterMap_append (l := [event])
      rw [List.foldl_cons, inductionHypothesis, after_entry onUserdata, firstValue_append, split]
      rfl

theorem Grows.after {entry : Nat → LuaValue → LuaValue} {contents : Contents Variable Instance Cell}
    (grows : Grows entry contents.entry) {event : Event} (plain : event.Plain classOf entry) :
    Grows entry (contents.after layout classOf variableOf event).entry := by
  cases event with
  | index u key => exact grows
  | newindex u key value =>
      rw [Contents.after]
      cases isObject : classOf u with
      | none => exact grows
      | some found =>
          obtain ⟨h, object⟩ := found
          intro h' key'
          dsimp only
          rw [assign_entry onUserdata]
          split
          next here =>
            obtain ⟨rfl, rfl, -, absent⟩ := here
            have wasAbsent : entry h key = .nil := by
              rcases grows h key with same | ⟨isNil, -⟩
              · rw [← same, absent]
              · exact isNil
            refine .inr ⟨wasAbsent, ?_⟩
            by_contra isUserdata
            exact plain u key value h object rfl isObject
              (Bool.eq_true_of_not_eq_false isUserdata) wasAbsent
          next => exact grows h' key'

theorem after_memory {entry : Nat → LuaValue → LuaValue}
    (contents : Contents Variable Instance Cell)
    (grows : Grows entry contents.entry) (event : Event) (object : Instance) (val : Variable) :
    (contents.after layout classOf variableOf event).memory object val =
      (written layout classOf variableOf entry object val [event]).getLast?.getD
        (contents.memory object val) := by
  cases event with
  | index u key => rfl
  | newindex u key value =>
      rw [Contents.after]
      cases isObject : classOf u with
      | none => simp [written, isObject]
      | some found =>
          obtain ⟨h, object'⟩ := found
          dsimp only
          rw [Contents.assign, grows.registered onUserdata]
          cases isVariable : variableOf object' (entry h key) with
          | none =>
              have unchanged :
                  written layout classOf variableOf entry object val [.newindex u key value] =
                    [] := by
                simp [written, isObject, isVariable]
              rw [unchanged]
              dsimp only
              split
              next => rfl
              next => rfl
          | some val' =>
              by_cases here : object' = object ∧ val' = val
              · obtain ⟨rfl, rfl⟩ := here
                cases reads : layout.read val' value with
                | some cell => simp [written, isObject, isVariable, reads]
                | none => simp [written, isObject, isVariable, reads]
              · have unchanged :
                    written layout classOf variableOf entry object val [.newindex u key value] =
                      [] := by
                  have other : ¬ (object' = object ∧
                      variableOf object' (entry h key) = some val) := by
                    rw [isVariable]
                    exact fun both => here ⟨both.1, Option.some.inj both.2⟩
                  simp only [written, isObject, if_neg other, List.filterMap_cons,
                    List.filterMap_nil]
                rw [unchanged]
                dsimp only
                cases layout.read val' value with
                | none => rfl
                | some cell =>
                    dsimp only
                    by_cases same : object = object'
                    · have other : val ≠ val' := fun sameVariable =>
                        here ⟨same.symm, sameVariable.symm⟩
                      rw [same, Function.update_self, Function.update_of_ne other]
                      rfl
                    · rw [Function.update_of_ne same]
                      rfl

/-- The last one counts. -/
theorem foldl_after_memory {entry : Nat → LuaValue → LuaValue}
    (contents : Contents Variable Instance Cell) (grows : Grows entry contents.entry)
    {events : List Event} (plain : ∀ event ∈ events, event.Plain classOf entry)
    (object : Instance) (val : Variable) :
    (events.foldl (Contents.after layout classOf variableOf) contents).memory object val =
      (written layout classOf variableOf entry object val events).getLast?.getD
        (contents.memory object val) := by
  induction events generalizing contents with
  | nil => rfl
  | cons event events inductionHypothesis =>
      have split : written layout classOf variableOf entry object val (event :: events) =
          written layout classOf variableOf entry object val [event] ++
            written layout classOf variableOf entry object val events :=
        List.filterMap_append (l := [event])
      rw [List.foldl_cons, inductionHypothesis _
        (grows.after onUserdata (plain event List.mem_cons_self))
        fun other membership => plain other (List.mem_cons_of_mem _ membership),
        after_memory onUserdata contents grows, split, List.getLast?_append]
      cases (written layout classOf variableOf entry object val events).getLast? <;> rfl

theorem Grows.foldl {entry : Nat → LuaValue → LuaValue} {contents : Contents Variable Instance Cell}
    (grows : Grows entry contents.entry) {events : List Event}
    (plain : ∀ event ∈ events, event.Plain classOf entry) :
    Grows entry (events.foldl (Contents.after layout classOf variableOf) contents).entry := by
  induction events generalizing contents with
  | nil => exact grows
  | cons event events inductionHypothesis =>
      exact inductionHypothesis (grows.after onUserdata (plain event List.mem_cons_self))
        fun other membership => plain other (List.mem_cons_of_mem _ membership)

end Fold

/-! ## Runs -/

section Runs

variable {layout : Layout Variable Instance Cell} {rendering : Rendering}
  {ofType : LuaValue → Option Nat} {scene next final : Scene Func Variable Instance CFunction Cell}
  {event : Event} {events : List Event}

/-- Objects have class tables, whose parents do not go round in a circle. -/
structure Scene.Sound (scene : Scene Func Variable Instance CFunction Cell) : Prop where
  inside : ∀ u h object, scene.classOf u = some (h, object) → h < scene.L.heap.size
  lineage : ∀ u h object, scene.classOf u = some (h, object) →
    ∃ ancestors, Lineage scene.L.heap h ancestors

/-- An access to an object that does not assign its `__parent`. -/
structure Event.Allowed (scene : Scene Func Variable Instance CFunction Cell) (event : Event) :
    Prop where
  isObject : ∃ h object, scene.classOf event.u = some (h, object)
  keepsParent : ∀ u value, event ≠ .newindex u parentKey value

theorem Scene.onUserdata (object : Instance) (value : LuaValue)
    (notUserdata : value.isUserdata = false) : scene.variableOf layout object value = none := by
  cases value with
  | userdata u => contradiction
  | _ => rfl

theorem Lineage.congr {heap heap' : Heap} {h : Nat} {ancestors : List Nat}
    (same : ∀ h, (heap'.table h).rawget parentKey = (heap.table h).rawget parentKey)
    (lineage : Lineage heap h ancestors) : Lineage heap' h ancestors := by
  induction lineage with
  | root isNil => exact .root ((same _).trans isNil)
  | inherits isParent _ inductionHypothesis =>
      exact .inherits ((same _).trans isParent) inductionHypothesis

theorem Grows.notForeign {entry : Nat → LuaValue → LuaValue}
    (grows : Grows scene.contents.entry entry) {h : Nat} {object : Instance} {key : LuaValue}
    (registered : ¬ scene.Foreign layout object (scene.contents.entry h key)) :
    ¬ scene.Foreign layout object (entry h key) := by
  rintro ⟨isUserdata, notVariable⟩
  rcases grows h key with same | ⟨-, notUserdata⟩
  · rw [same] at isUserdata notVariable
    exact registered ⟨isUserdata, notVariable⟩
  · rw [notUserdata] at isUserdata
    contradiction

theorem firstEntry_eq (heap : Heap) (key : LuaValue) (classes : List Nat) :
    firstEntry heap key classes = firstValue (classes.map fun h => (heap.table h).rawget key) := by
  induction classes with
  | nil => rfl
  | cons h rest inductionHypothesis =>
      rw [firstEntry, List.map_cons, firstValue_cons, inductionHypothesis]

variable [DecidableEq Variable] [DecidableEq Instance]

theorem Scene.Follows.classOf (follows : scene.Follows layout event next) :
    next.classOf = scene.classOf := by
  funext u
  rw [Scene.classOf, Scene.classOf, follows.userdata]

theorem Scene.Follows.variableOf (follows : scene.Follows layout event next) :
    next.variableOf layout = scene.variableOf layout := by
  funext object value
  cases value with
  | userdata v => simp only [Scene.variableOf, follows.userdata]
  | _ => rfl

theorem Scene.Follows.parent (follows : scene.Follows layout event next)
    (allowed : event.Allowed scene) (h : Nat) :
    (next.L.heap.table h).rawget parentKey = (scene.L.heap.table h).rawget parentKey := by
  have entry := congrArg (fun contents => contents.entry h parentKey) follows.contents
  have notAssigned : assigned scene.classOf h parentKey [event] = [] := by
    cases event with
    | index u key => rfl
    | newindex u key value =>
        have otherKey : key ≠ parentKey := by
          rintro rfl
          exact allowed.keepsParent u value rfl
        simp [assigned, otherKey]
  rw [after_entry Scene.onUserdata, notAssigned, firstValue_singleton] at entry
  exact entry

theorem Scene.Sound.follows (sound : scene.Sound) (follows : scene.Follows layout event next)
    (allowed : event.Allowed scene) : next.Sound where
  inside u h object isObject := by
    rw [follows.classOf] at isObject
    rw [follows.size]
    exact sound.inside u h object isObject
  lineage u h object isObject := by
    rw [follows.classOf] at isObject
    obtain ⟨ancestors, lineage⟩ := sound.lineage u h object isObject
    exact ⟨ancestors, lineage.congr (follows.parent allowed)⟩

/-- What a run has made of a state. -/
structure Scene.Reaches (layout : Layout Variable Instance Cell)
    (scene : Scene Func Variable Instance CFunction Cell) (events : List Event)
    (final : Scene Func Variable Instance CFunction Cell) : Prop where
  sound : final.Sound
  classOf : final.classOf = scene.classOf
  variableOf : final.variableOf layout = scene.variableOf layout
  parent : ∀ h, (final.L.heap.table h).rawget parentKey = (scene.L.heap.table h).rawget parentKey
  contents : final.contents =
    events.foldl (Contents.after layout scene.classOf (scene.variableOf layout)) scene.contents

/-- What a class holds under a key after a run: what it held, or what was first assigned. -/
def Scene.entryAfter (scene : Scene Func Variable Instance CFunction Cell) (events : List Event)
    (h : Nat) (key : LuaValue) : LuaValue :=
  firstValue (scene.contents.entry h key :: assigned scene.classOf h key events)

variable (layout) in
theorem foldl_after_contents (scene : Scene Func Variable Instance CFunction Cell)
    (events : List Event) :
    (events.foldl (Contents.after layout scene.classOf (scene.variableOf layout))
      scene.contents).entry = scene.entryAfter events := by
  funext h key
  exact foldl_after_entry Scene.onUserdata scene.contents events h key

theorem Scene.Reaches.entry (reaches : scene.Reaches layout events final) :
    final.contents.entry = scene.entryAfter events := by
  rw [reaches.contents, foldl_after_contents]

theorem Scene.Reaches.step (reaches : scene.Reaches layout events final)
    (follows : final.Follows layout event next) (allowed : event.Allowed scene) :
    scene.Reaches layout (events ++ [event]) next where
  sound := reaches.sound.follows follows
    ⟨by rw [reaches.classOf]; exact allowed.isObject, allowed.keepsParent⟩
  classOf := follows.classOf.trans reaches.classOf
  variableOf := follows.variableOf.trans reaches.variableOf
  parent h := (follows.parent
    ⟨by rw [reaches.classOf]; exact allowed.isObject, allowed.keepsParent⟩ h).trans
      (reaches.parent h)
  contents := by
    rw [List.foldl_append, ← reaches.contents, ← reaches.classOf, ← reaches.variableOf]
    exact follows.contents

variable (rendering) (ofType)

theorem run_reaches (sound : scene.Sound) (allowed : ∀ event ∈ events, event.Allowed scene)
    (reached : (accesses layout rendering ofType scene).runFrom scene events = some final) :
    scene.Reaches layout events final := by
  refine (accesses layout rendering ofType scene).runFrom_induction
    (motive := fun events final => (∀ event ∈ events, event.Allowed scene) →
      scene.Reaches layout events final) ?_ ?_ reached allowed
  · intro _
    exact ⟨sound, rfl, rfl, fun _ => rfl, rfl⟩
  · intro events middle event next before stepped allowed
    have reaches := before fun other membership =>
      allowed other (List.mem_append_left _ membership)
    have isAllowed := allowed event (List.mem_append_right _ (List.mem_singleton_self event))
    obtain ⟨h, object, isObject⟩ := isAllowed.isObject
    rw [← reaches.classOf] at isObject
    obtain ⟨ancestors, lineage⟩ := reaches.sound.lineage _ h object isObject
    by_cases defined : event.Defined layout middle middle.contents.entry h object ancestors
    · obtain ⟨next', stepped', follows⟩ := access_defined rendering ofType isObject
        (reaches.sound.inside _ h object isObject) lineage defined
      obtain rfl := Option.some.inj (stepped.symm.trans stepped')
      exact reaches.step follows isAllowed
    · have impossible := stepped.symm.trans (access_undefined isObject lineage defined)
      contradiction

/-- After a run the next access is defined by what the history tells of the classes. -/
theorem access_isSome_iff (reaches : scene.Reaches layout events final) {h : Nat}
    {object : Instance} (isObject : scene.classOf event.u = some (h, object))
    {ancestors : List Nat} (lineage : Lineage scene.L.heap h ancestors) :
    (∃ next, access layout rendering ofType final event = some next) ↔
      event.Defined layout scene (scene.entryAfter events) h object ancestors := by
  have isObject' : final.classOf event.u = some (h, object) := by
    rw [reaches.classOf]
    exact isObject
  have lineage' := lineage.congr reaches.parent
  have same : event.Defined layout scene (scene.entryAfter events) h object ancestors ↔
      event.Defined layout final final.contents.entry h object ancestors := by
    rw [reaches.entry]
    constructor
    · rintro ⟨notForeign, room, readable⟩
      refine ⟨?_, room, ?_⟩
      · rwa [Scene.Foreign, reaches.variableOf]
      · rwa [reaches.variableOf]
    · rintro ⟨notForeign, room, readable⟩
      rw [Scene.Foreign, reaches.variableOf] at notForeign
      rw [reaches.variableOf] at readable
      exact ⟨notForeign, room, readable⟩
  rw [same]
  constructor
  · rintro ⟨next, stepped⟩
    by_contra undefined
    rw [access_undefined isObject' lineage' undefined] at stepped
    contradiction
  · intro defined
    obtain ⟨next, stepped, -⟩ := access_defined rendering ofType isObject'
      (reaches.sound.inside _ h object isObject') lineage' defined
    exact ⟨next, stepped⟩

/-- A run goes on as long as no access does anything undefined. -/
theorem run_of_defined (sound : scene.Sound) (allowed : ∀ event ∈ events, event.Allowed scene)
    (defined : ∀ done event rest h object ancestors, events = done ++ event :: rest →
      scene.classOf event.u = some (h, object) → Lineage scene.L.heap h ancestors →
      event.Defined layout scene (scene.entryAfter done) h object ancestors) :
    ∃ final, (accesses layout rendering ofType scene).runFrom scene events = some final := by
  induction events using List.reverseRecOn with
  | nil => exact ⟨scene, rfl⟩
  | append_singleton events event inductionHypothesis =>
      have earlier := fun other membership => allowed other
        (List.mem_append_left [event] membership)
      obtain ⟨middle, before⟩ := inductionHypothesis earlier
        fun done other rest h object ancestors split =>
          defined done other (rest ++ [event]) h object ancestors (by rw [split]; simp)
      obtain ⟨h, object, isObject⟩ :=
        (allowed event (List.mem_append_right _ (List.mem_singleton_self event))).isObject
      obtain ⟨ancestors, lineage⟩ := sound.lineage _ h object isObject
      have reaches := run_reaches rendering ofType sound earlier before
      obtain ⟨next, stepped⟩ := (access_isSome_iff rendering ofType reaches isObject lineage).mpr
        (defined events event [] h object ancestors rfl isObject lineage)
      exact ⟨next, (Machine.runFrom_append_eq_some _).mpr
        ⟨middle, before, (Machine.runFrom_cons_eq_some _).mpr ⟨next, stepped, rfl⟩⟩⟩

/-- A run is defined exactly if each of its accesses is, by what was registered and assigned
before: it comes to no member that holds foreign userdata, asks no more parents than fit on
the stack, and assigns to no variable what cannot be read as its type. -/
theorem accesses_defined_iff (sound : scene.Sound)
    (allowed : ∀ event ∈ events, event.Allowed scene) :
    (∃ final, (accesses layout rendering ofType scene).runFrom scene events = some final) ↔
      ∀ done event rest h object ancestors, events = done ++ event :: rest →
        scene.classOf event.u = some (h, object) → Lineage scene.L.heap h ancestors →
        event.Defined layout scene (scene.entryAfter done) h object ancestors := by
  constructor
  · rintro ⟨final, reached⟩ done event rest h object ancestors split isObject lineage
    rw [split] at reached
    obtain ⟨middle, before, later⟩ := (Machine.runFrom_append_eq_some _).mp reached
    obtain ⟨next, stepped, -⟩ := (Machine.runFrom_cons_eq_some _).mp later
    have reaches := run_reaches rendering ofType sound
      (fun other membership => allowed other (split ▸ List.mem_append_left _ membership)) before
    exact (access_isSome_iff rendering ofType reaches isObject lineage).mp ⟨next, stepped⟩
  · exact run_of_defined rendering ofType sound allowed

/-- No class has foreign userdata for its objects. -/
def Scene.Registered (layout : Layout Variable Instance Cell)
    (scene : Scene Func Variable Instance CFunction Cell) : Prop :=
  ∀ u h object key, scene.classOf u = some (h, object) →
    ¬ scene.Foreign layout object (scene.contents.entry h key)

/-- No object has more ancestors than can be asked. -/
def Scene.Shallow (scene : Scene Func Variable Instance CFunction Cell) : Prop :=
  ∀ u h object ancestors, scene.classOf u = some (h, object) →
    Lineage scene.L.heap h ancestors → ancestors.length + 1 < LUA_MINSTACK

/-- What is assigned to a registered variable can be read as its type. -/
def Event.Readable (layout : Layout Variable Instance Cell)
    (scene : Scene Func Variable Instance CFunction Cell) (event : Event) : Prop :=
  ∀ u key value h object val, event = .newindex u key value →
    scene.classOf u = some (h, object) →
    scene.variableOf layout object (scene.contents.entry h key) = some val →
    layout.read val value ≠ none

theorem grows_entryAfter (layout : Layout Variable Instance Cell)
    (plain : ∀ event ∈ events, event.Plain scene.classOf scene.contents.entry) :
    Grows scene.contents.entry (scene.entryAfter events) := by
  have same : Grows scene.contents.entry scene.contents.entry := fun h key => .inl rfl
  rw [← foldl_after_contents layout]
  exact same.foldl Scene.onUserdata plain

/-- Where nothing but variables is userdata, values fit their variables and the ancestors
fit on the stack, no access is undefined.  After any run a registered variable reads as
what was stored in it last, any other member as the entry of the first class in the
lineage, where an entry that was not registered is what was first assigned through an
object of that class. -/
theorem index_after_run (sound : scene.Sound) (registered : scene.Registered layout)
    (shallow : scene.Shallow) (allowed : ∀ event ∈ events, event.Allowed scene)
    (plain : ∀ event ∈ events, event.Plain scene.classOf scene.contents.entry)
    (readable : ∀ event ∈ events, event.Readable layout scene) :
    ∃ final, (accesses layout rendering ofType scene).runFrom scene events = some final ∧
      ∀ u h object ancestors key, scene.classOf u = some (h, object) →
        Lineage scene.L.heap h ancestors →
        index layout rendering ofType final u key =
          answer layout rendering key
            (scene.variableOf layout object (scene.contents.entry h key))
            (fun val => (written layout scene.classOf (scene.variableOf layout)
              scene.contents.entry object val events).getLast?.getD (scene.memory object val))
            (firstValue ((h :: ancestors).map fun c => scene.entryAfter events c key)) := by
  have defined : ∃ final,
      (accesses layout rendering ofType scene).runFrom scene events = some final := by
    apply run_of_defined rendering ofType sound allowed
    intro done event rest h object ancestors split isObject lineage
    have grows : Grows scene.contents.entry (scene.entryAfter done) :=
      grows_entryAfter layout fun other membership =>
        plain other (split ▸ List.mem_append_left _ membership)
    refine ⟨grows.notForeign (registered _ h object event.key isObject), ?_, ?_⟩
    · intro _ _ _ _
      exact (slots_le _ ancestors).trans_lt (shallow _ h object ancestors isObject lineage)
    · rintro u key value val rfl isVariable
      rw [grows.registered Scene.onUserdata] at isVariable
      exact readable _ (split ▸ List.mem_append_right done List.mem_cons_self) u key value h object
        val rfl isObject isVariable
  obtain ⟨final, reached⟩ := defined
  refine ⟨final, reached, fun u h object ancestors key isObject lineage => ?_⟩
  have reaches := run_reaches rendering ofType sound allowed reached
  have grows : Grows scene.contents.entry final.contents.entry := by
    rw [reaches.entry]
    exact grows_entryAfter layout plain
  have isObject' : final.classOf u = some (h, object) := by
    rw [reaches.classOf]
    exact isObject
  have sameVariable : final.variableOf layout object (final.contents.entry h key) =
      scene.variableOf layout object (scene.contents.entry h key) := by
    rw [reaches.variableOf]
    exact grows.registered Scene.onUserdata object h key
  have notForeign : ¬ final.Foreign layout object (final.contents.entry h key) := by
    rw [Scene.Foreign, reaches.variableOf]
    exact grows.notForeign (registered u h object key isObject)
  have room : final.contents.entry h key = .nil →
      slots (fun p => final.contents.entry p key) ancestors < LUA_MINSTACK :=
    fun _ => (slots_le _ ancestors).trans_lt (shallow u h object ancestors isObject lineage)
  have memory : final.memory object = fun val => (written layout scene.classOf
      (scene.variableOf layout) scene.contents.entry object val events).getLast?.getD
        (scene.memory object val) := by
    funext val
    have stored := congrArg (fun contents => contents.memory object val) reaches.contents
    rw [foldl_after_memory Scene.onUserdata _ (fun h key => .inl rfl) plain] at stored
    exact stored
  have entries : firstEntry final.L.heap key (h :: ancestors) =
      firstValue ((h :: ancestors).map fun c => scene.entryAfter events c key) := by
    rw [firstEntry_eq, ← reaches.entry]
    rfl
  rw [index_eq rendering ofType isObject' notForeign (lineage.congr reaches.parent) room,
    sameVariable, memory, entries]

end Runs

/-! ### The classes `base` and `test` of the sample -/

theorem literal_isKey (text : String) : (LuaValue.literal text).isKey = true := rfl

def metaBase : Table :=
  Table.empty.rawset (.literal "is_base") (.function 0) (literal_isKey _)

def metaTest : Table :=
  (Table.empty.rawset parentKey (.table 1) parentKey_isKey).rawset (.literal "_test")
    (.userdata 1) (literal_isKey _)

/-- One object of `test`, whose variable is registered. -/
def sample : Scene Unit Unit Unit Unit Int where
  L :=
    { stack := []
      heap := ⟨[.empty, metaBase, metaTest]⟩
      globals := 0
      closures := [⟨(), []⟩]
      userdata := [⟨some 2, .inr ()⟩, ⟨none, .inl (.mem_var ())⟩] }
  memory := fun _ _ => 0

/-- `read<int>` of what is no numeral: `lua_tonumber` gives 0 for it, and a number that fits
is cut off. -/
def readInt : LuaValue → Option Int
  | .number (.finite q) =>
      let i := q.num.tdiv q.den
      if -2 ^ 31 ≤ i ∧ i < 2 ^ 31 then some i else none
  | .number _ => none
  | _ => some 0

def sampleLayout : Layout Unit Unit Int where
  has _ _ := true
  read _ := readInt
  push _ i := .number (.finite i)

def sampleRendering : Rendering where
  lua_number2str _ := []
  lua_topointer _ := []
  tostringTM _ := none
  concatTM _ _ := none

theorem sample_classOf {u h : Nat} {object : Unit}
    (isObject : sample.classOf u = some (h, object)) : u = 0 ∧ h = 2 := by
  rcases u with _ | _ | u
  · obtain ⟨rfl, -⟩ := Prod.mk.inj (Option.some.inj isObject)
    exact ⟨rfl, rfl⟩
  · contradiction
  · contradiction

theorem sample_lineage : Lineage sample.L.heap 2 [1] :=
  .inherits (by decide +kernel) (.root (by decide +kernel))

theorem sample_sound : sample.Sound where
  inside u h object isObject := by
    obtain ⟨-, rfl⟩ := sample_classOf isObject
    decide
  lineage u h object isObject := by
    obtain ⟨-, rfl⟩ := sample_classOf isObject
    exact ⟨[1], sample_lineage⟩

theorem Lineage.unique {heap : Heap} {h : Nat} {ancestors others : List Nat}
    (lineage : Lineage heap h ancestors) (lineage' : Lineage heap h others) :
    others = ancestors := by
  induction lineage generalizing others with
  | root isNil =>
      cases lineage' with
      | root => rfl
      | inherits isParent =>
          rw [isNil] at isParent
          contradiction
  | inherits isParent _ inductionHypothesis =>
      cases lineage' with
      | root isNil =>
          rw [isNil] at isParent
          contradiction
      | inherits isParent' further =>
          obtain rfl := LuaValue.table.inj (isParent.symm.trans isParent')
          rw [inductionHypothesis further]

theorem sample_shallow : sample.Shallow := by
  intro u h object ancestors isObject lineage
  obtain ⟨-, rfl⟩ := sample_classOf isObject
  obtain rfl := sample_lineage.unique lineage
  decide

theorem sample_allowed {event : Event} (isObject : event.u = 0)
    (keepsParent : event.key ≠ parentKey) : event.Allowed sample where
  isObject := ⟨2, (), by rw [isObject]; rfl⟩
  keepsParent u value := by
    rintro rfl
    exact keepsParent rfl

def testKey : LuaValue := .literal "_test"

def otherKey : LuaValue := .literal "other"

/-- `obj.other = obj; obj.other` takes the object for a variable. -/
theorem accesses_defined_iff_sample :
    ¬ ∃ final, (accesses sampleLayout sampleRendering (fun _ => none) sample).runFrom sample
      [.newindex 0 otherKey (.userdata 0), .index 0 otherKey] = some final := by
  rw [accesses_defined_iff sampleRendering (fun _ => none) sample_sound]
  · intro defined
    have last := defined [.newindex 0 otherKey (.userdata 0)] (.index 0 otherKey) [] 2 () [1] rfl
      rfl sample_lineage
    exact last.notForeign ⟨by decide +kernel, by decide +kernel⟩
  · intro event membership
    rcases List.mem_pair.mp membership with rfl | rfl
    · exact sample_allowed rfl (by decide +kernel)
    · exact sample_allowed rfl (by decide +kernel)

theorem sample_registered : sample.Registered sampleLayout := by
  rintro u h object key isObject ⟨isUserdata, notVariable⟩
  obtain ⟨-, rfl⟩ := sample_classOf isObject
  have entry : sample.contents.entry 2 key = metaTest.rawget key := rfl
  rw [entry] at isUserdata notVariable
  by_cases isVariable : key = .literal "_test"
  · rw [isVariable, metaTest, Table.rawget_rawset_self] at notVariable
    contradiction
  · rw [metaTest, Table.rawget_rawset_of_ne _ _ _ isVariable] at isUserdata
    by_cases isParent : key = parentKey
    · rw [isParent, Table.rawget_rawset_self] at isUserdata
      contradiction
    · rw [Table.rawget_rawset_of_ne _ _ _ isParent] at isUserdata
      contradiction

/-- `obj.other = true; obj.other = false; obj._test = 3.7` -/
def sampleEvents : List Event :=
  [.newindex 0 otherKey (.boolean true), .newindex 0 otherKey (.boolean false),
    .newindex 0 testKey (.number (.finite (37 / 10)))]

theorem sampleEvents_cases {event : Event} (membership : event ∈ sampleEvents) :
    ∃ key value, event = .newindex 0 key value ∧ key ≠ parentKey ∧ value.isUserdata = false ∧
      (readInt value).isSome = true := by
  rcases List.mem_cons.mp membership with rfl | later
  · exact ⟨_, _, rfl, by decide +kernel, rfl, rfl⟩
  · rcases List.mem_pair.mp later with rfl | rfl
    · exact ⟨_, _, rfl, by decide +kernel, rfl, rfl⟩
    · exact ⟨_, _, rfl, by decide +kernel, rfl, by decide +kernel⟩

/-- The first assignment to a member that is not registered counts, and the variable is an
`int`. -/
theorem index_after_run_sample :
    ∃ final, (accesses sampleLayout sampleRendering (fun _ => none) sample).runFrom sample
        sampleEvents = some final ∧
      index sampleLayout sampleRendering (fun _ => none) final 0 otherKey =
        .value (.boolean true) ∧
      index sampleLayout sampleRendering (fun _ => none) final 0 testKey =
        .value (.number (.finite 3)) := by
  obtain ⟨final, reached, reads⟩ := index_after_run sampleRendering (fun _ => none) sample_sound
    sample_registered sample_shallow
    (fun event membership => by
      obtain ⟨key, value, rfl, notParent, -, -⟩ := sampleEvents_cases membership
      exact sample_allowed rfl notParent)
    (fun event membership => by
      obtain ⟨key, value, rfl, -, notUserdata, -⟩ := sampleEvents_cases membership
      rintro u key value h object ⟨rfl, rfl, rfl⟩ - isUserdata
      exact absurd isUserdata (Bool.eq_false_iff.mp notUserdata))
    (fun event membership => by
      obtain ⟨key, value, rfl, -, -, isSome⟩ := sampleEvents_cases membership
      rintro u key value h object val ⟨rfl, rfl, rfl⟩ - -
      exact Option.isSome_iff_ne_none.mp isSome)
  refine ⟨final, reached, ?_, ?_⟩
  · rw [reads 0 2 () [1] otherKey rfl sample_lineage]
    decide +kernel
  · rw [reads 0 2 () [1] testKey rfl sample_lineage]
    decide +kernel

end LuaEngine.Tinker
