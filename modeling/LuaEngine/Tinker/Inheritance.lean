import LuaEngine.Tinker.Dispatch

/-!
# Inherited members

A class and those it inherits from are asked in turn, by `__parent`.  What the class of
the object holds itself is a variable of the object if it is userdata; what a parent
holds is returned as it is.
-/

namespace LuaEngine.Tinker

open LuaEngine.Codec LuaEngine.Lua LuaEngine.System

variable {Func Variable Instance CFunction Cell : Type}

def parentKey : LuaValue := .string metaParent.bytes

theorem parentKey_isKey : parentKey.isKey = true := rfl

/-- What asking the parents of a class for a key comes to, and how many slots it takes
above the class. -/
inductive Inherits (heap : Heap) (key : LuaValue) : Nat → Nat → LuaValue → Prop
  | ends {h : Nat} : (∀ p, (heap.table h).rawget parentKey ≠ .table p) →
      Inherits heap key 1 h ((heap.table h).rawget parentKey)
  | found {h p : Nat} : (heap.table h).rawget parentKey = .table p →
      (heap.table p).rawget key ≠ .nil → Inherits heap key 2 h ((heap.table p).rawget key)
  | above {n h p : Nat} {value : LuaValue} : (heap.table h).rawget parentKey = .table p →
      (heap.table p).rawget key = .nil → Inherits heap key n p value →
      Inherits heap key (n + 1) h value

theorem Inherits.positive {heap : Heap} {key value : LuaValue} {n h : Nat}
    (inherits : Inherits heap key n h value) : 1 ≤ n := by
  cases inherits with
  | ends | found => decide
  | above => exact Nat.le_add_left 1 _

theorem Inherits.unique {heap : Heap} {key value value' : LuaValue} {n n' h : Nat}
    (inherits : Inherits heap key n h value) (inherits' : Inherits heap key n' h value') :
    n' = n := by
  induction inherits generalizing n' with
  | ends notTable =>
      cases inherits' with
      | ends => rfl
      | found isParent => exact absurd isParent (notTable _)
      | above isParent => exact absurd isParent (notTable _)
  | found isParent present =>
      cases inherits' with
      | ends notTable => exact absurd isParent (notTable _)
      | found => rfl
      | above isParent' absent =>
          obtain rfl := LuaValue.table.inj (isParent.symm.trans isParent')
          exact absurd absent present
  | above isParent absent _ inductionHypothesis =>
      cases inherits' with
      | ends notTable => exact absurd isParent (notTable _)
      | found isParent' present =>
          obtain rfl := LuaValue.table.inj (isParent.symm.trans isParent')
          exact absurd absent present
      | above isParent' _ further =>
          obtain rfl := LuaValue.table.inj (isParent.symm.trans isParent')
          exact congrArg (· + 1) (inductionHypothesis further)

/-- The classes that a class inherits from, the nearest first. -/
inductive Lineage (heap : Heap) : Nat → List Nat → Prop
  | root {h : Nat} : (heap.table h).rawget parentKey = .nil → Lineage heap h []
  | inherits {h p : Nat} {ancestors : List Nat} :
      (heap.table h).rawget parentKey = .table p → Lineage heap p ancestors →
      Lineage heap h (p :: ancestors)

/-- The entry of the first class that has one. -/
def firstEntry (heap : Heap) (key : LuaValue) : List Nat → LuaValue
  | [] => .nil
  | h :: rest =>
      if (heap.table h).rawget key = .nil then firstEntry heap key rest
      else (heap.table h).rawget key

/-- The slots it takes to ask the ancestors of a class, by their entries under the key. -/
def slots (entry : Nat → LuaValue) : List Nat → Nat
  | [] => 1
  | p :: rest => if entry p = .nil then slots entry rest + 1 else 2

theorem slots_le (entry : Nat → LuaValue) (ancestors : List Nat) :
    slots entry ancestors ≤ ancestors.length + 1 := by
  induction ancestors with
  | nil => exact le_rfl
  | cons p rest inductionHypothesis =>
      rw [slots, List.length_cons]
      split
      next => omega
      next => omega

theorem Lineage.inherits_first {heap : Heap} {h : Nat} {ancestors : List Nat}
    (lineage : Lineage heap h ancestors) (key : LuaValue) :
    Inherits heap key (slots (fun p => (heap.table p).rawget key) ancestors) h
      (firstEntry heap key ancestors) := by
  induction lineage with
  | root isNil =>
      rw [firstEntry, slots, ← isNil]
      apply Inherits.ends
      intro p isTable
      rw [isNil] at isTable
      contradiction
  | @inherits h p ancestors isParent above inductionHypothesis =>
      unfold firstEntry slots
      by_cases isNil : (heap.table p).rawget key = .nil
      · rw [if_pos isNil, if_pos isNil]
        exact .above isParent isNil inductionHypothesis
      · rw [if_neg isNil, if_neg isNil]
        exact .found isParent isNil

section Rules

open Api

variable {heap : Heap} {key value : LuaValue} {h : Nat}

theorem key_push {L : Thread CFunction (Block Func Variable Instance)}
    (within : 2 ≤ L.stack.length) (isKey : L.index2adr 2 = some key) (first : LuaValue) :
    (L.push first).index2adr 2 = some key :=
  (index2adr_push (show (0 : Int) < 2 by decide) within).trans isKey

theorem key_below {L : Thread CFunction (Block Func Variable Instance)}
    (within : 2 ≤ L.stack.length) (isKey : L.index2adr 2 = some key) (first second : LuaValue) :
    ((L.push first).push second).index2adr 2 = some key := by
  have within' : 2 ≤ (L.push first).stack.length := Nat.le_succ_of_le within
  exact key_push within' (key_push within isKey first) second

/-- Where there are slots enough exactly one value is pushed. -/
theorem invoke_parent_meets {n top fuel : Nat} (inherits : Inherits heap key n h value)
    (enough : n ≤ fuel) {L : Thread CFunction (Block Func Variable Instance)}
    (isHeap : L.heap = heap) (within : 2 ≤ L.stack.length)
    (room : L.stack.length + 1 + n ≤ top) (isKey : L.index2adr 2 = some key)
    (post : Postcondition (Thread CFunction (Block Func Variable Instance)) Failure Unit) :
    ((invoke_parent top fuel).run (L.push (.table h))).Meets post ↔
      post.returned () ((L.push (.table h)).push value) := by
  induction inherits generalizing fuel L post with
  | @ends h notTable =>
      obtain ⟨fuel, rfl⟩ := Nat.exists_eq_add_of_le' enough
      have noHandle : ((heap.table h).rawget parentKey).handle = none := by
        by_contra isSome
        obtain ⟨p, isTable⟩ := Option.ne_none_iff_exists'.mp isSome
        exact notTable p (LuaValue.handle_eq_some.mp isTable)
      unfold parentKey at noHandle
      have fits : (L.push (.table h)).stack.length < top := by
        rw [Thread.push_stack, List.length_cons]
        omega
      simp [invoke_parent, api_check_fits fits, lua_istable_meets, isHeap, noHandle, parentKey]
  | @found h p isParent present =>
      obtain ⟨fuel, rfl⟩ := Nat.exists_eq_add_of_le' (Nat.le_of_succ_le enough)
      unfold parentKey at isParent
      have isKey' := key_below within isKey (.table h) (.table p)
      have fits : (L.push (.table h)).stack.length < top := by
        rw [Thread.push_stack, List.length_cons]
        omega
      have fits' : ((L.push (.table h)).push (.table p)).stack.length < top := by
        rw [Thread.push_stack, Thread.push_stack, List.length_cons, List.length_cons]
        omega
      simp [invoke_parent, api_check_fits fits, api_check_fits fits', lua_istable_meets, isHeap,
        isParent, LuaValue.handle, lua_pushvalue_meets isKey', present]
  | @above n h p value isParent absent inherits inductionHypothesis =>
      obtain ⟨fuel, rfl⟩ := Nat.exists_eq_add_of_le' (Nat.le_of_add_left_le enough)
      have positive := inherits.positive
      unfold parentKey at isParent
      have isKey' := key_below within isKey (.table h) (.table p)
      have fits : (L.push (.table h)).stack.length < top := by
        rw [Thread.push_stack, List.length_cons]
        omega
      have fits' : ((L.push (.table h)).push (.table p)).stack.length < top := by
        rw [Thread.push_stack, Thread.push_stack, List.length_cons, List.length_cons]
        omega
      have room' : (L.push (.table h)).stack.length + 1 + n ≤ top := by
        rw [Thread.push_stack, List.length_cons]
        omega
      have recursion := fun post => inductionHypothesis (Nat.le_of_succ_le_succ enough)
        (L := L.push (.table h)) isHeap (Nat.le_succ_of_le within) room' (key_push within isKey _)
        post
      simp [invoke_parent, api_check_fits fits, api_check_fits fits', lua_istable_meets, isHeap,
        isParent, LuaValue.handle, lua_pushvalue_meets isKey', absent, recursion]

/-- Where the parents are too many, or go round in a circle, the slots run out. -/
theorem invoke_parent_overflows {top fuel : Nat}
    {L : Thread CFunction (Block Func Variable Instance)}
    (deep : ∀ n value, Inherits heap key n h value → top < L.stack.length + 1 + n)
    (enough : top ≤ L.stack.length + fuel) (below : L.stack.length < top)
    (isHeap : L.heap = heap) (within : 2 ≤ L.stack.length) (isKey : L.index2adr 2 = some key) :
    ((invoke_parent top fuel).run (L.push (.table h))).Meets
      ⟨fun _ _ => False, fun error _ => error = .undefined, False⟩ := by
  induction fuel generalizing h L with
  | zero => omega
  | succ fuel inductionHypothesis =>
      rw [invoke_parent, Program.bind_meets]
      by_cases fits : (L.push (.table h)).stack.length < top
      · rw [api_check_fits fits]
        have isTable : ∃ p, (heap.table h).rawget parentKey = .table p := by
          by_contra noTable
          have short := deep _ _ (.ends fun p isParent => noTable ⟨p, isParent⟩)
          rw [Thread.push_stack, List.length_cons] at fits
          omega
        obtain ⟨p, isParent⟩ := isTable
        have isParent' := isParent
        unfold parentKey at isParent
        have isKey' := key_below within isKey (.table h) (.table p)
        by_cases fits' : ((L.push (.table h)).push (.table p)).stack.length < top
        · have absent : (heap.table p).rawget key = .nil := by
            by_contra present
            have short := deep _ _ (.found isParent' present)
            rw [Thread.push_stack, Thread.push_stack, List.length_cons, List.length_cons] at fits'
            omega
          have further : ∀ n value, Inherits heap key n p value →
              top < (L.push (.table h)).stack.length + 1 + n := by
            intro n value inherits
            have short := deep _ value (.above isParent' absent inherits)
            rw [Thread.push_stack, List.length_cons]
            omega
          have recursion := inductionHypothesis (L := L.push (.table h)) further
            (by rw [Thread.push_stack, List.length_cons]; omega) fits isHeap
            (Nat.le_succ_of_le within) (key_push within isKey _)
          simp only [Program.bind_meets, lua_pushstring_meets, lua_rawget_meets, lua_istable_meets,
            Thread.push_heap, isHeap, isParent, LuaValue.handle, Option.isSome_some, if_true,
            api_check_fits fits', lua_pushvalue_meets isKey', absent, lua_isnil_meets, decide_true,
            Bool.not_true, Bool.false_eq_true, if_false, lua_remove_top_meets]
          exact recursion.consequence (fun _ _ impossible => impossible.elim)
            (fun _ _ undefined => undefined) id
        · simp only [Program.bind_meets, lua_pushstring_meets, lua_rawget_meets, lua_istable_meets,
            isHeap, isParent, LuaValue.handle, Option.isSome_some, if_true,
            api_check_overflows (not_lt.mp fits')]
      · rw [api_check_overflows (not_lt.mp fits)]

/-! ### `meta_get` and `meta_set` -/

variable {layout : Layout Variable Instance Cell} {rendering : Rendering}
  {ofType : LuaValue → Option Nat} {scene : Scene Func Variable Instance CFunction Cell}
  {post : Postcondition (Scene Func Variable Instance CFunction Cell) Failure Unit} {u : Nat}
  {object : Instance}

/-- The object of a class at an address. -/
def Scene.IsObject (scene : Scene Func Variable Instance CFunction Cell) (u h : Nat)
    (object : Instance) : Prop :=
  scene.L.userdata[u]? = some ⟨some h, .inr object⟩

/-- A value that stands for a variable of the object. -/
def Scene.IsVariable (layout : Layout Variable Instance Cell)
    (scene : Scene Func Variable Instance CFunction Cell) (object : Instance) (value : LuaValue)
    (val : Variable) : Prop :=
  ∃ v metatable, value = .userdata v ∧
    scene.L.userdata[v]? = some ⟨metatable, .inl (.mem_var val)⟩ ∧ layout.has object val = true

theorem onThread_meets {α : Type} {program : Api CFunction (Block Func Variable Instance) α}
    {post : Postcondition (Scene Func Variable Instance CFunction Cell) Failure α} :
    ((onThread program).run scene).Meets post ↔
      (program.run scene.L).Meets
        ⟨fun value L => post.returned value { scene with L := L },
          fun error L => post.raised error { scene with L := L }, post.unfinished⟩ :=
  Program.focus_meets

theorem slots_fit (scene : Scene Func Variable Instance CFunction Cell) (u : Nat)
    (key : LuaValue) {n : Nat} (room : n < LUA_MINSTACK) :
    (scene.enter [.userdata u, key]).L.stack.length + 1 + n ≤ 2 + LUA_MINSTACK := by
  have length : (scene.enter [.userdata u, key]).L.stack.length = 2 := rfl
  omega

/-- The frame with the arguments, the class and a value on top. -/
def Scene.found (scene : Scene Func Variable Instance CFunction Cell) (arguments : List LuaValue)
    (h : Nat) (value : LuaValue) : Scene Func Variable Instance CFunction Cell :=
  { scene with L := ((scene.enter arguments).L.push (.table h)).push value }

theorem onThread_address_meets {idx : Int} (isAddress : scene.L.index2adr idx = some value)
    {post : Postcondition (Scene Func Variable Instance CFunction Cell) Failure LuaValue} :
    ((onThread (address idx)).run scene).Meets post ↔ post.returned value scene := by
  simp [onThread_meets, address, isAddress]

theorem content_meets {v : Nat} {block : Block Func Variable Instance}
    (isBlock : scene.L.userdata[v]? = some block)
    {post : Postcondition (Scene Func Variable Instance CFunction Cell) Failure
      (Payload Func Variable ⊕ Instance)} :
    ((content (.userdata v)).run scene).Meets post ↔ post.returned block.content scene := by
  simp [content, isBlock]

theorem readObject_meets {val : Variable} {block : Block Func Variable Instance}
    (isFirst : scene.L.index2adr 1 = some (.userdata u))
    (isBlock : scene.L.userdata[u]? = some block) (isInstance : block.content = .inr object)
    {post : Postcondition (Scene Func Variable Instance CFunction Cell) Failure Instance} :
    ((readObject layout val).run scene).Meets post ↔
      if layout.has object val then post.returned object scene
      else post.raised .undefined scene := by
  cases has : layout.has object val with
  | true =>
      simp [readObject, onThread_address_meets isFirst, LuaValue.isUserdata, content_meets isBlock,
        isInstance, has]
  | false =>
      simp [readObject, onThread_address_meets isFirst, LuaValue.isUserdata, content_meets isBlock,
        isInstance, has]

theorem var_base_variable {v : Nat} {metatable : Option Nat} {val : Variable}
    (isTop : scene.L.index2adr (-1) = some (.userdata v))
    (isBlock : scene.L.userdata[v]? = some ⟨metatable, .inl (.mem_var val)⟩)
    {post : Postcondition (Scene Func Variable Instance CFunction Cell) Failure Variable} :
    ((var_base (-1)).run scene).Meets post ↔ post.returned val scene := by
  simp [var_base, onThread_address_meets isTop, content_meets isBlock]

theorem var_base_foreign (isTop : scene.L.index2adr (-1) = some value)
    (foreign : ∀ v metatable val, value = .userdata v →
      scene.L.userdata[v]? ≠ some ⟨metatable, .inl (.mem_var val)⟩)
    {post : Postcondition (Scene Func Variable Instance CFunction Cell) Failure Variable} :
    ((var_base (-1)).run scene).Meets post ↔ post.raised .undefined scene := by
  cases value with
  | userdata v =>
      cases isBlock : scene.L.userdata[v]? with
      | none => simp [var_base, onThread_address_meets isTop, content, isBlock]
      | some block =>
          obtain ⟨metatable, (functor | val) | other⟩ := block
          · simp [var_base, onThread_address_meets isTop, content_meets isBlock]
          · exact absurd isBlock (foreign v metatable val rfl)
          · simp [var_base, onThread_address_meets isTop, content_meets isBlock]
  | _ => simp [var_base, onThread_address_meets isTop, content]

section Found

variable (arguments : List LuaValue)
  {postBool : Postcondition (Scene Func Variable Instance CFunction Cell) Failure Bool}

theorem found_isUserdata_meets :
    ((onThread (lua_isuserdata (-1))).run (scene.found arguments h value)).Meets postBool ↔
      postBool.returned value.isUserdata (scene.found arguments h value) := Iff.rfl

theorem found_isNil_meets :
    ((onThread (lua_isnil (-1))).run (scene.found arguments h value)).Meets postBool ↔
      postBool.returned (decide (value = .nil)) (scene.found arguments h value) := by
  rw [onThread_meets, Scene.found, lua_isnil_meets]

theorem found_first (more : List LuaValue) (value : LuaValue) :
    (scene.found (.userdata u :: key :: more) h value).L.index2adr 1 = some (.userdata u) := by
  simp [Scene.found, Scene.enter, Thread.index2adr, LUA_GLOBALSINDEX]

/-- Userdata that is no variable of the object is used as one. -/
theorem found_foreign_meets (isObject : scene.IsObject u h object) (more : List LuaValue)
    (foreign : ∀ val, ¬ scene.IsVariable layout object value val)
    {next : Variable → Instance → Scene Func Variable Instance CFunction Cell → Prop}
    {raised : Failure → Scene Func Variable Instance CFunction Cell → Prop} {unfinished : Prop} :
    ((var_base (-1)).run (scene.found (.userdata u :: key :: more) h value)).Meets
        ⟨fun val middle => ((readObject layout val).run middle).Meets
          ⟨next val, raised, unfinished⟩, raised, unfinished⟩ ↔
      raised .undefined (scene.found (.userdata u :: key :: more) h value) := by
  have isTop : (scene.found (.userdata u :: key :: more) h value).L.index2adr (-1) =
      some value := rfl
  by_cases isVariable : ∃ v metatable val, value = .userdata v ∧
      scene.L.userdata[v]? = some ⟨metatable, .inl (.mem_var val)⟩
  · obtain ⟨v, metatable, val, rfl, isBlock⟩ := isVariable
    have lacks : layout.has object val = false := by
      by_contra has
      exact foreign val ⟨v, metatable, rfl, isBlock, Bool.eq_true_of_not_eq_false has⟩
    simp only [var_base_variable isTop isBlock, readObject_meets (found_first more _) isObject rfl,
      lacks, Bool.false_eq_true, if_false]
  · exact var_base_foreign isTop fun v metatable val isUserdata isBlock =>
      isVariable ⟨v, metatable, val, isUserdata, isBlock⟩

end Found

section Object

variable (isObject : scene.IsObject u h object)

include isObject

/-- Both functions begin with the entry of the class of the object. -/
theorem lookUp_meets (more : List LuaValue)
    {rest : Access Func Variable Instance CFunction Cell Unit} :
    ((do
        let _ ← onThread (lua_getmetatable (metatables ofType) 1)
        onThread (lua_pushvalue 2)
        onThread (lua_rawget (-2))
        rest).run (scene.enter (.userdata u :: key :: more))).Meets post ↔
      (rest.run (scene.found (.userdata u :: key :: more) h
        ((scene.L.heap.table h).rawget key))).Meets post := by
  have isAddress : (scene.enter (.userdata u :: key :: more)).L.index2adr 1 =
      some (.userdata u) := by
    simp [Scene.enter, Thread.index2adr, LUA_GLOBALSINDEX]
  have isKey : ((scene.enter (.userdata u :: key :: more)).L.push (.table h)).index2adr 2 =
      some key := by
    simp [Scene.enter, Thread.index2adr, LUA_GLOBALSINDEX]
  have isBlock : (scene.enter (.userdata u :: key :: more)).L.userdata[u]? =
      some ⟨some h, .inr object⟩ := isObject
  have isMetatable : (metatables ofType).ofUserdata
      (⟨some h, .inr object⟩ : Block Func Variable Instance) = some h := rfl
  simp only [Program.bind_meets, onThread_meets,
    lua_getmetatable_meets isAddress isBlock isMetatable,
    lua_pushvalue_meets isKey, lua_rawget_meets]
  exact Iff.rfl

section Get

theorem meta_get_variable {val : Variable}
    (isVariable : scene.IsVariable layout object ((scene.L.heap.table h).rawget key) val) :
    ((meta_get layout rendering ofType).run (scene.enter [.userdata u, key])).Meets post ↔
      post.returned () { scene with
        L := (scene.enter [.userdata u, key]).L.push
          (layout.push val (scene.memory object val)) } := by
  obtain ⟨v, metatable, isOwn, isBlock, has⟩ := isVariable
  have isTop : (scene.found [.userdata u, key] h (.userdata v)).L.index2adr (-1) =
      some (.userdata v) := rfl
  rw [meta_get, lookUp_meets isObject [], isOwn]
  simp only [Program.bind_meets, found_isUserdata_meets, LuaValue.isUserdata, if_true,
    var_base_variable isTop isBlock, mem_var.get, readObject_meets (found_first [] _) isObject rfl,
    has, Program.get_meets]
  simp only [onThread_meets, Program.modify_meets, Scene.found, lua_remove_below_meets]

theorem meta_get_foreign (isUserdata : ((scene.L.heap.table h).rawget key).isUserdata = true)
    (foreign : ∀ val, ¬ scene.IsVariable layout object ((scene.L.heap.table h).rawget key) val) :
    ((meta_get layout rendering ofType).run (scene.enter [.userdata u, key])).Meets post ↔
      post.raised .undefined
        (scene.found [.userdata u, key] h ((scene.L.heap.table h).rawget key)) := by
  rw [meta_get, lookUp_meets isObject []]
  simp only [Program.bind_meets, found_isUserdata_meets, isUserdata, if_true, mem_var.get,
    found_foreign_meets isObject [] foreign]

theorem meta_get_entry (notUserdata : ((scene.L.heap.table h).rawget key).isUserdata = false)
    (present : (scene.L.heap.table h).rawget key ≠ .nil) :
    ((meta_get layout rendering ofType).run (scene.enter [.userdata u, key])).Meets post ↔
      post.returned () { scene with
        L := (scene.enter [.userdata u, key]).L.push ((scene.L.heap.table h).rawget key) } := by
  rw [meta_get, lookUp_meets isObject []]
  simp only [Program.bind_meets, found_isUserdata_meets, notUserdata, found_isNil_meets, present,
    decide_false, Bool.false_eq_true, if_false]
  simp only [onThread_meets, Scene.found, lua_remove_below_meets]

theorem meta_get_inherited {n : Nat} (absent : (scene.L.heap.table h).rawget key = .nil)
    (inherits : Inherits scene.L.heap key n h value) (present : value ≠ .nil)
    (room : n < LUA_MINSTACK) :
    ((meta_get layout rendering ofType).run (scene.enter [.userdata u, key])).Meets post ↔
      post.returned () { scene with L := (scene.enter [.userdata u, key]).L.push value } := by
  have parents := invoke_parent_meets inherits room.le
    (L := (scene.enter [.userdata u, key]).L) rfl le_rfl (slots_fit scene u key room)
    (by simp [Scene.enter, Thread.index2adr, LUA_GLOBALSINDEX])
  rw [meta_get, lookUp_meets isObject [], absent]
  simp only [Program.bind_meets, found_isUserdata_meets, LuaValue.isUserdata, found_isNil_meets,
    decide_true, Bool.false_eq_true, if_false, if_true]
  simp only [onThread_meets, Scene.found, lua_remove_top_meets, parents, lua_isnil_meets, present,
    decide_false, Bool.false_eq_true, if_false, lua_remove_below_meets]

/-- The same state but for the frame. -/
def Scene.Same (scene final : Scene Func Variable Instance CFunction Cell) : Prop :=
  ∃ stack, final = { scene with L := { scene.L with stack := stack } }

theorem meta_get_missing {n : Nat} (absent : (scene.L.heap.table h).rawget key = .nil)
    (inherits : Inherits scene.L.heap key n h .nil) (room : n < LUA_MINSTACK) :
    ((meta_get layout rendering ofType).run (scene.enter [.userdata u, key])).Meets
      ⟨fun _ _ => False, fun error final => error = .raised (notFound (rendering.text key)) ∧
        scene.Same final, False⟩ := by
  have isKey : (scene.enter [.userdata u, key]).L.index2adr 2 = some key := by
    simp [Scene.enter, Thread.index2adr, LUA_GLOBALSINDEX]
  have parents := invoke_parent_meets inherits room.le
    (L := (scene.enter [.userdata u, key]).L) rfl le_rfl (slots_fit scene u key room) isKey
  rw [meta_get, lookUp_meets isObject [], absent]
  simp only [Program.bind_meets, found_isUserdata_meets, LuaValue.isUserdata, found_isNil_meets,
    decide_true, Bool.false_eq_true, if_false, if_true]
  simp only [onThread_meets, Scene.found, lua_remove_top_meets, parents, lua_isnil_meets,
    decide_true, if_true, Program.bind_meets]
  apply lua_tostring_meets (key_below (le_refl 2) isKey (.table h) .nil)
  intro stack
  exact ⟨rfl, _, rfl⟩

/-- Too many parents are asked in vain. -/
theorem meta_get_overflows (absent : (scene.L.heap.table h).rawget key = .nil)
    (deep : ∀ n value, Inherits scene.L.heap key n h value → LUA_MINSTACK ≤ n) :
    ((meta_get layout rendering ofType).run (scene.enter [.userdata u, key])).Meets
      ⟨fun _ _ => False, fun error _ => error = .undefined, False⟩ := by
  have length : (scene.enter [.userdata u, key]).L.stack.length = 2 := rfl
  have isKey : (scene.enter [.userdata u, key]).L.index2adr 2 = some key := by
    simp [Scene.enter, Thread.index2adr, LUA_GLOBALSINDEX]
  have parents : ((invoke_parent (2 + LUA_MINSTACK) LUA_MINSTACK).run
      ((scene.enter [.userdata u, key]).L.push (.table h))).Meets
        ⟨fun _ _ => False, fun error _ => error = .undefined, False⟩ := by
    apply invoke_parent_overflows
    · intro n value inherits
      have long := deep n value inherits
      omega
    · omega
    · rw [length]
      decide
    · rfl
    · exact le_rfl
    · exact isKey
  rw [meta_get, lookUp_meets isObject [], absent]
  simp only [Program.bind_meets, found_isUserdata_meets, LuaValue.isUserdata, found_isNil_meets,
    decide_true, Bool.false_eq_true, if_false, if_true]
  simp only [onThread_meets, Scene.found, lua_remove_top_meets]
  exact parents.consequence (fun _ _ impossible => impossible.elim) (fun _ _ undefined => undefined)
    id

end Get

section Set

variable [DecidableEq Variable] [DecidableEq Instance]

/-- The C++ variable is assigned to. -/
def Scene.store (scene : Scene Func Variable Instance CFunction Cell) (object : Instance)
    (val : Variable) (cell : Cell) : Scene Func Variable Instance CFunction Cell :=
  { scene with
    memory := Function.update scene.memory object
      (Function.update (scene.memory object) val cell) }

section Variable

variable {val : Variable}
  (isVariable : scene.IsVariable layout object ((scene.L.heap.table h).rawget key) val)

include isVariable

/-- The assignment comes down to reading the value as the type of the variable. -/
theorem meta_set_reads :
    ((meta_set layout ofType).run (scene.enter [.userdata u, key, value])).Meets post ↔
      (layout.read val value).elim
        (post.raised .undefined
          (scene.found [.userdata u, key, value] h ((scene.L.heap.table h).rawget key)))
        fun cell =>
          post.returned () ((scene.store object val cell).enter [.userdata u, key, value]) := by
  obtain ⟨v, metatable, isOwn, isBlock, has⟩ := isVariable
  have isTop : (scene.found [.userdata u, key, value] h (.userdata v)).L.index2adr (-1) =
      some (.userdata v) := rfl
  have isThird : (scene.found [.userdata u, key, value] h (.userdata v)).L.index2adr 3 =
      some value := by
    simp [Scene.found, Scene.enter, Thread.index2adr, LUA_GLOBALSINDEX]
  rw [meta_set, lookUp_meets isObject [value], isOwn]
  simp only [Program.bind_meets, found_isUserdata_meets, LuaValue.isUserdata, if_true,
    var_base_variable isTop isBlock, mem_var.set,
    readObject_meets (found_first [value] _) isObject rfl, has, onThread_address_meets isThird]
  cases layout.read val value <;> exact Iff.rfl

theorem meta_set_variable {cell : Cell} (reads : layout.read val value = some cell) :
    ((meta_set layout ofType).run (scene.enter [.userdata u, key, value])).Meets post ↔
      post.returned () ((scene.store object val cell).enter [.userdata u, key, value]) := by
  rw [meta_set_reads isObject isVariable, reads]
  exact Iff.rfl

theorem meta_set_unreadable (unreadable : layout.read val value = none) :
    ((meta_set layout ofType).run (scene.enter [.userdata u, key, value])).Meets post ↔
      post.raised .undefined
        (scene.found [.userdata u, key, value] h ((scene.L.heap.table h).rawget key)) := by
  rw [meta_set_reads isObject isVariable, unreadable]
  exact Iff.rfl

end Variable

theorem meta_set_foreign (isUserdata : ((scene.L.heap.table h).rawget key).isUserdata = true)
    (foreign : ∀ val, ¬ scene.IsVariable layout object ((scene.L.heap.table h).rawget key) val) :
    ((meta_set layout ofType).run (scene.enter [.userdata u, key, value])).Meets post ↔
      post.raised .undefined
        (scene.found [.userdata u, key, value] h ((scene.L.heap.table h).rawget key)) := by
  rw [meta_set, lookUp_meets isObject [value]]
  simp only [Program.bind_meets, found_isUserdata_meets, isUserdata, if_true, mem_var.set,
    found_foreign_meets isObject [value] foreign]

/-- An entry that is there is left as it is. -/
theorem meta_set_entry (notUserdata : ((scene.L.heap.table h).rawget key).isUserdata = false)
    (present : (scene.L.heap.table h).rawget key ≠ .nil) :
    ((meta_set layout ofType).run (scene.enter [.userdata u, key, value])).Meets post ↔
      post.returned () (scene.enter [.userdata u, key, value]) := by
  rw [meta_set, lookUp_meets isObject [value]]
  simp only [Program.bind_meets, found_isUserdata_meets, notUserdata, found_isNil_meets, present,
    decide_false, Bool.false_eq_true, if_false]
  exact Iff.rfl

theorem meta_set_absent (absent : (scene.L.heap.table h).rawget key = .nil) {heap : Heap}
    (sets : scene.L.heap.luaV_settable h key value = .ok heap) :
    ((meta_set layout ofType).run (scene.enter [.userdata u, key, value])).Meets post ↔
      post.returned ()
        (Scene.enter { scene with L := { scene.L with heap := heap } }
          [.userdata u, key, value]) := by
  rw [meta_set, lookUp_meets isObject [value], absent]
  simp only [Program.bind_meets, found_isUserdata_meets, LuaValue.isUserdata, found_isNil_meets,
    decide_true, Bool.false_eq_true, if_false, if_true]
  have isKey : (scene.found [.userdata u, key, value] h .nil).L.index2adr 2 = some key := by
    simp [Scene.found, Scene.enter, Thread.index2adr, LUA_GLOBALSINDEX]
  have isValue : ((scene.found [.userdata u, key, value] h .nil).L.push key).index2adr 3 =
      some value := by
    simp [Scene.found, Scene.enter, Thread.index2adr, LUA_GLOBALSINDEX]
  have isClass : (((scene.found [.userdata u, key, value] h .nil).L.push key).push
      value).index2adr (-4) = some (.table h) := rfl
  have sets' : (((scene.found [.userdata u, key, value] h .nil).L.push key).push
      value).heap.luaV_settable h key value = .ok heap := sets
  simp only [onThread_meets, lua_pushvalue_meets isKey, lua_pushvalue_meets isValue, lua_rawset,
    address, Program.bind_meets, Program.get_meets, isClass, Program.pure_meets, Thread.push_stack,
    sets', raising]
  exact Iff.rfl

theorem meta_set_invalid (absent : (scene.L.heap.table h).rawget key = .nil) {error : LuaValue}
    (fails : scene.L.heap.luaV_settable h key value = .error error) :
    ((meta_set layout ofType).run (scene.enter [.userdata u, key, value])).Meets
      ⟨fun _ _ => False, fun raised final => raised = .raised error ∧ scene.Same final, False⟩ := by
  rw [meta_set, lookUp_meets isObject [value], absent]
  simp only [Program.bind_meets, found_isUserdata_meets, LuaValue.isUserdata, found_isNil_meets,
    decide_true, Bool.false_eq_true, if_false, if_true]
  have isKey : (scene.found [.userdata u, key, value] h .nil).L.index2adr 2 = some key := by
    simp [Scene.found, Scene.enter, Thread.index2adr, LUA_GLOBALSINDEX]
  have isValue : ((scene.found [.userdata u, key, value] h .nil).L.push key).index2adr 3 =
      some value := by
    simp [Scene.found, Scene.enter, Thread.index2adr, LUA_GLOBALSINDEX]
  have isClass : (((scene.found [.userdata u, key, value] h .nil).L.push key).push
      value).index2adr (-4) = some (.table h) := rfl
  have fails' : (((scene.found [.userdata u, key, value] h .nil).L.push key).push
      value).heap.luaV_settable h key value = .error error := fails
  simp only [onThread_meets, lua_pushvalue_meets isKey, lua_pushvalue_meets isValue, lua_rawset,
    address, Program.bind_meets, Program.get_meets, isClass, Program.pure_meets, Thread.push_stack,
    fails', raising]
  exact ⟨rfl, _, rfl⟩

end Set

end Object

end Rules

end LuaEngine.Tinker
