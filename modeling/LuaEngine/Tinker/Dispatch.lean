import LuaEngine.Lua.Stack
import LuaEngine.Lua.Text
import LuaEngine.Tinker.LuaClass

/-!
# Members of objects

An object is userdata whose metatable is the class table.  Lua reads and assigns its
members through `meta_get` and `meta_set`: a variable goes to the C++ object, any other
entry is what the class table or that of a parent holds.
-/

namespace LuaEngine.Lua

open LuaEngine.Codec LuaEngine.System

def LuaValue.isUserdata : LuaValue → Bool
  | .userdata _ => true
  | .lightuserdata _ => true
  | _ => false

/-- The metatables of userdata and of the types that are neither userdata nor tables. -/
structure Metatables (Payload : Type) where
  ofUserdata : Payload → Option Nat
  ofType : LuaValue → Option Nat

/-- How many slots a C function has above its arguments. -/
def LUA_MINSTACK : Nat := 20

namespace Api

open Thread

variable {CFunction Payload : Type}

/-- How far below the top a slot in use is. -/
def depth (L : Thread CFunction Payload) (idx : Int) : Option Nat :=
  if idx < 0 ∧ (-idx).toNat ≤ L.stack.length then
    some ((-idx).toNat - 1)
  else if 0 < idx ∧ idx.toNat ≤ L.stack.length then
    some (L.stack.length - idx.toNat)
  else
    none

def lua_pushvalue (idx : Int) : Api CFunction Payload Unit := do
  let value ← address idx
  Program.modify (push value)

def lua_remove (idx : Int) : Api CFunction Payload Unit := do
  let L ← Program.get
  match depth L idx with
  | some place => set { L with stack := L.stack.eraseIdx place }
  | none => undefined

/-- `lua_settop` with an index that is not negative. -/
def lua_settop (n : Nat) : Api CFunction Payload Unit := do
  let L ← Program.get
  set { L with
    stack := List.replicate (n - L.stack.length) .nil ++ L.stack.drop (L.stack.length - n) }

def lua_isnil (idx : Int) : Api CFunction Payload Bool := do
  return (← Program.get).index2adr idx = some .nil

def lua_isuserdata (idx : Int) : Api CFunction Payload Bool := do
  match (← Program.get).index2adr idx with
  | some value => pure value.isUserdata
  | none => pure false

def lua_rawget (idx : Int) : Api CFunction Payload Unit := do
  let t ← address idx
  let L ← Program.get
  match t, L.stack with
  | .table h, key :: rest => set { L with stack := (L.heap.table h).rawget key :: rest }
  | _, _ => undefined

/-- Nothing is pushed for a value without a metatable. -/
def lua_getmetatable (metatables : Metatables Payload) (idx : Int) :
    Api CFunction Payload Bool := do
  let value ← address idx
  let L ← Program.get
  let metatable := match value with
    | .table h => (L.heap.table h).metatable
    | .userdata u => L.userdata[u]?.bind metatables.ofUserdata
    | value => metatables.ofType value
  match metatable with
  | some m => do
      set (L.push (.table m))
      pure true
  | none => pure false

/-- A number is converted in its slot; for other values than strings the result is
`NULL`. -/
def lua_tostring (rendering : Rendering) (idx : Int) : Api CFunction Payload (Option Bytes) := do
  let value ← address idx
  match rendering.text value with
  | some s => do
      let L ← Program.get
      match depth L idx with
      | some place => set { L with stack := L.stack.set place (.string s) }
      | none => pure ()
      pure (some s)
  | none => pure none

/-- What `luaO_pushvfstring` puts for `%s`. -/
def formatString : Option Bytes → Bytes
  | some s => s.takeWhile (· ≠ 0)
  | none => ascii "(null)"

def lua_error {α : Type} : Api CFunction Payload α := do
  match (← Program.get).stack with
  | value :: _ => Program.raise (.raised value)
  | [] => undefined

/-- A push needs a slot below `L->ci->top`; the API checks that in debug builds only, and
beyond it anything may happen. -/
def api_check (top : Nat) : Api CFunction Payload Unit := do
  if (← Program.get).stack.length < top then pure () else undefined

section Rules

variable {L : Thread CFunction Payload} {value other : LuaValue} {idx : Int}
  {post : Postcondition (Thread CFunction Payload) Failure Unit}
  {postBool : Postcondition (Thread CFunction Payload) Failure Bool}

/-- A push changes no index that counts from the bottom. -/
theorem index2adr_push (positive : 0 < idx) (within : idx.toNat ≤ L.stack.length) :
    (L.push value).index2adr idx = L.index2adr idx := by
  have notGlobals : idx ≠ LUA_GLOBALSINDEX := by
    rintro rfl
    contradiction
  simp only [index2adr, if_neg notGlobals, if_neg (Int.not_lt.mpr positive.le), if_pos positive,
    push_stack, List.reverse_cons]
  rw [List.getD_append _ _ _ _ (by rw [List.length_reverse]; omega)]

theorem lua_pushvalue_meets (isAddress : L.index2adr idx = some value) :
    ((lua_pushvalue idx).run L).Meets post ↔ post.returned () (L.push value) := by
  simp [lua_pushvalue, address, isAddress]

@[simp]
theorem lua_rawget_meets {h : Nat} {key : LuaValue} :
    ((lua_rawget (-2)).run ((L.push (.table h)).push key)).Meets post ↔
      post.returned () ((L.push (.table h)).push ((L.heap.table h).rawget key)) := Iff.rfl

@[simp]
theorem lua_isnil_meets :
    ((lua_isnil (-1)).run (L.push value)).Meets postBool ↔
      postBool.returned (decide (value = .nil)) (L.push value) := by
  have top : (L.push value).index2adr (-1) = some value := rfl
  simp [lua_isnil, top]

@[simp]
theorem lua_isuserdata_meets :
    ((lua_isuserdata (-1)).run (L.push value)).Meets postBool ↔
      postBool.returned value.isUserdata (L.push value) := Iff.rfl

@[simp]
theorem lua_remove_top_meets :
    ((lua_remove (-1)).run (L.push value)).Meets post ↔ post.returned () L := by
  have top : depth (L.push value) (-1) = some 0 := by simp [depth]
  simp only [lua_remove, Program.bind_meets, Program.get_meets, top]
  exact Iff.rfl

@[simp]
theorem lua_remove_below_meets :
    ((lua_remove (-2)).run ((L.push value).push other)).Meets post ↔
      post.returned () (L.push other) := by
  have below : depth ((L.push value).push other) (-2) = some 1 := by simp [depth]
  simp only [lua_remove, Program.bind_meets, Program.get_meets, below]
  exact Iff.rfl

theorem lua_getmetatable_meets {metatables : Metatables Payload} {u m : Nat} {payload : Payload}
    (isAddress : L.index2adr idx = some (.userdata u)) (isBlock : L.userdata[u]? = some payload)
    (isMetatable : metatables.ofUserdata payload = some m) :
    ((lua_getmetatable metatables idx).run L).Meets postBool ↔
      postBool.returned true (L.push (.table m)) := by
  simp only [lua_getmetatable, address, Program.bind_meets, Program.get_meets, isAddress,
    Program.pure_meets, isBlock, Option.bind_some, isMetatable]
  exact Iff.rfl

/-- The slot may be converted; nothing else is touched. -/
theorem lua_tostring_meets {rendering : Rendering}
    {post : Postcondition (Thread CFunction Payload) Failure (Option Bytes)}
    (isAddress : L.index2adr idx = some value)
    (returns : ∀ stack, post.returned (rendering.text value) { L with stack := stack }) :
    ((lua_tostring rendering idx).run L).Meets post := by
  cases text : rendering.text value with
  | none =>
      simp only [lua_tostring, address, Program.bind_meets, Program.get_meets, isAddress,
        Program.pure_meets, text]
      exact text ▸ returns L.stack
  | some s =>
      rw [text] at returns
      cases place : depth L idx with
      | none =>
          simp only [lua_tostring, address, Program.bind_meets, Program.get_meets, isAddress,
            Program.pure_meets, text, place]
          exact returns L.stack
      | some place' =>
          simp only [lua_tostring, address, Program.bind_meets, Program.get_meets, isAddress,
            Program.pure_meets, text, place, set, Program.modify_meets]
          exact returns _

theorem api_check_fits {top : Nat} (fits : L.stack.length < top) :
    ((api_check top).run L).Meets post ↔ post.returned () L := by
  simp [api_check, fits]

theorem api_check_overflows {top : Nat} (full : top ≤ L.stack.length) :
    ((api_check top).run L).Meets post ↔ post.raised .undefined L := by
  simp [api_check, Nat.not_lt.mpr full, undefined]

end Rules

end Api

end LuaEngine.Lua

namespace LuaEngine.Tinker

open LuaEngine.Codec LuaEngine.Lua LuaEngine.System

/-- What is constructed in a block of userdata, and the metatable of the block. -/
structure Block (Func Variable Instance : Type) where
  metatable : Option Nat
  /-- A `functor` or `mem_var`, or the `m_p` of a `user`. -/
  content : Payload Func Variable ⊕ Instance

/-- Which objects have a variable, and how it goes between C++ and Lua.  The variables are
of types that are pushed as numbers or booleans: the arithmetic types but the two
`long long`, and enumerations. -/
structure Layout (Variable Instance Cell : Type) where
  has : Instance → Variable → Bool
  /-- `read<V>(L, 3)`, which is undefined for a number that the type cannot represent. -/
  read : Variable → LuaValue → Option Cell
  /-- `push(L, v)` -/
  push : Variable → Cell → LuaValue

/-- The state of Lua and the variables of the C++ objects. -/
structure Scene (Func Variable Instance CFunction Cell : Type) where
  L : Thread CFunction (Block Func Variable Instance)
  memory : Instance → Variable → Cell

def metaParent : CString := ⟨ascii "__parent", by decide +kernel⟩

variable {Object Func Variable Instance CFunction Cell : Type}

abbrev Access (Func Variable Instance CFunction Cell α : Type) :=
  Program (Scene Func Variable Instance CFunction Cell) Failure α

section Code

open Api

/-- Implements the inheritance of classes; both are to be added before. -/
def class_inh [DecidableEq Object] (tms : Metamethods) (T P : Object) :
    Builder Object Func Variable CFunction Unit := do
  let parent ← class_name P none
  withClass tms T do
    lua_pushstring metaParent
    push_meta tms parent
    lua_rawset (-3)

variable (layout : Layout Variable Instance Cell) (rendering : Rendering)
  (ofType : LuaValue → Option Nat)

def onThread {α : Type} (program : Api CFunction (Block Func Variable Instance) α) :
    Access Func Variable Instance CFunction Cell α :=
  program.focus Scene.L fun L scene => { scene with L := L }

/-- What a value points to as userdata. -/
def content (value : LuaValue) :
    Access Func Variable Instance CFunction Cell (Payload Func Variable ⊕ Instance) := do
  match value with
  | .userdata u =>
      match (← Program.get).L.userdata[u]? with
      | some block => pure block.content
      | none => Program.raise .undefined
  | _ => Program.raise .undefined

/-- `user2type<var_base*>::invoke(L, idx)`, which takes any userdata for a variable. -/
def var_base (idx : Int) : Access Func Variable Instance CFunction Cell Variable := do
  match ← content (← onThread (address idx)) with
  | .inl (.mem_var val) => pure val
  | _ => Program.raise .undefined

/-- `read<T*>(L, 1)` for the variable of a class `T`. -/
def readObject (val : Variable) : Access Func Variable Instance CFunction Cell Instance := do
  let value ← onThread (address 1)
  if value.isUserdata then
    match ← content value with
    | .inr object => if layout.has object val then pure object else Program.raise .undefined
    | _ => Program.raise .undefined
  else
    Program.raise (.raised (.literal "no class at first argument. (forgot ':' expression ?)"))

namespace mem_var

def get (val : Variable) : Access Func Variable Instance CFunction Cell Unit := do
  let object ← readObject layout val
  let cell := (← Program.get).memory object val
  onThread (Program.modify (Thread.push (layout.push val cell)))

def set [DecidableEq Variable] [DecidableEq Instance] (val : Variable) :
    Access Func Variable Instance CFunction Cell Unit := do
  let object ← readObject layout val
  let value ← onThread (address 3)
  match layout.read val value with
  | some cell =>
      Program.modify fun scene =>
        { scene with
          memory := Function.update scene.memory object
            (Function.update (scene.memory object) val cell) }
  | none => Program.raise .undefined

end mem_var

/-- Every nested call leaves one class more on the stack; nothing makes room for it. -/
def invoke_parent (top : Nat) : Nat → Api CFunction (Block Func Variable Instance) Unit
  | 0 => Program.unfinished
  | fuel + 1 => do
      api_check top
      lua_pushstring metaParent
      lua_rawget (-2)
      if ← lua_istable (-1) then
        api_check top
        lua_pushvalue 2
        lua_rawget (-2)
        if !(← lua_isnil (-1)) then
          lua_remove (-2)
        else
          lua_remove (-1)
          invoke_parent top fuel
          lua_remove (-2)

def metatables : Metatables (Block Func Variable Instance) := ⟨Block.metatable, ofType⟩

def notFound (key : Option Bytes) : LuaValue :=
  .string (ascii "can't find '" ++ formatString key ++
    ascii "' class variable. (forgot registering class variable ?)")

/-- The `__index` of a class, whose arguments are the object and the key.  The calls of
`invoke_parent` cannot nest deeper than there are slots. -/
def meta_get : Access Func Variable Instance CFunction Cell Unit := do
  let _ ← onThread (lua_getmetatable (metatables ofType) 1)
  onThread (lua_pushvalue 2)
  onThread (lua_rawget (-2))
  if ← onThread (lua_isuserdata (-1)) then
    let val ← var_base (-1)
    mem_var.get layout val
    onThread (lua_remove (-2))
  else if ← onThread (lua_isnil (-1)) then
    onThread (lua_remove (-1))
    onThread (invoke_parent (2 + LUA_MINSTACK) LUA_MINSTACK)
    if ← onThread (lua_isnil (-1)) then
      let key ← onThread (lua_tostring rendering 2)
      onThread (Program.modify (Thread.push (notFound key)))
      onThread lua_error
  onThread (lua_remove (-2))

/-- The `__newindex` of a class. -/
def meta_set [DecidableEq Variable] [DecidableEq Instance] :
    Access Func Variable Instance CFunction Cell Unit := do
  let _ ← onThread (lua_getmetatable (metatables ofType) 1)
  onThread (lua_pushvalue 2)
  onThread (lua_rawget (-2))
  if ← onThread (lua_isuserdata (-1)) then
    let val ← var_base (-1)
    mem_var.set layout val
  else if ← onThread (lua_isnil (-1)) then
    onThread (lua_pushvalue 2)
    onThread (lua_pushvalue 3)
    onThread (lua_rawset (-4))
  onThread (lua_settop 3)

/-! ### As Lua calls them -/

/-- A C function starts with its arguments on an empty frame. -/
def Scene.enter (scene : Scene Func Variable Instance CFunction Cell) (arguments : List LuaValue) :
    Scene Func Variable Instance CFunction Cell :=
  { scene with L := { scene.L with stack := arguments.reverse } }

inductive Response where
  | value (value : LuaValue)
  | error (error : LuaValue)
  | undefined
  | unfinished
  deriving DecidableEq

/-- The one result of a C function is on the top. -/
def response (outcome : Outcome (Scene Func Variable Instance CFunction Cell) Failure Unit) :
    Response :=
  match outcome with
  | .returned _ scene => .value (scene.L.stack.headD .nil)
  | .raised (.raised error) _ => .error error
  | .raised .undefined _ => .undefined
  | .unfinished => .unfinished

/-- `object[key]` for an object with the address `u`. -/
def index (scene : Scene Func Variable Instance CFunction Cell) (u : Nat)
    (key : LuaValue) : Response :=
  response ((meta_get layout rendering ofType).run (scene.enter [.userdata u, key]))

inductive Event where
  /-- `object[key]` -/
  | index (u : Nat) (key : LuaValue)
  /-- `object[key] = value` -/
  | newindex (u : Nat) (key value : LuaValue)

variable [DecidableEq Variable] [DecidableEq Instance]

def execute (scene : Scene Func Variable Instance CFunction Cell) :
    Event → Outcome (Scene Func Variable Instance CFunction Cell) Failure Unit
  | .index u key =>
      (meta_get layout rendering ofType).run (scene.enter [.userdata u, key])
  | .newindex u key value =>
      (meta_set layout ofType).run (scene.enter [.userdata u, key, value])

/-- What is left when the access has been made or has raised. -/
def access (scene : Scene Func Variable Instance CFunction Cell) (event : Event) :
    Option (Scene Func Variable Instance CFunction Cell) :=
  match execute layout rendering ofType scene event with
  | .returned _ next => some next
  | .raised (.raised _) next => some next
  | .raised .undefined _ => none
  | .unfinished => none

def accesses (start : Scene Func Variable Instance CFunction Cell) :
    Machine (Scene Func Variable Instance CFunction Cell) Event :=
  ⟨start, access layout rendering ofType⟩

end Code

end LuaEngine.Tinker
