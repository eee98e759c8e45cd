import LuaEngine.Lua.HashTable

/-!
# The node vector

Every key is reached along the chain from its main position, and a node that is not at
home stands in a chain whose first node is.  A key of which only a dead copy is left may
be put in again; the new copy comes before the dead ones.
-/

namespace LuaEngine.Lua

open LuaEngine.Codec LuaEngine.System

/-! ## Numbers and hashes -/

theorem luai_numeq_iff {a b : LuaNumber} : luai_numeq a b = true ↔ a = b ∧ a ≠ .nan := by
  simp [luai_numeq]

theorem lua_number2int_finite {k : Int} (lower : -2 ^ 31 ≤ k) (upper : k < 2 ^ 31) :
    lua_number2int (.finite k) = k := by
  simp only [lua_number2int, Rat.num_intCast, Rat.den_intCast, Nat.cast_one, Int.tdiv_one]
  rw [if_pos ⟨lower, upper⟩]

/-- An index that is not negative is that of the number itself. -/
theorem eq_number_of_arrayindex {key : LuaValue} (positive : 0 < arrayindex key) :
    key = .number (cast_num (arrayindex key)) := by
  cases key with
  | number n =>
      rw [arrayindex] at positive ⊢
      split at positive
      next same =>
        rw [if_pos same]
        exact congrArg LuaValue.number (luai_numeq_iff.mp same).1.symm
      next => contradiction
  | _ => contradiction

theorem arrayindex_number {k : Int} (lower : -2 ^ 31 ≤ k) (upper : k < 2 ^ 31) :
    arrayindex (.number (cast_num k)) = k := by
  have back : lua_number2int (cast_num k) = k := lua_number2int_finite lower upper
  rw [arrayindex, back, if_pos (luai_numeq_iff.mpr ⟨rfl, LuaNumber.noConfusion⟩)]

theorem lmod_lt (s k : Nat) : lmod s (2 ^ k) < 2 ^ k := by
  rw [lmod, Nat.and_two_pow_sub_one_eq_mod]
  exact Nat.mod_lt _ (Nat.two_pow_pos k)

theorem hashmod_lt (n k : Nat) : hashmod n (2 ^ k) < 2 ^ k := by
  have positive : 0 < (2 ^ k - 1) ||| 1 := lt_of_lt_of_le Nat.one_pos Nat.right_le_or
  apply (Nat.mod_lt n positive).trans_le
  cases k with
  | zero => decide
  | succ k =>
      apply Nat.le_of_lt
      exact Nat.or_lt_two_pow (Nat.sub_lt (Nat.two_pow_pos _) Nat.one_pos)
        (Nat.one_lt_two_pow (Nat.succ_ne_zero k))

theorem Hashes.mainposition_lt (hashes : Hashes) (key : LuaValue) {size k : Nat}
    (isPower : size = 2 ^ k) : hashes.mainposition size key < size := by
  rw [isPower]
  cases key with
  | number n =>
      rw [mainposition, hashnum]
      split
      next => exact Nat.two_pow_pos k
      next => exact hashmod_lt _ k
  | string s => exact lmod_lt _ k
  | boolean b => exact lmod_lt _ k
  | _ => exact hashmod_lt _ k

theorem luaO_rawequalObj_iff {value key : LuaValue} (valid : key.isKey = true) :
    luaO_rawequalObj value key = true ↔ value = key := by
  cases key with
  | nil => contradiction
  | number n =>
      have isNumber : n ≠ .nan := by
        rintro rfl
        contradiction
      cases value with
      | number n' =>
          rw [luaO_rawequalObj, luai_numeq_iff, LuaValue.number.injEq]
          exact ⟨And.left, fun same => ⟨same, same ▸ isNumber⟩⟩
      | _ => simp [luaO_rawequalObj]
  | _ => cases value <;> simp [luaO_rawequalObj]

theorem luaO_rawequalObj_nan (value : LuaValue) :
    luaO_rawequalObj value (.number .nan) = false := by
  cases value with
  | number n => cases n <;> simp [luaO_rawequalObj, luai_numeq]
  | _ => simp [luaO_rawequalObj]

namespace LTable

/-! ## Nodes -/

abbrev key (t : LTable) (i : Nat) : LuaValue := (t.gnode i).i_key

abbrev val (t : LTable) (i : Nat) : LuaValue := (t.gnode i).i_val

abbrev isDead (t : LTable) (i : Nat) : Bool := (t.gnode i).dead

abbrev gc (t : LTable) (i : Nat) : Nat := (t.gnode i).gc

@[simp]
theorem sizenode_setNode (t : LTable) (i : Nat) (n : Node) :
    (t.setNode i n).sizenode = t.sizenode := List.length_set

theorem gnode_setNode {t : LTable} {i : Nat} (within : i < t.sizenode) (n : Node) :
    (t.setNode i n).gnode = Function.update t.gnode i n := by
  funext j
  by_cases same : j = i
  · subst same
    rw [Function.update_self]
    change (t.node.set j n).getD j dummynode_ = n
    rw [List.getD_eq_getElem?_getD, List.getElem?_set_self within]
    rfl
  · rw [Function.update_of_ne same]
    change (t.node.set i n).getD j dummynode_ = t.node.getD j dummynode_
    rw [List.getD_eq_getElem?_getD, List.getD_eq_getElem?_getD,
      List.getElem?_set_ne (Ne.symm same)]

theorem gnode_of_le {t : LTable} {i : Nat} (outside : t.sizenode ≤ i) :
    t.gnode i = dummynode_ := by
  rw [gnode, List.getD_eq_getElem?_getD, List.getElem?_eq_none outside]
  rfl

theorem lt_of_key {t : LTable} {i : Nat} (used : t.key i ≠ .nil) : i < t.sizenode := by
  by_contra outside
  apply used
  rw [key, gnode_of_le (not_lt.mp outside)]
  rfl

theorem mem_node {t : LTable} {n : Node} : n ∈ t.node ↔ ∃ i, i < t.sizenode ∧ t.gnode i = n := by
  rw [List.mem_iff_getElem]
  constructor
  · rintro ⟨i, within, rfl⟩
    refine ⟨i, within, ?_⟩
    rw [gnode, List.getD_eq_getElem?_getD, List.getElem?_eq_getElem within]
    rfl
  · rintro ⟨i, within, rfl⟩
    refine ⟨i, within, ?_⟩
    rw [gnode, List.getD_eq_getElem?_getD, List.getElem?_eq_getElem within]
    rfl

/-- The key lives in the array part. -/
def InArray (t : LTable) (key : LuaValue) : Prop :=
  0 < arrayindex key ∧ arrayindex key ≤ t.sizearray

instance (t : LTable) (key : LuaValue) : Decidable (t.InArray key) :=
  inferInstanceAs (Decidable (_ ∧ _))

theorem not_inArray {t : LTable} {key : LuaValue} (index : arrayindex key = -1) :
    ¬ t.InArray key := by
  rintro ⟨positive, -⟩
  omega

/-- A node holds the value for the key. -/
def Live (t : LTable) (k v : LuaValue) : Prop := ∃ i, t.key i = k ∧ t.val i = v

/-- The nodes that have a key, dead or alive. -/
def taken (t : LTable) : Finset Nat := (Finset.range t.sizenode).filter fun i => t.key i ≠ .nil

theorem mem_taken {t : LTable} {i : Nat} : i ∈ t.taken ↔ t.key i ≠ .nil := by
  rw [taken, Finset.mem_filter, Finset.mem_range]
  exact ⟨And.right, fun used => ⟨lt_of_key used, used⟩⟩

structure Scattered (hashes : Hashes) (t : LTable) : Prop where
  power : ∃ k, t.sizenode = 2 ^ k
  chained : Chained t.gnext t.sizenode
  free : ∀ i, t.key i = .nil → Loose t.gnext i ∧ t.val i = .nil
  valid : ∀ i, t.key i ≠ .nil → (t.key i).isKey = true
  leads : ∀ i, t.key i ≠ .nil → Leads t.gnext (hashes.mainposition t.sizenode (t.key i)) i
  /-- The node at the main position of a key is at home there. -/
  home : ∀ i, t.key i ≠ .nil → t.key (hashes.mainposition t.sizenode (t.key i)) ≠ .nil ∧
    hashes.mainposition t.sizenode (t.key (hashes.mainposition t.sizenode (t.key i))) =
      hashes.mainposition t.sizenode (t.key i)
  /-- Of two nodes for one key one is dead, and it stands behind a live one. -/
  first : ∀ i j, t.key i = t.key j → t.key i ≠ .nil → t.isDead i = false → i ≠ j →
    t.isDead j = true ∧ Leads t.gnext i j
  dead : ∀ i, t.isDead i = true → t.val i = .nil
  apart : ∀ i, t.key i ≠ .nil → ¬ t.InArray (t.key i)
  mortal : ∀ i, t.isDead i = true → iscollectable (t.key i) = true

/-- A dead key stands before a live one on the way from its main position. -/
structure Obstructs (hashes : Hashes) (t : LTable) (i j : Nat) : Prop where
  alive : t.isDead i = false
  dead : t.isDead j = true
  onWay : Leads t.gnext (hashes.mainposition t.sizenode (t.key i)) j
  before : Leads t.gnext j i

/-- The pointers in the nodes, which dead keys keep. -/
structure Addressed (hashes : Hashes) (t : LTable) : Prop where
  stamped : ∀ i, iscollectable (t.key i) = true → t.isDead i = false →
    t.gc i = hashes.gcvalue (t.key i)
  /-- A dead key whose address is taken again stands behind the live one. -/
  clear : ∀ i j, iscollectable (t.key i) = true → Obstructs hashes t i j →
    t.gc j ≠ hashes.gcvalue (t.key i)

/-- From `lastfree` on every node has a key. -/
structure Packed (t : LTable) : Prop where
  lastfree : t.isDummy = false → ∀ i, t.lastfree ≤ i → i < t.sizenode → t.key i ≠ .nil
  bound : t.lastfree ≤ t.sizenode
  dummy : t.isDummy = true → t.lastfree = 0 ∧ ∀ i, t.key i = .nil

/-! ## Search -/

section Search

variable {hashes : Hashes} {t : LTable}

theorem notNil_of_iscollectable {key : LuaValue} (collectable : iscollectable key = true) :
    key ≠ .nil := by
  rintro rfl
  contradiction

namespace Scattered

theorem mainposition_lt (scattered : Scattered hashes t) (key : LuaValue) :
    hashes.mainposition t.sizenode key < t.sizenode := by
  obtain ⟨k, isPower⟩ := scattered.power
  exact hashes.mainposition_lt key isPower

theorem key_of_val (scattered : Scattered hashes t) {i : Nat} (used : t.val i ≠ .nil) :
    t.key i ≠ .nil := fun isNil => used (scattered.free i isNil).2

theorem alive_of_val (scattered : Scattered hashes t) {i : Nat} (used : t.val i ≠ .nil) :
    t.isDead i = false := by
  by_contra isDead
  exact used (scattered.dead i (by simpa using isDead))

theorem eq_of_alive (scattered : Scattered hashes t) {i j : Nat} (same : t.key i = t.key j)
    (used : t.key i ≠ .nil) (alive : t.isDead i = false) (alive' : t.isDead j = false) :
    i = j := by
  by_contra different
  have isDead := (scattered.first i j same used alive different).1
  rw [alive'] at isDead
  contradiction

theorem search_of_alive (scattered : Scattered hashes t) {key : LuaValue} {i : Nat}
    (valid : key.isKey = true) (isKey : t.key i = key) (alive : t.isDead i = false) :
    t.search (fun n => !n.dead && luaO_rawequalObj n.i_key key)
      (hashes.mainposition t.sizenode key) = some i := by
  have used : t.key i ≠ .nil := by
    rw [isKey]
    rintro rfl
    contradiction
  have leads := scattered.leads i used
  rw [isKey] at leads
  have passed : (!(t.gnode i).dead && luaO_rawequalObj (t.gnode i).i_key key) = true := by
    rw [show (t.gnode i).dead = false from alive, (luaO_rawequalObj_iff valid).mpr isKey]
    rfl
  obtain ⟨found, result⟩ := @Chained.seek_complete t.gnext
    (fun i => !(t.gnode i).dead && luaO_rawequalObj (t.gnode i).i_key key) _ _ _
    scattered.chained (scattered.mainposition_lt key) leads passed
  have matching := (seek_sound result).2
  rw [Bool.and_eq_true, Bool.not_eq_true', luaO_rawequalObj_iff valid] at matching
  have same : t.key found = t.key i := matching.2.trans isKey.symm
  obtain rfl := scattered.eq_of_alive same (same ▸ used) matching.1 alive
  exact result

theorem search_of_absent {key : LuaValue} (valid : key.isKey = true)
    (absent : ∀ i, t.key i = key → t.isDead i = true) (start : Nat) :
    t.search (fun n => !n.dead && luaO_rawequalObj n.i_key key) start = none := by
  by_contra result
  obtain ⟨found, result⟩ := Option.ne_none_iff_exists'.mp result
  have matching := (seek_sound result).2
  rw [Bool.and_eq_true, Bool.not_eq_true', luaO_rawequalObj_iff valid] at matching
  have isDead := absent found matching.2
  rw [show t.isDead found = false from matching.1] at isDead
  contradiction

end Scattered

/-- Integer keys of the array part are read there, and every other key is searched for. -/
theorem luaH_get_eq (t : LTable) {key : LuaValue} (notNil : key ≠ .nil) :
    t.luaH_get hashes key =
      if t.InArray key then
        .array (arrayindex key - 1).toNat
      else
        slotOf (t.search (fun n => !n.dead && luaO_rawequalObj n.i_key key)
          (hashes.mainposition t.sizenode key)) := by
  cases key with
  | nil => contradiction
  | number n =>
      by_cases same : luai_numeq (cast_num (lua_number2int n)) n = true
      · have index : arrayindex (.number n) = lua_number2int n := if_pos same
        have isNumber : cast_num (lua_number2int n) = n := (luai_numeq_iff.mp same).1
        rw [luaH_get, if_pos same, luaH_getnum]
        by_cases inside : t.InArray (.number n)
        · rw [if_pos inside]
          rw [InArray, index] at inside
          rw [if_pos ⟨inside.1, inside.2⟩, index]
        · rw [if_neg inside]
          rw [InArray, index] at inside
          rw [if_neg fun bounds => inside ⟨bounds.1, bounds.2⟩, isNumber, Hashes.mainposition]
      · have index : arrayindex (.number n) = -1 := if_neg same
        rw [luaH_get, if_neg same, if_neg (not_inArray index), getAny]
  | string s => rw [luaH_get, if_neg (not_inArray rfl), luaH_getstr, Hashes.mainposition]
  | _ =>
      rw [if_neg (not_inArray rfl)]
      rfl

/-- What a slot holds, and which one it is. -/
inductive Found (t : LTable) (key : LuaValue) : Slot → Prop
  | array (inside : t.InArray key) : Found t key (.array (arrayindex key - 1).toNat)
  | hash {i : Nat} (outside : ¬ t.InArray key) (isKey : t.key i = key)
      (alive : t.isDead i = false) : Found t key (.hash i)
  | nilobject (outside : ¬ t.InArray key) (absent : ∀ i, t.key i = key → t.isDead i = true) :
      Found t key .nilobject

theorem Scattered.found (scattered : Scattered hashes t) {key : LuaValue}
    (valid : key.isKey = true) : Found t key (t.luaH_get hashes key) := by
  have notNil : key ≠ .nil := by
    rintro rfl
    contradiction
  rw [luaH_get_eq t notNil]
  split
  next inside => exact .array inside
  next outside =>
    by_cases present : ∃ i, t.key i = key ∧ t.isDead i = false
    · obtain ⟨i, isKey, alive⟩ := present
      rw [scattered.search_of_alive valid isKey alive]
      exact .hash outside isKey alive
    · have absent : ∀ i, t.key i = key → t.isDead i = true := by
        intro i isKey
        by_contra alive
        exact present ⟨i, isKey, by simpa using alive⟩
      rw [Scattered.search_of_absent valid absent]
      exact .nilobject outside absent

theorem luaH_get_nan (t : LTable) : t.luaH_get hashes (.number .nan) = .nilobject := by
  rw [luaH_get_eq t LuaValue.noConfusion, if_neg (not_inArray rfl)]
  have nowhere : t.search (fun n => !n.dead && luaO_rawequalObj n.i_key (.number .nan))
      (hashes.mainposition t.sizenode (.number .nan)) = none := by
    by_contra result
    obtain ⟨found, result⟩ := Option.ne_none_iff_exists'.mp result
    have matching := (seek_sound result).2
    dsimp only at matching
    rw [luaO_rawequalObj_nan, Bool.and_false] at matching
    contradiction
  rw [nowhere]
  rfl

/-- The table maps the key to the value, which is not nil. -/
def Maps (t : LTable) (k v : LuaValue) : Prop :=
  if t.InArray k then t.array.getD (arrayindex k - 1).toNat .nil = v else t.Live k v

theorem maps_of_inArray {k v : LuaValue} (inside : t.InArray k) :
    t.Maps k v ↔ t.array.getD (arrayindex k - 1).toNat .nil = v := by
  rw [Maps, if_pos inside]

theorem maps_of_not_inArray {k v : LuaValue} (outside : ¬ t.InArray k) :
    t.Maps k v ↔ t.Live k v := by
  rw [Maps, if_neg outside]

theorem Scattered.get_eq_iff (scattered : Scattered hashes t) {key value : LuaValue}
    (notNil : value ≠ .nil) : t.get hashes key = value ↔ t.Maps key value := by
  by_cases valid : key.isKey = true
  · rw [get, Maps]
    have found := scattered.found valid
    generalize t.luaH_get hashes key = slot at found
    cases found with
    | array inside => rw [if_pos inside, read]
    | @hash i outside isKey alive =>
        rw [if_neg outside, read]
        constructor
        · intro isValue
          exact ⟨i, isKey, isValue⟩
        · rintro ⟨j, isKey', isValue⟩
          have used : t.val j ≠ .nil := isValue ▸ notNil
          have same : t.key j = t.key i := isKey'.trans isKey.symm
          obtain rfl := scattered.eq_of_alive same (scattered.key_of_val used)
            (scattered.alive_of_val used) alive
          exact isValue
    | nilobject outside absent =>
        rw [if_neg outside, read]
        constructor
        · intro isNil
          exact absurd isNil.symm notNil
        · rintro ⟨i, isKey, isValue⟩
          have used : t.val i ≠ .nil := isValue ▸ notNil
          have alive := scattered.alive_of_val used
          rw [absent i isKey] at alive
          contradiction
  · have nowhere : t.luaH_get hashes key = .nilobject := by
      cases key with
      | nil => rfl
      | number n =>
          cases n with
          | nan => exact luaH_get_nan t
          | _ => exact absurd rfl valid
      | _ => exact absurd rfl valid
    have outside : ¬ t.InArray key := by
      intro inside
      rw [eq_number_of_arrayindex inside.1] at valid
      exact valid rfl
    rw [get, nowhere, Maps, if_neg outside, read]
    constructor
    · intro isNil
      exact absurd isNil.symm notNil
    · rintro ⟨i, isKey, isValue⟩
      have used : t.val i ≠ .nil := isValue ▸ notNil
      exact absurd (isKey ▸ scattered.valid i (scattered.key_of_val used)) valid

end Search

end LTable

end LuaEngine.Lua
