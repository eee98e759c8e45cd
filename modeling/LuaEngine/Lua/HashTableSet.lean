import LuaEngine.Lua.HashTableInsert

/-!
# Assignment

An assignment finds the place of its key or makes one, and writes the value there.  What
the other keys are mapped to stays as it is, and the table grows only for a key that is
new to a full node vector.
-/

namespace LuaEngine.Lua

open LuaEngine.Codec LuaEngine.System

namespace LTable

variable {hashes : Hashes} {t t' : LTable} {key value : LuaValue} {m : Nat}

structure LaidOut (hashes : Hashes) (t : LTable) : Prop where
  scattered : Scattered hashes t
  packed : Packed t

/-- The value has been assigned to the key. -/
structure Stored (hashes : Hashes) (t t' : LTable) (key value : LuaValue) : Prop where
  laidOut : LaidOut hashes t'
  sizearray : t'.sizearray = t.sizearray
  sizenode : t'.sizenode = t.sizenode
  isDummy : t'.isDummy = t.isDummy
  maps : ∀ k v, v ≠ .nil → (t'.Maps k v ↔ if k = key then v = value else t.Maps k v)
  taken : t'.taken.card ≤ t.taken.card + if t.InArray key then 0 else 1
  addressed : Addressed hashes t → Addressed hashes t'

theorem inArray_of_sizearray (same : t'.sizearray = t.sizearray) (key : LuaValue) :
    t'.InArray key ↔ t.InArray key := by
  rw [InArray, InArray, same]

/-! ## Changes that leave the keys alone -/

/-- Only values change, and nodes without a value die. -/
structure SameKeys (t t' : LTable) : Prop where
  sizearray : t'.sizearray = t.sizearray
  sizenode : t'.sizenode = t.sizenode
  isDummy : t'.isDummy = t.isDummy
  lastfree : t'.lastfree = t.lastfree
  key : ∀ i, t'.key i = t.key i
  gc : ∀ i, t'.gc i = t.gc i
  gnext : t'.gnext = t.gnext
  dead : ∀ i, t.isDead i = true → t'.isDead i = true
  unset : ∀ i, t'.isDead i = true → t'.val i = .nil
  free : ∀ i, t.key i = .nil → t'.val i = .nil
  died : ∀ i, t'.isDead i = true → t.isDead i = true ∨ iscollectable (t.key i) = true

namespace SameKeys

/-- A key that is alive now was alive before. -/
theorem alive (same : SameKeys t t') {i : Nat} (alive : t'.isDead i = false) :
    t.isDead i = false := by
  by_contra isDead
  rw [same.dead i (by simpa using isDead)] at alive
  contradiction

theorem scattered (same : SameKeys t t') (scattered : Scattered hashes t) :
    Scattered hashes t' where
  power := by
    rw [same.sizenode]
    exact scattered.power
  chained := by
    rw [same.gnext, same.sizenode]
    exact scattered.chained
  free i isNil := by
    rw [same.key] at isNil
    rw [same.gnext]
    exact ⟨(scattered.free i isNil).1, same.free i isNil⟩
  valid i := by
    rw [same.key]
    exact scattered.valid i
  leads i := by
    rw [same.key, same.sizenode, same.gnext]
    exact scattered.leads i
  home i := by
    rw [same.key, same.sizenode, same.key]
    exact scattered.home i
  first i j sameKey used alive different := by
    rw [same.key, same.key] at sameKey
    rw [same.key] at used
    obtain ⟨isDead, stands⟩ := scattered.first i j sameKey used (same.alive alive) different
    rw [same.gnext]
    exact ⟨same.dead j isDead, stands⟩
  dead := same.unset
  apart i := by
    rw [same.key, inArray_of_sizearray same.sizearray]
    exact scattered.apart i
  mortal i isDead := by
    rw [same.key]
    exact (same.died i isDead).elim (scattered.mortal i) id

theorem packed (same : SameKeys t t') (packed : Packed t) : Packed t' where
  lastfree notDummy i above inside := by
    rw [same.isDummy] at notDummy
    rw [same.lastfree] at above
    rw [same.sizenode] at inside
    rw [same.key]
    exact packed.lastfree notDummy i above inside
  bound := by
    rw [same.lastfree, same.sizenode]
    exact packed.bound
  dummy isDummy := by
    rw [same.isDummy] at isDummy
    obtain ⟨isZero, free⟩ := packed.dummy isDummy
    refine ⟨same.lastfree.trans isZero, fun i => ?_⟩
    rw [same.key]
    exact free i

theorem laidOut (same : SameKeys t t') (laidOut : LaidOut hashes t) : LaidOut hashes t' :=
  ⟨same.scattered laidOut.scattered, same.packed laidOut.packed⟩

theorem taken (same : SameKeys t t') : t'.taken = t.taken := by
  ext i
  rw [mem_taken, mem_taken, same.key]

theorem refl (scattered : Scattered hashes t) : SameKeys t t :=
  ⟨rfl, rfl, rfl, rfl, fun _ => rfl, fun _ => rfl, rfl, fun _ => id, scattered.dead,
    fun i isNil => (scattered.free i isNil).2, fun _ => .inl⟩

theorem trans {t₁ t₂ : LTable} (first : SameKeys t t₁) (second : SameKeys t₁ t₂) :
    SameKeys t t₂ where
  sizearray := second.sizearray.trans first.sizearray
  sizenode := second.sizenode.trans first.sizenode
  isDummy := second.isDummy.trans first.isDummy
  lastfree := second.lastfree.trans first.lastfree
  key i := (second.key i).trans (first.key i)
  gc i := (second.gc i).trans (first.gc i)
  gnext := second.gnext.trans first.gnext
  dead i isDead := second.dead i (first.dead i isDead)
  unset := second.unset
  free i isNil := second.free i ((first.key i).trans isNil)
  died i isDead := by
    rcases second.died i isDead with before | collectable
    · exact first.died i before
    · rw [first.key] at collectable
      exact .inr collectable

theorem obstructs (same : SameKeys t t') {i j : Nat} (obstructs : Obstructs hashes t' i j)
    (wasDead : t.isDead j = true) : Obstructs hashes t i j := by
  obtain ⟨alive, -, onWay, before⟩ := obstructs
  rw [same.key, same.sizenode, same.gnext] at onWay
  rw [same.gnext] at before
  exact ⟨same.alive alive, wasDead, onWay, before⟩

/-- Values may change as long as no key dies. -/
theorem addressed (same : SameKeys t t') (dies : ∀ i, t'.isDead i = true → t.isDead i = true)
    (addressed : Addressed hashes t) : Addressed hashes t' where
  stamped i collectable alive := by
    rw [same.key] at collectable ⊢
    rw [same.gc]
    exact addressed.stamped i collectable (same.alive alive)
  clear i j collectable obstructs := by
    rw [same.key] at collectable ⊢
    rw [same.gc]
    exact addressed.clear i j collectable (same.obstructs obstructs (dies j obstructs.dead))

end SameKeys

/-! ## The array part -/

section Array

theorem sizearray_write (t : LTable) (slot : Slot) (value : LuaValue) :
    (t.write slot value).sizearray = t.sizearray := by
  cases slot with
  | array i => exact List.length_set
  | hash i => rfl
  | nilobject => rfl

theorem getD_set (values : List LuaValue) {i : Nat} (within : i < values.length) (j : Nat)
    (value : LuaValue) :
    (values.set i value).getD j .nil = if j = i then value else values.getD j .nil := by
  rw [List.getD_eq_getElem?_getD, List.getElem?_set]
  by_cases same : i = j
  · rw [if_pos same, if_pos within, if_pos same.symm]
    rfl
  · rw [if_neg same, if_neg (Ne.symm same), List.getD_eq_getElem?_getD]

theorem InArray.lt (inside : t.InArray key) : (arrayindex key - 1).toNat < t.array.length := by
  have bound : arrayindex key ≤ t.array.length := inside.2
  have positive := inside.1
  omega

theorem InArray.eq_iff {k : LuaValue} (inside : t.InArray key) (inside' : t.InArray k) :
    (arrayindex k - 1).toNat = (arrayindex key - 1).toNat ↔ k = key := by
  constructor
  · intro same
    have positive := inside.1
    have positive' := inside'.1
    have indices : arrayindex k = arrayindex key := by omega
    rw [eq_number_of_arrayindex positive, eq_number_of_arrayindex positive', indices]
  · rintro rfl
    rfl

theorem Scattered.sameKeys_array (scattered : Scattered hashes t) (i : Nat) (value : LuaValue) :
    SameKeys t (t.write (.array i) value) :=
  ⟨sizearray_write t (.array i) value, rfl, rfl, rfl, fun _ => rfl, fun _ => rfl, rfl,
    fun _ => id, scattered.dead, fun i isNil => (scattered.free i isNil).2, fun _ => .inl⟩

theorem LaidOut.stored_array (laidOut : LaidOut hashes t) (inside : t.InArray key)
    (value : LuaValue) :
    Stored hashes t (t.write (.array (arrayindex key - 1).toNat) value) key value := by
  have change := laidOut.scattered.sameKeys_array (arrayindex key - 1).toNat value
  refine ⟨change.laidOut laidOut, change.sizearray, rfl, rfl, ?_, Nat.le_add_right _ _,
    change.addressed fun _ => id⟩
  intro k v _
  have same := inArray_of_sizearray change.sizearray k
  by_cases inside' : t.InArray k
  · rw [maps_of_inArray (same.mpr inside'), maps_of_inArray inside']
    change (t.array.set _ value).getD _ .nil = v ↔ _
    rw [getD_set _ inside.lt]
    by_cases same : k = key
    · rw [if_pos same, if_pos ((inside.eq_iff inside').mpr same)]
      exact eq_comm
    · rw [if_neg same, if_neg fun index => same ((inside.eq_iff inside').mp index)]
  · have different : k ≠ key := fun isKey => inside' (isKey ▸ inside)
    rw [maps_of_not_inArray (mt same.mp inside'), maps_of_not_inArray inside', if_neg different]
    rfl

end Array

/-! ## A node that has the key -/

section Hash

theorem gnode_write (within : m < t.sizenode) (value : LuaValue) :
    (t.write (.hash m) value).gnode =
      Function.update t.gnode m { t.gnode m with i_val := value } :=
  gnode_setNode within _

theorem gnext_write (within : m < t.sizenode) (value : LuaValue) :
    (t.write (.hash m) value).gnext = t.gnext := by
  funext i
  rw [gnext, gnode_write within, gnext]
  by_cases same : i = m
  · rw [same, Function.update_self]
  · rw [Function.update_of_ne same]

theorem key_write (within : m < t.sizenode) (value : LuaValue) (i : Nat) :
    (t.write (.hash m) value).key i = t.key i := by
  rw [LTable.key, gnode_write within]
  by_cases same : i = m
  · rw [same, Function.update_self]
  · rw [Function.update_of_ne same]

theorem gc_write (within : m < t.sizenode) (value : LuaValue) (i : Nat) :
    (t.write (.hash m) value).gc i = t.gc i := by
  rw [gc, gnode_write within]
  by_cases same : i = m
  · rw [same, Function.update_self]
  · rw [Function.update_of_ne same]

theorem isDead_write (within : m < t.sizenode) (value : LuaValue) (i : Nat) :
    (t.write (.hash m) value).isDead i = t.isDead i := by
  rw [isDead, gnode_write within]
  by_cases same : i = m
  · rw [same, Function.update_self]
  · rw [Function.update_of_ne same]

theorem val_write (within : m < t.sizenode) (value : LuaValue) (i : Nat) :
    (t.write (.hash m) value).val i = if i = m then value else t.val i := by
  rw [val, gnode_write within]
  by_cases same : i = m
  · rw [same, Function.update_self, if_pos rfl]
  · rw [Function.update_of_ne same, if_neg same]

theorem Scattered.sameKeys_hash (scattered : Scattered hashes t) (used : t.key m ≠ .nil)
    (alive : t.isDead m = false) (value : LuaValue) :
    SameKeys t (t.write (.hash m) value) := by
  have within := lt_of_key used
  refine ⟨rfl, sizenode_setNode _ _ _, rfl, rfl, key_write within value, gc_write within value,
    gnext_write within value, fun i isDead => (isDead_write within value i).trans isDead, ?_, ?_,
    fun i isDead => .inl ((isDead_write within value i).symm.trans isDead)⟩
  · intro i isDead
    rw [isDead_write within] at isDead
    have different : i ≠ m := by
      rintro rfl
      rw [alive] at isDead
      contradiction
    rw [val_write within, if_neg different]
    exact scattered.dead i isDead
  · intro i isNil
    have different : i ≠ m := fun same => used (same ▸ isNil)
    rw [val_write within, if_neg different]
    exact (scattered.free i isNil).2

theorem Scattered.live_write (scattered : Scattered hashes t) (isKey : t.key m = key)
    (used : key ≠ .nil) (alive : t.isDead m = false) {k v : LuaValue} (isValue : v ≠ .nil) :
    (t.write (.hash m) value).Live k v ↔ if k = key then v = value else t.Live k v := by
  have within : m < t.sizenode := lt_of_key (isKey ▸ used)
  have unfolded : (t.write (.hash m) value).Live k v ↔
      ∃ i, t.key i = k ∧ (if i = m then value else t.val i) = v := by
    simp only [Live, key_write within, val_write within]
  rw [unfolded]
  by_cases same : k = key
  · rw [if_pos same]
    constructor
    · rintro ⟨i, isKey', holds⟩
      by_cases isSelf : i = m
      · rw [if_pos isSelf] at holds
        exact holds.symm
      · -- another node for the key is dead
        rw [if_neg isSelf] at holds
        have sameKey : t.key m = t.key i := isKey.trans (same.symm.trans isKey'.symm)
        have isDead := (scattered.first m i sameKey (isKey ▸ used) alive (Ne.symm isSelf)).1
        exact absurd (holds.symm.trans (scattered.dead i isDead)) isValue
    · rintro rfl
      exact ⟨m, isKey.trans same.symm, if_pos rfl⟩
  · rw [if_neg same, Live]
    apply exists_congr
    intro i
    apply and_congr_right
    intro isKey'
    have different : i ≠ m := by
      rintro rfl
      exact same (isKey'.symm.trans isKey)
    rw [if_neg different]

theorem LaidOut.stored_hash (laidOut : LaidOut hashes t) (outside : ¬ t.InArray key)
    (isKey : t.key m = key) (used : key ≠ .nil) (alive : t.isDead m = false)
    (value : LuaValue) : Stored hashes t (t.write (.hash m) value) key value := by
  have change := laidOut.scattered.sameKeys_hash (isKey ▸ used) alive value
  have within : m < t.sizenode := lt_of_key (isKey ▸ used)
  refine ⟨change.laidOut laidOut, rfl, change.sizenode, rfl, ?_, ?_,
    change.addressed fun i isDead => (isDead_write within value i).symm.trans isDead⟩
  · intro k v isValue
    have same := inArray_of_sizearray change.sizearray k
    by_cases inside : t.InArray k
    · have different : k ≠ key := fun isKey => outside (isKey ▸ inside)
      rw [maps_of_inArray (same.mpr inside), maps_of_inArray inside, if_neg different]
      rfl
    · rw [maps_of_not_inArray (mt same.mp inside), maps_of_not_inArray inside]
      exact laidOut.scattered.live_write isKey used alive isValue
  · rw [change.taken]
    exact Nat.le_add_right _ _

end Hash

/-! ## A new key -/

theorem Inserted.stored {grown : LTable} (inserted : Inserted hashes t grown key m)
    (notNil : key ≠ .nil) (outside : ¬ t.InArray key) (value : LuaValue) :
    Stored hashes t (grown.write (.hash m) value) key value := by
  have outside' : ¬ grown.InArray key := by
    rwa [inArray_congr inserted.array]
  have stored := LaidOut.stored_hash ⟨inserted.scattered, inserted.packed⟩ outside'
    inserted.isKey notNil inserted.alive value
  have size : grown.sizearray = t.sizearray := congrArg List.length inserted.array
  refine ⟨stored.laidOut, stored.sizearray.trans size, stored.sizenode.trans inserted.sizenode,
    stored.isDummy.trans inserted.isDummy, ?_, ?_,
    fun addressed => stored.addressed (inserted.addressed addressed)⟩
  · intro k v isValue
    rw [stored.maps k v isValue]
    have same := inArray_congr inserted.array k
    by_cases inside : t.InArray k
    · rw [maps_of_inArray (same.mpr inside), maps_of_inArray inside, inserted.array]
    · rw [maps_of_not_inArray (mt same.mp inside), maps_of_not_inArray inside,
        inserted.kept k v isValue]
  · have few := stored.taken
    rw [if_neg outside'] at few
    rw [if_neg outside]
    obtain ⟨n, subset⟩ := inserted.taken
    have more := (Finset.card_le_card subset).trans (Finset.card_insert_le n t.taken)
    -- the key is in the node already when the value is written
    have same := (inserted.scattered.sameKeys_hash (inserted.isKey ▸ notNil) inserted.alive
      value).taken
    rw [same]
    exact more

theorem notNil_of_isKey (valid : key.isKey = true) : key ≠ .nil := by
  rintro rfl
  contradiction

theorem luaH_setWith_new {grow : Grow} (valid : key.isKey = true)
    (nowhere : t.luaH_get hashes key = .nilobject) :
    t.luaH_setWith hashes grow key = t.newkey hashes grow key := by
  have isNumber : key ≠ .number .nan := by
    rintro rfl
    contradiction
  rw [luaH_setWith, nowhere]
  dsimp only
  rw [if_neg (notNil_of_isKey valid), if_neg isNumber]

/-- A key that has a place, or a free node to go to, is stored without growing. -/
theorem LaidOut.luaH_setWith_cases (laidOut : LaidOut hashes t) (valid : key.isKey = true)
    (grow : Grow) :
    (∃ t₁ slot, t.luaH_setWith hashes grow key = .ok (t₁, slot) ∧
      ∀ value, Stored hashes t (t₁.write slot value) key value) ∨
    (Absent hashes t key ∧ ¬ t.Roomy ∧
      t.luaH_setWith hashes grow key = grow { t with lastfree := 0 } key) := by
  have found := laidOut.scattered.found valid
  generalize result : t.luaH_get hashes key = slot at found
  cases found with
  | array inside =>
      left
      refine ⟨t, _, ?_, laidOut.stored_array inside⟩
      rw [luaH_setWith, result]
  | @hash i outside isKey alive =>
      left
      refine ⟨t, _, ?_, laidOut.stored_hash outside isKey (notNil_of_isKey valid) alive⟩
      rw [luaH_setWith, result]
  | nilobject outside absent =>
      have new : Absent hashes t key := ⟨laidOut.scattered, valid, outside, absent⟩
      rw [luaH_setWith_new valid result]
      rcases new.newkey_cases laidOut.packed grow with ⟨t₁, m, success, inserted⟩ | ⟨full, grows⟩
      · exact .inl ⟨t₁, _, success, inserted.stored new.notNil outside⟩
      · exact .inr ⟨new, full, grows⟩

theorem LaidOut.luaH_setWith_of_room (laidOut : LaidOut hashes t) (valid : key.isKey = true)
    (room : t.InArray key ∨ t.Roomy) (grow : Grow) :
    ∃ t₁ slot, t.luaH_setWith hashes grow key = .ok (t₁, slot) ∧
      ∀ value, Stored hashes t (t₁.write slot value) key value := by
  rcases laidOut.luaH_setWith_cases valid grow with stored | ⟨absent, full, -⟩
  · exact stored
  · exact absurd room (not_or.mpr ⟨absent.outside, full⟩)

theorem luaH_get_cast_num {k : Int} (lower : -2 ^ 31 ≤ k) (upper : k < 2 ^ 31) :
    t.luaH_get hashes (.number (cast_num k)) = t.luaH_getnum hashes k := by
  have back : lua_number2int (cast_num k) = k := lua_number2int_finite lower upper
  have same : luai_numeq (cast_num k) (cast_num k) = true :=
    luai_numeq_iff.mpr ⟨rfl, LuaNumber.noConfusion⟩
  rw [luaH_get, back, if_pos same]

/-- An integer is assigned like any other key. -/
theorem luaH_setnumWith_eq {k : Int} (lower : -2 ^ 31 ≤ k) (upper : k < 2 ^ 31) (grow : Grow) :
    t.luaH_setnumWith hashes grow k = t.luaH_setWith hashes grow (.number (cast_num k)) := by
  rw [luaH_setnumWith, luaH_setWith, luaH_get_cast_num lower upper]
  cases t.luaH_getnum hashes k with
  | nilobject => rw [if_neg LuaValue.noConfusion, if_neg (by simp [cast_num])]
  | _ => rfl

end LTable

end LuaEngine.Lua
