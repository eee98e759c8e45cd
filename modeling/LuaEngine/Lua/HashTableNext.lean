import LuaEngine.Lua.HashTableMemory

/-!
# Traversal

`next` goes through the array part and then through the nodes.  While a table is traversed
fields that exist may be assigned to, or cleared, the collector may run, and new objects may
come to the addresses of old ones: `next` knows every key it gave out, no field is visited
twice, and none that stays is missed.
-/

namespace LuaEngine.Lua

open LuaEngine.Codec LuaEngine.System

namespace LTable

variable {hashes : Hashes} {t t' : LTable} {key k v : LuaValue} {fuel p q : Nat}

/-! ## Positions -/

/-- The places a traversal comes by. -/
def positions (t : LTable) : Nat := t.sizearray + t.sizenode

def keyAt (t : LTable) (p : Nat) : LuaValue :=
  if p < t.sizearray then .number (cast_num (p + 1 : Nat)) else t.key (p - t.sizearray)

def valueAt (t : LTable) (p : Nat) : LuaValue :=
  if p < t.sizearray then t.array.getD p .nil else t.val (p - t.sizearray)

theorem nextPosition_eq_some {value : Nat → LuaValue} {i size : Nat} :
    nextPosition value i size = some p ↔
      value p ≠ .nil ∧ i ≤ p ∧ p < size ∧ ∀ q, i ≤ q → q < p → value q = .nil := by
  rw [nextPosition, List.find?_range'_eq_some, List.mem_range'_1]
  simp only [ne_eq, decide_not, Bool.not_eq_eq_eq_not, Bool.not_true, decide_eq_false_iff_not,
    Bool.not_not, decide_eq_true_eq]
  constructor
  · rintro ⟨isValue, bounds, before⟩
    exact ⟨isValue, bounds.1, by omega, before⟩
  · rintro ⟨isValue, lower, upper, before⟩
    exact ⟨isValue, ⟨lower, by omega⟩, before⟩

theorem nextPosition_eq_none {value : Nat → LuaValue} {i size : Nat} :
    nextPosition value i size = none ↔ ∀ q, i ≤ q → q < size → value q = .nil := by
  rw [nextPosition, List.find?_eq_none]
  constructor
  · intro none q lower upper
    have isNil := none q (List.mem_range'_1.mpr ⟨lower, by omega⟩)
    simpa using isNil
  · intro none q membership
    rw [List.mem_range'_1] at membership
    have isNil := none q membership.1 (by omega)
    simpa using isNil

/-- Both loops of `next` as one search. -/
theorem luaH_next_eq {i : Int} (found : t.findindex hashes key = .ok i)
    (isNext : (i + 1).toNat = p) :
    t.luaH_next hashes key =
      .ok ((nextPosition t.valueAt p t.positions).map fun p => (t.keyAt p, t.valueAt p)) := by
  have unfolded : t.luaH_next hashes key = .ok (t.entryAfter p) := by
    rw [luaH_next, found, ← isNext]
    rfl
  rw [unfolded, entryAfter]
  congr 1
  cases first : nextPosition (fun i => t.array.getD i .nil) p t.sizearray with
  | some i =>
      obtain ⟨isValue, lower, upper, before⟩ := nextPosition_eq_some.mp first
      have result : nextPosition t.valueAt p t.positions = some i := by
        rw [nextPosition_eq_some]
        refine ⟨by rwa [valueAt, if_pos upper], lower, by rw [positions]; omega, ?_⟩
        intro q above below
        rw [valueAt, if_pos (below.trans upper)]
        exact before q above below
      rw [result, Option.map_some, keyAt, valueAt, if_pos upper, if_pos upper]
  | none =>
      have empty := nextPosition_eq_none.mp first
      cases second : nextPosition (fun i => (t.gnode i).i_val) (p - t.sizearray) t.sizenode with
      | some i =>
          obtain ⟨isValue, lower, upper, before⟩ := nextPosition_eq_some.mp second
          have beyond : ¬ t.sizearray + i < t.sizearray := by omega
          have result : nextPosition t.valueAt p t.positions = some (t.sizearray + i) := by
            rw [nextPosition_eq_some]
            refine ⟨?_, by omega, by rw [positions]; omega, ?_⟩
            · rw [valueAt, if_neg beyond, Nat.add_sub_cancel_left]
              exact isValue
            · intro q above below
              unfold valueAt
              split
              next inside => exact empty q above inside
              next outside => exact before (q - t.sizearray) (by omega) (by omega)
          rw [result, Option.map_some, Option.map_some, keyAt, valueAt, if_neg beyond,
            if_neg beyond, Nat.add_sub_cancel_left]
      | none =>
          have vacant := nextPosition_eq_none.mp second
          have result : nextPosition t.valueAt p t.positions = none := by
            rw [nextPosition_eq_none]
            intro q above below
            rw [positions] at below
            unfold valueAt
            split
            next inside => exact empty q above inside
            next outside => exact vacant (q - t.sizearray) (by omega) (by omega)
          rw [result]
          rfl

/-! ## Positions and keys -/

theorem keyAt_inArray (bounded : t.sizearray ≤ MAXASIZE) (inside : p < t.sizearray) :
    arrayindex (t.keyAt p) = (p + 1 : Nat) := by
  rw [keyAt, if_pos inside]
  exact arrayindex_nat (by omega)

theorem Sound.get_keyAt (sound : Sound hashes t) (isValue : t.valueAt p ≠ .nil) :
    t.get hashes (t.keyAt p) = t.valueAt p := by
  have scattered := sound.laidOut.scattered
  rw [scattered.get_eq_iff isValue]
  by_cases inside : p < t.sizearray
  · have index := keyAt_inArray sound.sizearray inside
    have isInside : t.InArray (t.keyAt p) := by
      rw [InArray, index]
      omega
    rw [maps_of_inArray isInside, index, valueAt, if_pos inside]
    congr 1
    omega
  · rw [valueAt, if_neg inside] at isValue ⊢
    have outside := scattered.apart _ (scattered.key_of_val isValue)
    rw [keyAt, if_neg inside, maps_of_not_inArray outside]
    exact ⟨_, rfl, rfl⟩

/-- What a key is mapped to stands at a position. -/
theorem Sound.exists_position (sound : Sound hashes t) (isValue : t.get hashes k ≠ .nil) :
    ∃ p, p < t.positions ∧ t.keyAt p = k ∧ t.valueAt p = t.get hashes k := by
  have scattered := sound.laidOut.scattered
  have maps := (scattered.get_eq_iff isValue).mp rfl
  by_cases inside : t.InArray k
  · have within : (arrayindex k - 1).toNat < t.sizearray := inside.lt
    have positive := inside.1
    refine ⟨(arrayindex k - 1).toNat, by rw [positions]; omega, ?_, ?_⟩
    · have index : (((arrayindex k - 1).toNat + 1 : Nat) : Int) = arrayindex k := by omega
      rw [keyAt, if_pos within, index, ← eq_number_of_arrayindex positive]
    · rw [valueAt, if_pos within]
      exact (maps_of_inArray inside).mp maps
  · obtain ⟨i, isKey, holds⟩ := (maps_of_not_inArray inside).mp maps
    have within : i < t.sizenode := lt_of_key (scattered.key_of_val (holds ▸ isValue))
    have beyond : ¬ t.sizearray + i < t.sizearray := by omega
    refine ⟨t.sizearray + i, by rw [positions]; omega, ?_, ?_⟩
    · rw [keyAt, if_neg beyond, Nat.add_sub_cancel_left]
      exact isKey
    · rw [valueAt, if_neg beyond, Nat.add_sub_cancel_left]
      exact holds

/-! ## A key that was given out -/

/-- The search for the key of a node comes to that node first, also when the key is dead. -/
structure Retained (hashes : Hashes) (t : LTable) (i : Nat) : Prop where
  used : t.key i ≠ .nil
  stamped : iscollectable (t.key i) = true → t.gc i = hashes.gcvalue (t.key i)
  copies : ∀ j, t.key j = t.key i → t.isDead j = false → j = i
  clear : iscollectable (t.key i) = true → ∀ j, t.isDead j = true →
    Leads t.gnext (hashes.mainposition t.sizenode (t.key i)) j → Leads t.gnext j i →
    t.gc j = hashes.gcvalue (t.key i) → j = i

theorem Sound.retained (sound : Sound hashes t) (addressed : Addressed hashes t) {i : Nat}
    (isValue : t.val i ≠ .nil) : Retained hashes t i := by
  have scattered := sound.laidOut.scattered
  have used := scattered.key_of_val isValue
  have alive := scattered.alive_of_val isValue
  refine ⟨used, fun collectable => addressed.stamped i collectable alive, ?_, ?_⟩
  · intro j same alive'
    exact scattered.eq_of_alive same (same ▸ used) alive' alive
  · intro collectable j dead onWay before place
    exact absurd place (addressed.clear i j collectable ⟨alive, dead, onWay, before⟩)

/-- Keys may die, as long as the object of the key that was given out lives. -/
theorem Retained.sameKeys {i : Nat} (retained : Retained hashes t i) (same : SameKeys t t')
    (addressed : Addressed hashes t)
    (separate : iscollectable (t.key i) = true → hashes.Separate (t.key i :: t.objects)) :
    Retained hashes t' i where
  used := by
    rw [same.key]
    exact retained.used
  stamped collectable := by
    rw [same.key] at collectable ⊢
    rw [same.gc]
    exact retained.stamped collectable
  copies j sameKey alive := by
    rw [same.key, same.key] at sameKey
    exact retained.copies j sameKey (same.alive alive)
  clear collectable j dead onWay before place := by
    rw [same.key] at collectable place
    rw [same.key, same.sizenode, same.gnext] at onWay
    rw [same.gnext] at before
    rw [same.gc] at place
    cases wasDead : t.isDead j with
    | true => exact retained.clear collectable j wasDead onWay before place
    | false =>
        have collectable' := (same.died j dead).resolve_left (by simp [wasDead])
        have inside : t.key j ∈ t.objects := mem_objects.mpr ⟨collectable', j, rfl, wasDead⟩
        rw [addressed.stamped j collectable' wasDead] at place
        have sameKey := separate collectable _ (List.mem_cons_of_mem _ inside) _
          List.mem_cons_self place
        exact retained.copies j sameKey wasDead

theorem Retained.located {i : Nat} {gcvalue : LuaValue → Nat} (retained : Retained hashes t i)
    (stay : iscollectable (t.key i) = true → gcvalue (t.key i) = hashes.gcvalue (t.key i)) :
    Retained (hashes.located gcvalue) t i where
  used := retained.used
  stamped collectable := (retained.stamped collectable).trans (stay collectable).symm
  copies := retained.copies
  clear collectable j dead onWay before place :=
    retained.clear collectable j dead onWay before (place.trans (stay collectable))

theorem Sound.findindex_inArray (sound : Sound hashes t) (inside : p < t.sizearray) :
    t.findindex hashes (t.keyAt p) = .ok p := by
  have index := keyAt_inArray sound.sizearray inside
  have notNil : t.keyAt p ≠ .nil := by
    rw [keyAt, if_pos inside]
    exact LuaValue.noConfusion
  rw [findindex, if_neg notNil]
  dsimp only
  rw [index, if_pos (by omega)]
  congr 1
  omega

theorem Sound.findindex_node (sound : Sound hashes t) {i : Nat} (retained : Retained hashes t i) :
    t.findindex hashes (t.key i) = .ok (i + t.sizearray : Nat) := by
  have scattered := sound.laidOut.scattered
  obtain ⟨used, stamped, copies, clear⟩ := retained
  have valid := scattered.valid i used
  have passed : ((!(t.gnode i).dead && luaO_rawequalObj (t.gnode i).i_key (t.key i)) ||
      ((t.gnode i).dead && iscollectable (t.key i) &&
        decide ((t.gnode i).gc = hashes.gcvalue (t.key i)))) = true := by
    cases isDead : (t.gnode i).dead with
    | false => simp [(luaO_rawequalObj_iff valid).mpr rfl]
    | true =>
        have collectable := scattered.mortal i isDead
        simp [collectable, show (t.gnode i).gc = _ from stamped collectable]
  obtain ⟨found, result⟩ := @Chained.seek_complete t.gnext (fun j =>
    (!(t.gnode j).dead && luaO_rawequalObj (t.gnode j).i_key (t.key i)) ||
      ((t.gnode j).dead && iscollectable (t.key i) &&
        decide ((t.gnode j).gc = hashes.gcvalue (t.key i)))) _ _ _
    scattered.chained (scattered.mainposition_lt _) (scattered.leads i used) passed
  -- what passes earlier is the node itself
  obtain ⟨onWay, matching⟩ := seek_sound result
  have before := seek_first result (scattered.leads i used) passed
  have isFound : found = i := by
    rw [Bool.or_eq_true, Bool.and_eq_true, Bool.and_eq_true, Bool.and_eq_true,
      luaO_rawequalObj_iff valid, decide_eq_true_eq, Bool.not_eq_true'] at matching
    rcases matching with ⟨alive, sameKey⟩ | ⟨⟨dead, collectable⟩, place⟩
    · exact copies found sameKey alive
    · exact clear collectable found dead onWay before place
  have outside : ¬ (0 < arrayindex (t.key i) ∧ arrayindex (t.key i) ≤ t.sizearray) :=
    scattered.apart i used
  rw [findindex, if_neg used]
  dsimp only
  rw [if_neg outside, search, result, isFound]
  rfl

theorem Sound.findindex_keyAt (sound : Sound hashes t)
    (retained : t.sizearray ≤ p → Retained hashes t (p - t.sizearray)) :
    t.findindex hashes (t.keyAt p) = .ok p := by
  by_cases inside : p < t.sizearray
  · exact sound.findindex_inArray inside
  · have beyond := not_lt.mp inside
    rw [keyAt, if_neg inside, sound.findindex_node (retained beyond), Nat.sub_add_cancel beyond]

theorem Sound.retained_position (sound : Sound hashes t) (addressed : Addressed hashes t)
    (isValue : t.valueAt p ≠ .nil) (beyond : t.sizearray ≤ p) :
    Retained hashes t (p - t.sizearray) := by
  rw [valueAt, if_neg (not_lt.mpr beyond)] at isValue
  exact sound.retained addressed isValue

theorem Sound.keyAt_mem_objects (sound : Sound hashes t) (isValue : t.valueAt p ≠ .nil)
    (collectable : iscollectable (t.keyAt p) = true) : t.keyAt p ∈ t.objects := by
  rw [keyAt] at collectable ⊢
  unfold valueAt at isValue
  split at isValue
  next inside =>
    rw [if_pos inside] at collectable
    contradiction
  next outside =>
    rw [if_neg outside] at collectable ⊢
    have alive := sound.laidOut.scattered.alive_of_val isValue
    exact mem_objects.mpr ⟨collectable, _, rfl, alive⟩

theorem Sound.keyAt_injective (sound : Sound hashes t) (addressed : Addressed hashes t)
    (isValue : t.valueAt p ≠ .nil) (isValue' : t.valueAt q ≠ .nil)
    (same : t.keyAt p = t.keyAt q) : p = q := by
  have first := sound.findindex_keyAt (sound.retained_position addressed isValue)
  rw [same, sound.findindex_keyAt (sound.retained_position addressed isValue')] at first
  have equal := Except.ok.inj first
  omega

/-! ## Changes during a traversal -/

/-- An existing field is assigned to in its place. -/
theorem Sound.set_existing (sound : Sound hashes t) (field : t.get hashes k ≠ .nil) (fuel : Nat)
    (value : LuaValue) :
    ∃ t', t.set hashes fuel k value = .ok t' ∧ SameKeys t t' ∧
      ∀ p, t'.valueAt p ≠ .nil → t.valueAt p ≠ .nil := by
  have scattered := sound.laidOut.scattered
  have valid : k.isKey = true := scattered.valid_pairs sound.sizearray (sound.mem_pairs_get field)
  have found := scattered.found valid
  rw [get] at field
  generalize result : t.luaH_get hashes k = slot at found field
  have success : ∀ fuel, slot ≠ .nilobject →
      t.set hashes fuel k value = .ok (t.write slot value) := by
    intro fuel _
    rw [LTable.set, luaH_set, luaH_setWith, result]
    cases slot with
    | nilobject => contradiction
    | _ => rfl
  cases found with
  | array inside =>
      have same := scattered.sameKeys_array (arrayindex k - 1).toNat value
      refine ⟨_, success fuel Slot.noConfusion, same, ?_⟩
      intro p
      rw [valueAt, valueAt, same.sizearray]
      split
      next =>
        change (t.array.set _ value).getD p .nil ≠ .nil → _
        rw [getD_set _ inside.lt]
        split
        next isPlace =>
          intro _
          rw [isPlace]
          exact field
        next => exact id
      next => exact id
  | @hash i outside isKey alive =>
      have used : t.key i ≠ .nil := isKey ▸ notNil_of_isKey valid
      have same := scattered.sameKeys_hash used alive value
      refine ⟨_, success fuel Slot.noConfusion, same, ?_⟩
      intro p
      rw [valueAt, valueAt, same.sizearray]
      split
      next => exact id
      next =>
        rw [val_write (lt_of_key used)]
        split
        next isPlace =>
          intro _
          rw [isPlace]
          exact field
        next => exact id
  | nilobject => exact absurd rfl field

theorem traversetable_valueAt (scattered : Scattered hashes t) (p : Nat) :
    t.traversetable.valueAt p = t.valueAt p := by
  have same := scattered.sameKeys_traversetable
  rw [valueAt, valueAt, same.sizearray, val_traversetable]
  rfl

theorem cleartable_valueAt (scattered : Scattered hashes t) (marks : Marks) (weakvalue : Bool)
    (p : Nat) (isValue : (t.cleartable marks weakvalue).valueAt p ≠ .nil) : t.valueAt p ≠ .nil := by
  have same := scattered.sameKeys_cleartable marks weakvalue
  rw [valueAt, same.sizearray] at isValue
  unfold valueAt
  split at isValue
  next inside =>
    rw [if_pos inside]
    cases weakvalue with
    | false => exact isValue
    | true =>
        intro isNil
        apply isValue
        change (t.array.map fun o =>
          if marks.iscleared o false then LuaValue.nil else o).getD p _ = _
        rw [List.getD_eq_getElem?_getD, List.getElem?_map]
        rw [List.getD_eq_getElem?_getD] at isNil
        cases element : t.array[p]? with
        | none => rfl
        | some o =>
            rw [element, Option.getD_some] at isNil
            rw [Option.map_some, Option.getD_some, isNil, ite_self]
  next outside =>
    rw [if_neg outside]
    intro isNil
    rw [cleartable_val, isNil, ite_self] at isValue
    exact isValue rfl

/-! ## A traversal -/

/-- A loop over `next`, with the table and the addresses as they are by now. -/
structure Traversal where
  gcvalue : LuaValue → Nat
  table : LTable
  control : LuaValue
  visited : List Entry
  finished : Bool

/-- The objects that stay where they are: the control variable holds one. -/
def Traversal.objects (s : Traversal) : List LuaValue :=
  [s.control].filter iscollectable ++ s.table.objects

/-- The loop goes on, or its body or the collector changes the table or the memory. -/
inductive Traversal.Step (hashes : Hashes) (fuel : Nat) : Traversal → Traversal → Prop
  | visit {s : Traversal} {entry : Entry} (going : s.finished = false)
      (next : s.table.luaH_next (hashes.located s.gcvalue) s.control = .ok (some entry)) :
      Step hashes fuel s { s with control := entry.1, visited := s.visited ++ [entry] }
  | finish {s : Traversal} (going : s.finished = false)
      (next : s.table.luaH_next (hashes.located s.gcvalue) s.control = .ok none) :
      Step hashes fuel s { s with finished := true }
  | assign {s : Traversal} {k v : LuaValue} {table : LTable}
      (field : s.table.get hashes k ≠ .nil)
      (assigned : s.table.set (hashes.located s.gcvalue) fuel k v = .ok table) :
      Step hashes fuel s { s with table := table }
  | traversetable {s : Traversal} : Step hashes fuel s { s with table := s.table.traversetable }
  | cleartable {s : Traversal} (marks : Marks) (weakvalue : Bool) :
      Step hashes fuel s { s with table := s.table.cleartable marks weakvalue }
  | memory {s : Traversal} {gcvalue : LuaValue → Nat}
      (stay : ∀ o ∈ s.objects, gcvalue o = s.gcvalue o) :
      Step hashes fuel s { s with gcvalue := gcvalue }

theorem Traversal.objects_table_subset {s : Traversal} : s.table.objects ⊆ s.objects :=
  List.subset_append_right _ _

theorem Traversal.objects_of_collectable {s : Traversal}
    (collectable : iscollectable s.control = true) : s.objects = s.control :: s.table.objects := by
  rw [Traversal.objects, List.filter_cons_of_pos collectable]
  rfl

/-- The loop has come by the first `p` positions, and has visited those of `ps`. -/
structure Progress (hashes : Hashes) (t : LTable) (s : Traversal) (ps : List Nat) (p : Nat) :
    Prop where
  same : SameKeys t s.table
  shrinks : ∀ q, s.table.valueAt q ≠ .nil → t.valueAt q ≠ .nil
  addressed : Addressed (hashes.located s.gcvalue) s.table
  separate : (hashes.located s.gcvalue).Separate s.objects
  control : (p = 0 ∧ s.control = .nil) ∨
    ∃ q, p = q + 1 ∧ t.valueAt q ≠ .nil ∧ s.control = s.table.keyAt q ∧
      (s.table.sizearray ≤ q →
        Retained (hashes.located s.gcvalue) s.table (q - s.table.sizearray))
  visited : s.visited.map Prod.fst = ps.map t.keyAt
  ascending : ps.Pairwise (· < ·)
  passed : ∀ q ∈ ps, q < p ∧ t.valueAt q ≠ .nil
  covered : ∀ q, q < p → s.table.valueAt q ≠ .nil → q ∈ ps
  finished : s.finished = true → ∀ q, q < t.positions → s.table.valueAt q ≠ .nil → q ∈ ps

theorem SameKeys.keyAt (same : SameKeys t t') (q : Nat) : t'.keyAt q = t.keyAt q := by
  rw [LTable.keyAt, LTable.keyAt, same.sizearray, same.key]

theorem SameKeys.positions (same : SameKeys t t') : t'.positions = t.positions := by
  rw [LTable.positions, LTable.positions, same.sizearray, same.sizenode]

namespace Progress

variable {s s' : Traversal} {ps : List Nat}

theorem sound (progress : Progress hashes t s ps p) (sound : Sound hashes t) :
    Sound (hashes.located s.gcvalue) s.table :=
  (progress.same.sound sound).located s.gcvalue

theorem luaH_next (progress : Progress hashes t s ps p) (sound : Sound hashes t) :
    s.table.luaH_next (hashes.located s.gcvalue) s.control =
      .ok ((nextPosition s.table.valueAt p t.positions).map fun q =>
        (t.keyAt q, s.table.valueAt q)) := by
  have result : ∀ i : Int, s.table.findindex (hashes.located s.gcvalue) s.control = .ok i →
      (i + 1).toNat = p → s.table.luaH_next (hashes.located s.gcvalue) s.control =
        .ok ((nextPosition s.table.valueAt p t.positions).map fun q =>
          (t.keyAt q, s.table.valueAt q)) := by
    intro i found isNext
    rw [luaH_next_eq found isNext, progress.same.positions]
    simp only [progress.same.keyAt]
  rcases progress.control with ⟨isFirst, isNil⟩ | ⟨q, isNext, -, isKey, retained⟩
  · apply result (-1)
    · rw [isNil]
      rfl
    · rw [isFirst]
      rfl
  · apply result q
    · rw [isKey]
      exact (progress.sound sound).findindex_keyAt retained
    · rw [isNext]
      rfl

/-- The table changes in place, and no position gets a value that had none. -/
theorem change (progress : Progress hashes t s ps p) (sound : Sound hashes t) {table : LTable}
    (same : SameKeys s.table table)
    (shrinks : ∀ q, table.valueAt q ≠ .nil → s.table.valueAt q ≠ .nil) :
    Progress hashes t { s with table := table } ps p where
  same := progress.same.trans same
  shrinks q isValue := progress.shrinks q (shrinks q isValue)
  addressed := same.addressed_of_separate (progress.sound sound).laidOut.scattered
    (progress.separate.mono Traversal.objects_table_subset) progress.addressed
  separate := progress.separate.mono (List.append_subset.mpr
    ⟨List.subset_append_left _ _, List.Subset.trans same.objects Traversal.objects_table_subset⟩)
  control := by
    apply progress.control.imp_right
    rintro ⟨q, isNext, isValue, isKey, retained⟩
    refine ⟨q, isNext, isValue, isKey.trans (same.keyAt q).symm, ?_⟩
    dsimp only
    rw [same.sizearray]
    intro beyond
    refine (retained beyond).sameKeys same progress.addressed fun collectable => ?_
    rw [LTable.keyAt, if_neg (not_lt.mpr beyond)] at isKey
    rw [← isKey] at collectable ⊢
    rw [← Traversal.objects_of_collectable collectable]
    exact progress.separate
  visited := progress.visited
  ascending := progress.ascending
  passed := progress.passed
  covered q below isValue := progress.covered q below (shrinks q isValue)
  finished done q below isValue := progress.finished done q below (shrinks q isValue)

/-- Objects come and go, and the control variable keeps its own. -/
theorem memory (progress : Progress hashes t s ps p) {gcvalue : LuaValue → Nat}
    (stay : ∀ o ∈ s.objects, gcvalue o = s.gcvalue o) :
    Progress hashes t { s with gcvalue := gcvalue } ps p where
  same := progress.same
  shrinks := progress.shrinks
  addressed := progress.addressed.located fun o membership =>
    stay o (Traversal.objects_table_subset membership)
  separate := progress.separate.located stay
  control := by
    apply progress.control.imp_right
    rintro ⟨q, isNext, isValue, isKey, retained⟩
    refine ⟨q, isNext, isValue, isKey, fun beyond => ?_⟩
    refine (retained beyond).located fun collectable => ?_
    apply stay
    rw [LTable.keyAt, if_neg (not_lt.mpr beyond)] at isKey
    rw [← isKey] at collectable ⊢
    rw [Traversal.objects_of_collectable collectable]
    exact List.mem_cons_self
  visited := progress.visited
  ascending := progress.ascending
  passed := progress.passed
  covered := progress.covered
  finished := progress.finished

/-- The loop comes to the next position that has a value. -/
theorem visit (progress : Progress hashes t s ps p) (sound : Sound hashes t)
    (going : s.finished = false)
    (position : nextPosition s.table.valueAt p t.positions = some q) :
    Progress hashes t { s with
      control := t.keyAt q
      visited := s.visited ++ [(t.keyAt q, s.table.valueAt q)] } (ps ++ [q]) (q + 1) where
  same := progress.same
  shrinks := progress.shrinks
  addressed := progress.addressed
  separate := by
    obtain ⟨isValue, -⟩ := nextPosition_eq_some.mp position
    refine progress.separate.mono (List.append_subset.mpr ⟨?_, @Traversal.objects_table_subset s⟩)
    intro o membership
    obtain ⟨isKey, collectable⟩ := List.mem_filter.mp membership
    obtain rfl := List.mem_singleton.mp isKey
    apply Traversal.objects_table_subset
    dsimp only at collectable ⊢
    rw [← progress.same.keyAt] at collectable ⊢
    exact (progress.sound sound).keyAt_mem_objects isValue collectable
  control := by
    obtain ⟨isValue, -⟩ := nextPosition_eq_some.mp position
    exact .inr ⟨q, rfl, progress.shrinks q isValue, (progress.same.keyAt q).symm,
      (progress.sound sound).retained_position progress.addressed isValue⟩
  visited := by
    rw [List.map_append, List.map_append, progress.visited]
    rfl
  ascending := by
    obtain ⟨-, above, -⟩ := nextPosition_eq_some.mp position
    rw [List.pairwise_append]
    refine ⟨progress.ascending, List.pairwise_singleton _ _, ?_⟩
    intro q' earlier q'' last
    rw [List.mem_singleton.mp last]
    exact (progress.passed q' earlier).1.trans_le above
  passed q' membership := by
    obtain ⟨isValue, above, -⟩ := nextPosition_eq_some.mp position
    rcases List.mem_append.mp membership with earlier | last
    · obtain ⟨lower, had⟩ := progress.passed q' earlier
      exact ⟨by omega, had⟩
    · rw [List.mem_singleton.mp last]
      exact ⟨Nat.lt_succ_self q, progress.shrinks q isValue⟩
  covered q' upper isValue' := by
    obtain ⟨-, -, -, between⟩ := nextPosition_eq_some.mp position
    rcases Nat.lt_or_ge q' p with earlier | later
    · exact List.mem_append_left _ (progress.covered q' earlier isValue')
    · rcases Nat.eq_or_lt_of_le (Nat.le_of_lt_succ upper) with rfl | skipped
      · exact List.mem_append_right _ List.mem_cons_self
      · exact absurd (between q' later skipped) isValue'
  finished done := absurd (going.symm.trans done) Bool.false_ne_true

theorem finish (progress : Progress hashes t s ps p)
    (none : nextPosition s.table.valueAt p t.positions = none) :
    Progress hashes t { s with finished := true } ps p :=
  { progress with
    finished := by
      intro _ q below isValue
      rcases Nat.lt_or_ge q p with earlier | later
      · exact progress.covered q earlier isValue
      · exact absurd (nextPosition_eq_none.mp none q later below) isValue }

theorem step (progress : Progress hashes t s ps p) (sound : Sound hashes t)
    (step : Traversal.Step hashes fuel s s') : ∃ ps p, Progress hashes t s' ps p := by
  have result := progress.luaH_next sound
  have sound' := progress.sound sound
  have scattered := sound'.laidOut.scattered
  cases step with
  | @visit entry going next =>
      rw [next] at result
      obtain ⟨q, position, rfl⟩ := Option.map_eq_some_iff.mp (Except.ok.inj result).symm
      exact ⟨ps ++ [q], q + 1, progress.visit sound going position⟩
  | finish going next =>
      rw [next] at result
      have none := Option.map_eq_none_iff.mp (Except.ok.inj result).symm
      exact ⟨ps, p, progress.finish none⟩
  | @assign k v table field assigned =>
      obtain ⟨table', success, same, shrinks⟩ := sound'.set_existing field fuel v
      rw [assigned] at success
      obtain rfl := Except.ok.inj success
      exact ⟨ps, p, progress.change sound same shrinks⟩
  | traversetable =>
      refine ⟨ps, p, progress.change sound scattered.sameKeys_traversetable fun q => ?_⟩
      rw [traversetable_valueAt scattered]
      exact id
  | cleartable marks weakvalue =>
      exact ⟨ps, p, progress.change sound (scattered.sameKeys_cleartable marks weakvalue)
        (cleartable_valueAt scattered marks weakvalue)⟩
  | memory stay => exact ⟨ps, p, progress.memory stay⟩

end Progress

theorem Reached.progress (reached : Reached fuel hashes t) {assignments : Nat} {s : Traversal}
    (run : Relation.ReflTransGen (Traversal.Step hashes assignments)
      ⟨hashes.gcvalue, t, .nil, [], false⟩ s) : ∃ ps p, Progress hashes t s ps p := by
  induction run with
  | refl =>
      refine ⟨[], 0, SameKeys.refl reached.sound.laidOut.scattered, fun _ => id, reached.addressed,
        reached.separate, .inl ⟨rfl, rfl⟩, rfl, List.Pairwise.nil,
        fun q membership => absurd membership List.not_mem_nil,
        fun q below => absurd below (Nat.not_lt_zero q), ?_⟩
      intro done
      exact absurd done Bool.false_ne_true
  | tail _ step inductionHypothesis =>
      obtain ⟨ps, p, progress⟩ := inductionHypothesis
      exact progress.step reached.sound step

/-- Whatever happens to the fields and in the memory during a traversal, `next` does not
fail, gives out a field the table has and that was not visited yet, and at the end every
field that is left was visited. -/
theorem traversal (reached : Reached fuel hashes t) {assignments : Nat} {s : Traversal}
    (run : Relation.ReflTransGen (Traversal.Step hashes assignments)
      ⟨hashes.gcvalue, t, .nil, [], false⟩ s) :
    (∃ result, s.table.luaH_next (hashes.located s.gcvalue) s.control = .ok result ∧
      ∀ entry ∈ result, entry.2 ≠ .nil ∧ s.table.get hashes entry.1 = entry.2 ∧
        entry.1 ∉ s.visited.map Prod.fst) ∧
    (s.visited.map Prod.fst).Nodup ∧
    (∀ entry ∈ s.visited, t.get hashes entry.1 ≠ .nil) ∧
    (s.finished = true → ∀ k, s.table.get hashes k ≠ .nil → k ∈ s.visited.map Prod.fst) := by
  obtain ⟨ps, p, progress⟩ := reached.progress run
  have sound := reached.sound
  have sound' : Sound hashes s.table := progress.same.sound sound
  have injective : ∀ {p q}, t.valueAt p ≠ .nil → t.valueAt q ≠ .nil → t.keyAt p = t.keyAt q →
      p = q := sound.keyAt_injective reached.addressed
  refine ⟨⟨_, progress.luaH_next sound, ?_⟩, ?_, ?_, ?_⟩
  · intro entry isResult
    obtain ⟨q, position, rfl⟩ := Option.map_eq_some_iff.mp isResult
    obtain ⟨isValue, above, -, -⟩ := nextPosition_eq_some.mp position
    refine ⟨isValue, ?_, ?_⟩
    · rw [← progress.same.keyAt]
      exact sound'.get_keyAt isValue
    · rw [progress.visited]
      intro membership
      obtain ⟨q', earlier, same⟩ := List.mem_map.mp membership
      obtain ⟨below, had⟩ := progress.passed q' earlier
      have equal := injective had (progress.shrinks q isValue) same
      omega
  · rw [progress.visited]
    refine List.Nodup.map_on ?_ (progress.ascending.imp fun below => Nat.ne_of_lt below)
    intro q membership q' membership' same
    exact injective (progress.passed q membership).2 (progress.passed q' membership').2 same
  · intro entry membership
    have isVisited : entry.1 ∈ s.visited.map Prod.fst := List.mem_map_of_mem membership
    rw [progress.visited] at isVisited
    obtain ⟨q, earlier, isKey⟩ := List.mem_map.mp isVisited
    have had := (progress.passed q earlier).2
    rwa [← isKey, sound.get_keyAt had]
  · intro done k field
    obtain ⟨q, below, isKey, isValue⟩ := sound'.exists_position field
    have isVisited := progress.finished done q (progress.same.positions ▸ below) (isValue ▸ field)
    rw [progress.visited, ← isKey, progress.same.keyAt]
    exact List.mem_map_of_mem isVisited

/-- The crowded table once its first object was taken out. -/
def crowdedLeft : LTable :=
  ⟨[.boolean true, .nil],
    [⟨.nil, .table 1, 1, false, some 2⟩, dummynode_,
      ⟨.boolean false, .table 4, 0, false, some 3⟩, ⟨.nil, .table 2, 0, true, none⟩],
    false, 2⟩

def crowdedVisited : Traversal where
  gcvalue := Function.update shortHashes.gcvalue (.table 2) 3
  table := crowdedLeft.traversetable
  control := .table 4
  visited := [(.number (cast_num 1), .boolean true), (.table 1, .boolean true),
    (.table 4, .boolean false)]
  finished := true

/-- The first object is taken out in the body of the loop, its key dies, and another object
moves; the loop goes on from the dead key and ends. -/
theorem traversal_crowded :
    (∃ result, crowdedVisited.table.luaH_next (shortHashes.located crowdedVisited.gcvalue)
        crowdedVisited.control = .ok result ∧
      ∀ entry ∈ result, entry.2 ≠ .nil ∧
        crowdedVisited.table.get shortHashes entry.1 = entry.2 ∧
        entry.1 ∉ crowdedVisited.visited.map Prod.fst) ∧
    (crowdedVisited.visited.map Prod.fst).Nodup ∧
    (∀ entry ∈ crowdedVisited.visited, crowded.get shortHashes entry.1 ≠ .nil) ∧
    (crowdedVisited.finished = true → ∀ k, crowdedVisited.table.get shortHashes k ≠ .nil →
      k ∈ crowdedVisited.visited.map Prod.fst) := by
  let s₀ : Traversal := ⟨shortHashes.gcvalue, crowded, .nil, [], false⟩
  let s₁ : Traversal := { s₀ with
    control := .number (cast_num 1)
    visited := [(.number (cast_num 1), .boolean true)] }
  let s₂ : Traversal := { s₁ with
    control := .table 1
    visited := [(.number (cast_num 1), .boolean true), (.table 1, .boolean true)] }
  let s₃ : Traversal := { s₂ with table := crowdedLeft }
  let s₄ : Traversal := { s₃ with table := crowdedLeft.traversetable }
  let s₅ : Traversal := { s₄ with gcvalue := crowdedVisited.gcvalue }
  let s₆ : Traversal := { crowdedVisited with finished := false }
  have first : Traversal.Step shortHashes 0 s₀ s₁ :=
    @Traversal.Step.visit _ _ s₀ (.number (cast_num 1), .boolean true) rfl (by decide +kernel)
  have second : Traversal.Step shortHashes 0 s₁ s₂ :=
    @Traversal.Step.visit _ _ s₁ (.table 1, .boolean true) rfl (by decide +kernel)
  have clear : Traversal.Step shortHashes 0 s₂ s₃ :=
    @Traversal.Step.assign _ _ s₂ (.table 1) .nil _ (by decide +kernel) (by decide +kernel)
  have dies : Traversal.Step shortHashes 0 s₃ s₄ := .traversetable
  have moves : Traversal.Step shortHashes 0 s₄ s₅ := .memory (by decide +kernel)
  have third : Traversal.Step shortHashes 0 s₅ s₆ :=
    @Traversal.Step.visit _ _ s₅ (.table 4, .boolean false) rfl (by decide +kernel)
  have ends : Traversal.Step shortHashes 0 s₆ crowdedVisited := .finish rfl (by decide +kernel)
  exact traversal Reached.crowded
    (.tail (.tail (.tail (.tail (.tail (.tail (.single first) second) clear) dies) moves) third)
      ends)

/-! ## A traversal that leaves the table alone -/

/-- A loop over `next`, with the passes that are left to it. -/
def visitAll (hashes : Hashes) (t : LTable) : Nat → LuaValue → Except TableError (List Entry)
  | 0, _ => .error .unfinished
  | fuel + 1, key => do
      match ← t.luaH_next hashes key with
      | none => .ok []
      | some entry =>
          let later ← visitAll hashes t fuel entry.1
          .ok (entry :: later)

/-- The entries from position `p` on. -/
def entriesFrom (t : LTable) (p : Nat) : List Entry :=
  ((List.range' p (t.positions - p)).filter fun p => t.valueAt p ≠ .nil).map fun p =>
    (t.keyAt p, t.valueAt p)

theorem entriesFrom_zero (t : LTable) : t.entriesFrom 0 = t.pairs := by
  have elements : t.array.zipIdx = (List.range t.sizearray).map fun i =>
      (t.array.getD i .nil, i) := by
    apply List.ext_getElem
    · rw [List.length_zipIdx, List.length_map, List.length_range]
      rfl
    · intro i within _
      rw [List.length_zipIdx] at within
      rw [List.getElem_zipIdx, List.getElem_map, List.getElem_range, Nat.zero_add,
        List.getD_eq_getElem?_getD, List.getElem?_eq_getElem within]
      rfl
  have nodes : t.node = (List.range t.sizenode).map t.gnode := by
    apply List.ext_getElem
    · rw [List.length_map, List.length_range]
      rfl
    · intro i within _
      rw [List.getElem_map, List.getElem_range, gnode, List.getD_eq_getElem?_getD,
        List.getElem?_eq_getElem within]
      rfl
  have array : t.arrayEntries = ((List.range t.sizearray).filter fun p => t.valueAt p ≠ .nil).map
      fun p => (t.keyAt p, t.valueAt p) := by
    have values : ∀ p ∈ List.range t.sizearray, t.array.getD p .nil = t.valueAt p :=
      fun p membership => (if_pos (List.mem_range.mp membership)).symm
    have kept : (List.range t.sizearray).filter ((fun element : LuaValue × Nat =>
        decide (element.1 ≠ .nil)) ∘ fun i => (t.array.getD i .nil, i)) =
          (List.range t.sizearray).filter fun p => t.valueAt p ≠ .nil := by
      apply List.filter_congr
      intro p membership
      rw [← values p membership]
      rfl
    rw [arrayEntries, elements, List.filter_map, List.map_map, kept]
    apply List.map_congr_left
    intro p membership
    have inside := List.mem_of_mem_filter membership
    rw [Function.comp_apply, arrayEntry, keyAt, if_pos (List.mem_range.mp inside)]
    dsimp only
    rw [values p inside]
  have hash : liveEntries t.node = (((List.range t.sizenode).map (t.sizearray + ·)).filter
      fun p => t.valueAt p ≠ .nil).map fun p => (t.keyAt p, t.valueAt p) := by
    rw [liveEntries, nodes, List.filter_map, List.filter_map, List.map_map, List.map_map]
    have outside : ∀ i, ¬ t.sizearray + i < t.sizearray := fun i => by omega
    congr 1
    · funext i
      rw [Function.comp_apply, Function.comp_apply, nodeEntry, keyAt, valueAt,
        if_neg (outside i), if_neg (outside i), Nat.add_sub_cancel_left]
    · apply List.filter_congr
      intro i _
      rw [Function.comp_apply, Function.comp_apply, valueAt, if_neg (outside i),
        Nat.add_sub_cancel_left]
  rw [pairs, array, hash, ← List.map_append, ← List.filter_append, ← List.range_add, entriesFrom,
    Nat.sub_zero, List.range_eq_range']
  rfl

theorem entriesFrom_of_none (vacant : nextPosition t.valueAt p t.positions = none) :
    t.entriesFrom p = [] := by
  rw [nextPosition_eq_none] at vacant
  rw [entriesFrom, List.map_eq_nil_iff, List.filter_eq_nil_iff]
  intro q membership
  rw [List.mem_range'_1] at membership
  simpa using vacant q membership.1 (by omega)

theorem entriesFrom_of_some (position : nextPosition t.valueAt p t.positions = some q) :
    t.entriesFrom p = (t.keyAt q, t.valueAt q) :: t.entriesFrom (q + 1) := by
  obtain ⟨isValue, above, below, between⟩ := nextPosition_eq_some.mp position
  have split : List.range' p (t.positions - p) =
      List.range' p (q - p) ++ q :: List.range' (q + 1) (t.positions - (q + 1)) := by
    have first : t.positions - p = (q - p) + ((t.positions - (q + 1)) + 1) := by omega
    rw [first, ← List.range'_append_1, List.range'_succ, Nat.add_sub_cancel' above]
  have skipped : (List.range' p (q - p)).filter (fun p => t.valueAt p ≠ .nil) = [] := by
    rw [List.filter_eq_nil_iff]
    intro q' membership
    rw [List.mem_range'_1] at membership
    simpa using between q' membership.1 (by omega)
  rw [entriesFrom, split, List.filter_append, skipped, List.nil_append,
    List.filter_cons_of_pos (by simpa using isValue), List.map_cons, entriesFrom]

theorem Sound.visitAll_from (sound : Sound hashes t) (addressed : Addressed hashes t) {i : Int}
    (found : t.findindex hashes key = .ok i) (isNext : (i + 1).toNat = p)
    (enough : (t.entriesFrom p).length < fuel) :
    t.visitAll hashes fuel key = .ok (t.entriesFrom p) := by
  induction fuel generalizing key i p with
  | zero => exact absurd enough (Nat.not_lt_zero _)
  | succ fuel inductionHypothesis =>
      rw [visitAll, luaH_next_eq found isNext]
      cases position : nextPosition t.valueAt p t.positions with
      | none =>
          rw [entriesFrom_of_none position]
          rfl
      | some q =>
          rw [entriesFrom_of_some position] at enough ⊢
          rw [List.length_cons] at enough
          obtain ⟨isValue, -⟩ := nextPosition_eq_some.mp position
          have foundNext := sound.findindex_keyAt (sound.retained_position addressed isValue)
          have later := inductionHypothesis foundNext (by omega) (Nat.lt_of_succ_lt_succ enough)
          change (t.visitAll hashes fuel (t.keyAt q) >>= fun later =>
            Except.ok ((t.keyAt q, t.valueAt q) :: later)) = _
          rw [later]
          rfl

/-- A loop that leaves the table alone visits the entries of the table it stands for, in
their order, and ends. -/
theorem visitAll_toTable (reached : Reached fuel hashes t) :
    t.visitAll hashes (reached.sound.toTable.entries.length + 1) .nil =
      .ok reached.sound.toTable.entries := by
  have first : t.findindex hashes .nil = .ok (-1) := rfl
  have same : reached.sound.toTable.entries = t.entriesFrom 0 := t.entriesFrom_zero.symm
  rw [same]
  exact reached.sound.visitAll_from reached.addressed first rfl (Nat.lt_succ_self _)

theorem visitAll_toTable_crowded :
    crowded.visitAll shortHashes (Reached.crowded.sound.toTable.entries.length + 1) .nil =
      .ok Reached.crowded.sound.toTable.entries :=
  visitAll_toTable Reached.crowded

end LTable

end LuaEngine.Lua
