import LuaEngine.Lua.HashTableResize

/-!
# A table over whole runs

Whatever is done to a table from the time it is made, it maps every key to the value that
was assigned last, except for what the collector took out of a weak table.  An assignment
fails only for a key that no table takes, or when there are too many keys.
-/

namespace LuaEngine.Lua

open LuaEngine.Codec LuaEngine.System

namespace LTable

variable {hashes : Hashes} {t t' : LTable} {key value k v : LuaValue} {n nh : Nat}

structure Sound (hashes : Hashes) (t : LTable) : Prop where
  laidOut : LaidOut hashes t
  sizearray : t.sizearray ≤ MAXASIZE
  sizenode : t.sizenode ≤ 2 ^ MAXBITS

theorem Scattered.get_eq_of_maps (scattered : Scattered hashes t)
    (maps : ∀ v, v ≠ .nil → (t.Maps k v ↔ v = value)) : t.get hashes k = value := by
  by_cases isNil : value = .nil
  · by_contra different
    have holds : t.get hashes k ≠ .nil := fun same => different (same.trans isNil.symm)
    exact different ((maps _ holds).mp ((scattered.get_eq_iff holds).mp rfl))
  · exact (scattered.get_eq_iff isNil).mpr ((maps value isNil).mpr rfl)

theorem Scattered.get_eq (scattered : Scattered hashes t) (scattered' : Scattered hashes t')
    (maps : ∀ v, v ≠ .nil → (t'.Maps k v ↔ t.Maps k v)) :
    t'.get hashes k = t.get hashes k := by
  apply scattered'.get_eq_of_maps
  intro v isValue
  rw [maps v isValue, ← scattered.get_eq_iff isValue, eq_comm]

/-! ## Assignment -/

theorem Stored.sound (stored : Stored hashes t t' key value) (sound : Sound hashes t) :
    Sound hashes t' where
  laidOut := stored.laidOut
  sizearray := stored.sizearray.le.trans sound.sizearray
  sizenode := stored.sizenode.le.trans sound.sizenode

theorem Stored.get (stored : Stored hashes t t' key value) (scattered : Scattered hashes t)
    (k : LuaValue) :
    t'.get hashes k = Function.update (t.get hashes) key value k := by
  by_cases same : k = key
  · subst same
    rw [Function.update_self]
    apply stored.laidOut.scattered.get_eq_of_maps
    intro v isValue
    rw [stored.maps k v isValue, if_pos rfl]
  · rw [Function.update_of_ne same]
    apply scattered.get_eq stored.laidOut.scattered
    intro v isValue
    rw [stored.maps k v isValue, if_neg same]

theorem Resized.sound (resized : Resized hashes t t' n nh) (size : n ≤ MAXASIZE)
    (nodes : nh = 0 ∨ nh ≤ 2 ^ MAXBITS) : Sound hashes t' where
  laidOut := resized.laidOut
  sizearray := resized.sizearray.le.trans size
  sizenode := by
    rw [resized.sizenode]
    split
    next => exact Nat.one_le_two_pow
    next nonzero =>
      apply Nat.pow_le_pow_right Nat.two_pos
      exact (ceillog2_le_iff (Nat.pos_of_ne_zero nonzero)).mpr (nodes.resolve_left nonzero)

/-- A table that grows for a new key holds what it held, its array part has the largest size
of which more than half is in use, and the key has a place. -/
theorem Sound.rehash_best (sound : Sound hashes t) (valid : key.isKey = true)
    (nowhere : t.luaH_get hashes key = .nilobject) (grow : Grow) :
    ∃ n, ArraySize (t.keysWith key) n ∧
      ((2 ^ MAXBITS < ((t.keysWith key).countP fun key => ¬ InRange n key) ∧
          t.rehash hashes grow key = .error (.runerror "table overflow")) ∨
        ∃ t', t.rehash hashes grow key = .ok t' ∧ Sound hashes t' ∧
          t'.get hashes = t.get hashes ∧ t'.sizearray = n ∧ (t'.InArray key ∨ t'.Roomy)) := by
  have scattered := sound.laidOut.scattered
  have absent : Absent hashes t key := by
    have found := scattered.found valid
    rw [nowhere] at found
    cases found with
    | nilobject outside absent => exact ⟨scattered, valid, outside, absent⟩
  obtain ⟨n, size, cases⟩ := absent.rehash_cases sound.sizearray grow
  refine ⟨n, size, ?_⟩
  rcases cases with overflow | ⟨few, t', success, resized, room⟩
  · exact .inl overflow
  · refine .inr ⟨t', success, resized.sound size.bounded (.inr few), funext fun k => ?_,
      resized.sizearray, room⟩
    exact scattered.get_eq resized.laidOut.scattered fun v isValue => resized.maps k v isValue

/-- Why an assignment fails. -/
inductive Refused (contents : LuaValue → LuaValue) : LuaValue → TableError → Prop
  | nil : Refused contents .nil (.runerror "table index is nil")
  | nan : Refused contents (.number .nan) (.runerror "table index is NaN")
  | overflow {key : LuaValue} (keys : Finset LuaValue) (many : 2 ^ MAXBITS ≤ keys.card)
      (used : ∀ k ∈ keys, contents k ≠ .nil) :
      Refused contents key (.runerror "table overflow")

theorem Sound.get_ne_nil (sound : Sound hashes t) {entry : Entry} (membership : entry ∈ t.pairs) :
    t.get hashes entry.1 ≠ .nil := by
  have scattered := sound.laidOut.scattered
  obtain ⟨k, v⟩ := entry
  obtain ⟨isValue, maps⟩ := (scattered.mem_pairs sound.sizearray).mp membership
  rwa [(scattered.get_eq_iff isValue).mpr maps]

theorem Sound.mem_pairs_get (sound : Sound hashes t) (isValue : t.get hashes k ≠ .nil) :
    (k, t.get hashes k) ∈ t.pairs :=
  (sound.laidOut.scattered.mem_pairs sound.sizearray).mpr
    ⟨isValue, (sound.laidOut.scattered.get_eq_iff isValue).mp rfl⟩

/-- The table has taken the value for the key. -/
structure Assigned (hashes : Hashes) (t t' : LTable) (key value : LuaValue) : Prop where
  sound : Sound hashes t'
  get : t'.get hashes = Function.update (t.get hashes) key value
  addressed : Addressed hashes t → Addressed hashes t'

/-- One rehash makes room, so a table never grows while it grows. -/
theorem Sound.set_valid (sound : Sound hashes t) (valid : key.isKey = true) (fuel : Nat)
    (value : LuaValue) :
    (∃ t', t.set hashes (fuel + 1) key value = .ok t' ∧ Assigned hashes t t' key value) ∨
    ∃ e, t.set hashes (fuel + 1) key value = .error e ∧ Refused (t.get hashes) key e := by
  have scattered := sound.laidOut.scattered
  rcases sound.laidOut.luaH_setWith_cases valid (growFor hashes (fuel + 1)) with
    ⟨t₁, slot, success, stored⟩ | ⟨absent, -, grows⟩
  · left
    refine ⟨t₁.write slot value, ?_, (stored value).sound sound,
      funext ((stored value).get scattered), (stored value).addressed⟩
    rw [set, luaH_set, success]
    rfl
  · have absent' : Absent hashes { t with lastfree := 0 } key := absent.lastfree 0
    obtain ⟨n, size, cases⟩ := absent'.rehash_cases sound.sizearray (growFor hashes fuel)
    rw [set, luaH_set, grows, growFor]
    rcases cases with ⟨many, failure⟩ | ⟨few, t₁, success, resized, room⟩
    · right
      refine ⟨.runerror "table overflow", by rw [failure]; rfl, ?_⟩
      have count := List.countP_le_length.trans' many
      rw [keysWith, List.length_cons] at count
      apply Refused.overflow (t.pairs.map Prod.fst).toFinset
      · rw [List.toFinset_card_of_nodup (scattered.nodup_keys sound.sizearray)]
        exact Nat.le_of_lt_succ count
      · intro k membership
        obtain ⟨entry, inside, rfl⟩ := List.mem_map.mp (List.mem_toFinset.mp membership)
        exact sound.get_ne_nil inside
    · left
      have sound₁ : Sound hashes t₁ := resized.sound size.bounded (.inr few)
      obtain ⟨t₂, slot, success', stored⟩ :=
        resized.laidOut.luaH_setWith_of_room valid room (growFor hashes fuel)
      refine ⟨t₂.write slot value, ?_, (stored value).sound sound₁, funext fun k => ?_,
        fun _ => (stored value).addressed resized.addressed⟩
      · rw [success]
        change (t₁.luaH_setWith hashes (growFor hashes fuel) key >>= fun placed =>
          Except.ok (placed.1.write placed.2 value)) = _
        rw [success']
        rfl
      · rw [(stored value).get resized.laidOut.scattered]
        congr 1
        funext k
        exact scattered.get_eq resized.laidOut.scattered fun v isValue => resized.maps k v isValue

theorem Sound.set (sound : Sound hashes t) (fuel : Nat) (key value : LuaValue) :
    (∃ t', t.set hashes (fuel + 1) key value = .ok t' ∧ Assigned hashes t t' key value) ∨
    ∃ e, t.set hashes (fuel + 1) key value = .error e ∧ Refused (t.get hashes) key e := by
  by_cases valid : key.isKey = true
  · exact sound.set_valid valid fuel value
  · right
    cases key with
    | nil => exact ⟨_, rfl, .nil⟩
    | number n =>
        cases n with
        | nan =>
            refine ⟨.runerror "table index is NaN", ?_, .nan⟩
            rw [LTable.set, luaH_set, luaH_setWith, luaH_get_nan]
            rfl
        | _ => exact absurd rfl valid
    | _ => exact absurd rfl valid

/-! ## The table it stands for -/

namespace Sound

/-- Its entries are in the order `next` visits them. -/
def toTable (sound : Sound hashes t) : Table where
  entries := t.pairs
  metatable := none
  distinct := sound.laidOut.scattered.nodup_keys sound.sizearray
  present entry membership := by
    have scattered := sound.laidOut.scattered
    exact ⟨scattered.valid_pairs sound.sizearray membership,
      ((scattered.mem_pairs sound.sizearray).mp membership).1⟩

theorem rawget_toTable (sound : Sound hashes t) (k : LuaValue) :
    sound.toTable.rawget k = t.get hashes k := by
  by_cases isNil : t.get hashes k = .nil
  · have absent : sound.toTable.entries.find? (fun entry => entry.1 = k) = none := by
      rw [List.find?_eq_none]
      intro entry membership same
      apply sound.get_ne_nil membership
      rwa [of_decide_eq_true same]
    rw [Table.rawget, absent, isNil]
    rfl
  · exact sound.toTable.rawget_of_mem (sound.mem_pairs_get isNil)

end Sound

/-! ## A larger array part -/

/-- `OP_SETLIST` makes room for the elements of a constructor. -/
theorem Sound.luaH_resizearray (sound : Sound hashes t) (more : t.sizearray ≤ n)
    (size : n ≤ MAXASIZE) (fuel : Nat) :
    ∃ t', t.luaH_resizearray hashes fuel n = .ok t' ∧ Sound hashes t' ∧
      t'.get hashes = t.get hashes ∧ Addressed hashes t' := by
  have scattered := sound.laidOut.scattered
  have stay : t.arrayKeys.countP (fun key => ¬ InRange n key) = 0 := by
    rw [List.countP_eq_zero]
    intro key membership outside
    obtain ⟨positive, upper⟩ := inRange_arrayKeys sound.sizearray membership
    exact of_decide_eq_true outside ⟨positive, by omega⟩
  have move : t.liveKeys.countP (fun key => ¬ InRange n key) ≤
      if t.isDummy then 0 else t.sizenode := by
    split
    next isDummy =>
      have none : liveEntries t.node = [] := by
        rw [List.eq_nil_iff_forall_not_mem]
        rintro ⟨k, v⟩ membership
        obtain ⟨isValue, i, -, holds⟩ := mem_liveEntries.mp membership
        exact scattered.key_of_val (holds ▸ isValue) ((sound.laidOut.packed.dummy isDummy).2 i)
      rw [liveKeys, none]
      rfl
    next =>
      refine List.countP_le_length.trans ?_
      rw [List.length_map, liveEntries, List.length_map]
      exact List.length_filter_le _ _
  have room : outsiders n t.pairs ≤ if t.isDummy then 0 else t.sizenode := by
    rw [outsiders, pairs, List.map_append, List.countP_append, stay, Nat.zero_add]
    exact move
  generalize isCount : (if t.isDummy then 0 else t.sizenode) = nh at room
  have few : nh = 0 ∨ nh ≤ 2 ^ MAXBITS := by
    rw [← isCount]
    split
    next => exact .inl rfl
    next => exact .inr sound.sizenode
  have small : nh = 0 ∨ ceillog2 nh ≤ MAXBITS := by
    rcases Nat.eq_zero_or_pos nh with isZero | positive
    · exact .inl isZero
    · exact .inr ((ceillog2_le_iff positive).mpr (few.resolve_left positive.ne'))
  obtain ⟨t', success, resized⟩ := scattered.resize sound.sizearray small room (growFor hashes fuel)
  refine ⟨t', ?_, resized.sound size few, funext fun k => ?_, resized.addressed⟩
  · rw [LTable.luaH_resizearray, isCount]
    exact success
  · exact scattered.get_eq resized.laidOut.scattered fun v isValue => resized.maps k v isValue

/-! ## Collection -/

theorem gnode_map {change : Node → Node} (dummy : change dummynode_ = dummynode_)
    (same : t'.node = t.node.map change) (i : Nat) : t'.gnode i = change (t.gnode i) := by
  rw [gnode, gnode, same, List.getD_eq_getElem?_getD, List.getD_eq_getElem?_getD,
    List.getElem?_map]
  cases t.node[i]? with
  | none => exact dummy.symm
  | some n => rfl

theorem removeentry_same (n : Node) :
    (removeentry n).i_key = n.i_key ∧ (removeentry n).i_val = n.i_val ∧
      (removeentry n).gc = n.gc ∧ (removeentry n).next = n.next ∧
      (n.dead = true → (removeentry n).dead = true) ∧
      ((removeentry n).dead = true → n.dead = true ∨ iscollectable n.i_key = true) := by
  unfold removeentry
  split
  next collectable => exact ⟨rfl, rfl, rfl, rfl, fun _ => rfl, fun _ => .inr collectable⟩
  next => exact ⟨rfl, rfl, rfl, rfl, id, .inl⟩

theorem Scattered.sameKeys_traversetable (scattered : Scattered hashes t) :
    SameKeys t t.traversetable := by
  have nodes := @gnode_map t t.traversetable
    (fun n => if n.i_val = .nil then removeentry n else n) rfl rfl
  have change : ∀ i, t.traversetable.key i = t.key i ∧ t.traversetable.val i = t.val i ∧
      t.traversetable.gc i = t.gc i ∧ t.traversetable.gnext i = t.gnext i ∧
      (t.isDead i = true → t.traversetable.isDead i = true) ∧
      (t.traversetable.isDead i = true → t.val i = .nil ∧
        (t.isDead i = true ∨ iscollectable (t.key i) = true)) := by
    intro i
    simp only [LTable.key, val, gc, gnext, isDead, nodes]
    obtain ⟨sameKey, sameVal, sameGc, sameNext, dead, died⟩ := removeentry_same (t.gnode i)
    split
    next unset =>
      exact ⟨sameKey, sameVal, sameGc, sameNext, dead, fun isDead => ⟨unset, died isDead⟩⟩
    next =>
      exact ⟨rfl, rfl, rfl, rfl, id, fun isDead => ⟨scattered.dead i isDead, .inl isDead⟩⟩
  refine ⟨rfl, List.length_map _, rfl, rfl, fun i => (change i).1, fun i => (change i).2.2.1,
    funext fun i => (change i).2.2.2.1, fun i => (change i).2.2.2.2.1, ?_, ?_,
    fun i isDead => ((change i).2.2.2.2.2 isDead).2⟩
  · intro i isDead
    exact (change i).2.1.trans ((change i).2.2.2.2.2 isDead).1
  · intro i isNil
    exact (change i).2.1.trans (scattered.free i isNil).2

theorem val_traversetable (t : LTable) (i : Nat) : t.traversetable.val i = t.val i := by
  rw [val, @gnode_map t t.traversetable
    (fun n => if n.i_val = .nil then removeentry n else n) rfl rfl]
  split
  next => exact (removeentry_same _).2.1
  next => rfl

theorem traversetable_maps (scattered : Scattered hashes t) :
    t.traversetable.Maps k v ↔ t.Maps k v := by
  have same := scattered.sameKeys_traversetable
  have inside := inArray_of_sizearray same.sizearray k
  by_cases isInside : t.InArray k
  · rw [maps_of_inArray (inside.mpr isInside), maps_of_inArray isInside]
    rfl
  · rw [maps_of_not_inArray (mt inside.mp isInside), maps_of_not_inArray isInside, Live, Live]
    simp only [same.key, val_traversetable]

/-- What is taken out of a table with weak values. -/
def Cleared (marks : Marks) (k v : LuaValue) : Prop :=
  marks.iscleared k true = true ∨ marks.iscleared v false = true

instance (marks : Marks) (k v : LuaValue) : Decidable (Cleared marks k v) :=
  inferInstanceAs (Decidable (_ ∨ _))

theorem cleartable_nodes (marks : Marks) (weakvalue : Bool) (t : LTable) (i : Nat) :
    (t.cleartable marks weakvalue).gnode i =
      if t.val i ≠ .nil ∧ Cleared marks (t.key i) (t.val i) then
        removeentry { t.gnode i with i_val := .nil }
      else
        t.gnode i :=
  @gnode_map t (t.cleartable marks weakvalue) (fun n =>
    if n.i_val ≠ .nil ∧ (marks.iscleared n.i_key true ∨ marks.iscleared n.i_val false) then
      removeentry { n with i_val := .nil }
    else
      n) rfl rfl i

theorem cleartable_val (marks : Marks) (weakvalue : Bool) (t : LTable) (i : Nat) :
    (t.cleartable marks weakvalue).val i =
      if Cleared marks (t.key i) (t.val i) then .nil else t.val i := by
  rw [val, cleartable_nodes]
  by_cases unset : t.val i = .nil
  · rw [if_neg (not_and_of_not_left _ (not_not_intro unset)), unset, ite_self]
    exact unset
  · by_cases cleared : Cleared marks (t.key i) (t.val i)
    · rw [if_pos ⟨unset, cleared⟩, if_pos cleared, (removeentry_same _).2.1]
    · rw [if_neg (not_and_of_not_right _ cleared), if_neg cleared]

theorem Scattered.sameKeys_cleartable (scattered : Scattered hashes t) (marks : Marks)
    (weakvalue : Bool) :
    SameKeys t (t.cleartable marks weakvalue) := by
  have change : ∀ i, (t.cleartable marks weakvalue).key i = t.key i ∧
      (t.cleartable marks weakvalue).gc i = t.gc i ∧
      (t.cleartable marks weakvalue).gnext i = t.gnext i ∧
      (t.isDead i = true → (t.cleartable marks weakvalue).isDead i = true) ∧
      ((t.cleartable marks weakvalue).isDead i = true →
        t.isDead i = true ∨
          ((t.cleartable marks weakvalue).val i = .nil ∧ iscollectable (t.key i) = true)) := by
    intro i
    simp only [LTable.key, val, gc, gnext, isDead, cleartable_nodes]
    split
    next =>
      obtain ⟨sameKey, sameVal, sameGc, sameNext, dead, died⟩ :=
        removeentry_same { t.gnode i with i_val := .nil }
      exact ⟨sameKey, sameGc, sameNext, dead, fun isDead =>
        (died isDead).imp_right fun collectable => ⟨sameVal, collectable⟩⟩
    next => exact ⟨rfl, rfl, rfl, id, .inl⟩
  have unset : ∀ i, t.val i = .nil → (t.cleartable marks weakvalue).val i = .nil := by
    intro i isNil
    rw [cleartable_val, isNil, ite_self]
  have size : (t.cleartable marks weakvalue).sizearray = t.sizearray := by
    cases weakvalue with
    | false => rfl
    | true => exact List.length_map _
  refine ⟨size, List.length_map _, rfl, rfl, fun i => (change i).1,
    fun i => (change i).2.1, funext fun i => (change i).2.2.1, fun i => (change i).2.2.2.1, ?_, ?_,
    fun i isDead => ((change i).2.2.2.2 isDead).imp_right And.right⟩
  · intro i isDead
    rcases (change i).2.2.2.2 isDead with before | ⟨isNil, -⟩
    · exact unset i (scattered.dead i before)
    · exact isNil
  · intro i isNil
    exact unset i (scattered.free i isNil).2

theorem cleartable_maps (scattered : Scattered hashes t) (marks : Marks) (isValue : v ≠ .nil) :
    (t.cleartable marks true).Maps k v ↔ t.Maps k v ∧ ¬ Cleared marks k v := by
  have same := scattered.sameKeys_cleartable marks true
  have inside := inArray_of_sizearray same.sizearray k
  have cleared : ∀ stored, (if Cleared marks k stored then LuaValue.nil else stored) = v ↔
      stored = v ∧ ¬ Cleared marks k v := by
    intro stored
    split
    next isCleared =>
      refine iff_of_false (Ne.symm isValue) ?_
      rintro ⟨rfl, kept⟩
      exact kept isCleared
    next kept =>
      constructor
      · rintro rfl
        exact ⟨rfl, kept⟩
      · exact And.left
  by_cases isInside : t.InArray k
  · rw [maps_of_inArray (inside.mpr isInside), maps_of_inArray isInside, ← cleared]
    -- a number is never cleared as a key
    have number : ∀ stored, Cleared marks k stored ↔ marks.iscleared stored false = true := by
      intro stored
      rw [Cleared, eq_number_of_arrayindex isInside.1]
      exact or_iff_right Bool.false_ne_true
    have element : (t.cleartable marks true).array.getD (arrayindex k - 1).toNat .nil =
        if Cleared marks k (t.array.getD (arrayindex k - 1).toNat .nil) then .nil
        else t.array.getD (arrayindex k - 1).toNat .nil := by
      change (t.array.map fun o => if marks.iscleared o false then LuaValue.nil else o).getD _ _ = _
      rw [List.getD_eq_getElem?_getD, List.getElem?_map, List.getD_eq_getElem?_getD]
      cases t.array[(arrayindex k - 1).toNat]? with
      | none => exact (ite_self _).symm
      | some o =>
          change (if marks.iscleared o false = true then LuaValue.nil else o) = _
          simp only [number, Option.getD_some]
    rw [element]
  · rw [maps_of_not_inArray (mt inside.mp isInside), maps_of_not_inArray isInside, Live, Live]
    simp only [same.key, cleartable_val]
    constructor
    · rintro ⟨i, rfl, holds⟩
      obtain ⟨stored, kept⟩ := (cleared _).mp holds
      exact ⟨⟨i, rfl, stored⟩, kept⟩
    · rintro ⟨⟨i, rfl, stored⟩, kept⟩
      exact ⟨i, rfl, (cleared _).mpr ⟨stored, kept⟩⟩

theorem SameKeys.sound (same : SameKeys t t') (sound : Sound hashes t) : Sound hashes t' where
  laidOut := same.laidOut sound.laidOut
  sizearray := same.sizearray.le.trans sound.sizearray
  sizenode := same.sizenode.le.trans sound.sizenode

/-! ## Runs -/

inductive Command where
  | set (key value : LuaValue)
  /-- `OP_SETLIST`, before it assigns the elements. -/
  | setlist (last : Nat)
  | traversetable
  /-- Of a table with weak values. -/
  | cleartable (marks : Marks)

namespace Command

/-- A constructor has no more elements than an array part. -/
def Valid : Command → Prop
  | setlist last => last ≤ MAXASIZE
  | _ => True

def run (hashes : Hashes) (fuel : Nat) (t : LTable) : Command → Except TableError LTable
  | set key value => t.set hashes fuel key value
  | setlist last => if t.sizearray < last then t.luaH_resizearray hashes fuel last else .ok t
  | traversetable => .ok t.traversetable
  | cleartable marks => .ok (t.cleartable marks true)

/-- What a table maps its keys to after a command. -/
def apply (contents : LuaValue → LuaValue) : Command → LuaValue → LuaValue
  | set key value => Function.update contents key value
  | setlist _ => contents
  | traversetable => contents
  | cleartable marks => fun k => if Cleared marks k (contents k) then .nil else contents k

end Command

theorem Sound.step (sound : Sound hashes t) (fuel : Nat) {command : Command}
    (valid : command.Valid) :
    (∃ t', command.run hashes (fuel + 1) t = .ok t' ∧ Sound hashes t' ∧
      t'.get hashes = command.apply (t.get hashes)) ∨
    ∃ key value e, command = .set key value ∧ command.run hashes (fuel + 1) t = .error e ∧
      Refused (t.get hashes) key e := by
  have scattered := sound.laidOut.scattered
  cases command with
  | set key value =>
      rcases sound.set fuel key value with ⟨t', success, assigned⟩ | ⟨e, failure, refused⟩
      · exact .inl ⟨t', success, assigned.sound, assigned.get⟩
      · exact .inr ⟨key, value, e, rfl, failure, refused⟩
  | setlist last =>
      left
      by_cases more : t.sizearray < last
      · obtain ⟨t', success, sound', gets, -⟩ := sound.luaH_resizearray more.le valid (fuel + 1)
        exact ⟨t', (if_pos more).trans success, sound', gets⟩
      · exact ⟨t, if_neg more, sound, rfl⟩
  | traversetable =>
      left
      have same := scattered.sameKeys_traversetable
      refine ⟨_, rfl, same.sound sound, funext fun k => ?_⟩
      exact scattered.get_eq (same.scattered scattered) fun v _ => traversetable_maps scattered
  | cleartable marks =>
      left
      have same := scattered.sameKeys_cleartable marks true
      refine ⟨_, rfl, same.sound sound, funext fun k => ?_⟩
      apply (same.scattered scattered).get_eq_of_maps
      intro v isValue
      rw [cleartable_maps scattered marks isValue, ← scattered.get_eq_iff isValue]
      dsimp only [Command.apply]
      split
      next cleared =>
        refine iff_of_false ?_ isValue
        rintro ⟨rfl, kept⟩
        exact kept cleared
      next kept =>
        constructor
        · rintro ⟨rfl, -⟩
          rfl
        · rintro rfl
          exact ⟨rfl, kept⟩

def run (hashes : Hashes) (fuel : Nat) (t : LTable) (commands : List Command) :
    Except TableError LTable :=
  commands.foldlM (Command.run hashes fuel) t

def contents (commands : List Command) : LuaValue → LuaValue :=
  commands.foldl Command.apply fun _ => .nil

theorem luaH_new_eq {narray nhash : Nat} (new : luaH_new narray nhash = .ok t) :
    t = (⟨[], [dummynode_], true, 0⟩ : LTable).emptied narray nhash ∧
      (nhash = 0 ∨ ceillog2 nhash ≤ MAXBITS) := by
  unfold luaH_new setnodevector at new
  split at new
  next isZero =>
    refine ⟨?_, .inl isZero⟩
    rw [← Except.ok.inj new]
    simp [emptied, setarrayvector, isZero, sizearray]
  next nonzero =>
    dsimp only at new
    split at new
    next => contradiction
    next small =>
      refine ⟨?_, .inr (not_lt.mp small)⟩
      rw [← Except.ok.inj new]
      simp [emptied, setarrayvector, nonzero, sizearray]

theorem luaH_new_sound {narray nhash : Nat} (new : luaH_new narray nhash = .ok t)
    (bounded : narray ≤ MAXASIZE) : Sound hashes t ∧ t.get hashes = fun _ => .nil := by
  obtain ⟨rfl, small⟩ := luaH_new_eq new
  have laidOut := laidOut_emptied hashes ⟨[], [dummynode_], true, 0⟩ narray nhash
  refine ⟨⟨laidOut, (sizearray_emptied _ _ _).le.trans bounded, ?_⟩, funext fun k => ?_⟩
  · rw [sizenode_emptied]
    split
    next => exact Nat.one_le_two_pow
    next nonzero => exact Nat.pow_le_pow_right Nat.two_pos (small.resolve_left nonzero)
  · apply laidOut.scattered.get_eq_of_maps
    intro v isValue
    rw [maps_emptied isValue]
    refine iff_of_false ?_ isValue
    rintro ⟨-, holds⟩
    exact isValue holds.symm

theorem Sound.run (sound : Sound hashes t) (fuel : Nat) (commands : List Command)
    (valid : ∀ command ∈ commands, command.Valid) :
    (∃ t', run hashes (fuel + 1) t commands = .ok t' ∧ Sound hashes t' ∧
      t'.get hashes = commands.foldl Command.apply (t.get hashes)) ∨
    ∃ earlier key value rest e, commands = earlier ++ Command.set key value :: rest ∧
      run hashes (fuel + 1) t commands = .error e ∧
      Refused (earlier.foldl Command.apply (t.get hashes)) key e := by
  induction commands generalizing t with
  | nil => exact .inl ⟨t, rfl, sound, rfl⟩
  | cons command commands inductionHypothesis =>
      rw [LTable.run, List.foldlM_cons]
      rcases sound.step fuel (valid command List.mem_cons_self) with
        ⟨t₁, success, sound₁, gets⟩ | ⟨key, value, e, isSet, failure, refused⟩
      · rw [success]
        rcases inductionHypothesis sound₁ fun command membership =>
            valid command (List.mem_cons_of_mem _ membership) with
          ⟨t', later, sound', gets'⟩ | ⟨earlier, key, value, rest, e, split, failure, refused⟩
        · refine .inl ⟨t', later, sound', gets'.trans ?_⟩
          rw [List.foldl_cons, gets]
        · refine .inr ⟨command :: earlier, key, value, rest, e, by rw [split]; rfl, failure, ?_⟩
          rwa [List.foldl_cons, ← gets]
      · right
        refine ⟨[], key, value, commands, e, by rw [isSet]; rfl, ?_, refused⟩
        rw [failure]
        rfl

/-- A new table that takes a run of commands maps every key to what was assigned to it
last; a run fails only at an assignment that is refused. -/
theorem run_of_luaH_new (hashes : Hashes) (fuel : Nat) {narray nhash : Nat}
    (new : luaH_new narray nhash = .ok t) (bounded : narray ≤ MAXASIZE) (commands : List Command)
    (valid : ∀ command ∈ commands, command.Valid) :
    (∃ t', t.run hashes (fuel + 1) commands = .ok t' ∧ t'.get hashes = contents commands) ∨
    ∃ earlier key value rest e, commands = earlier ++ Command.set key value :: rest ∧
      t.run hashes (fuel + 1) commands = .error e ∧ Refused (contents earlier) key e := by
  obtain ⟨sound, empty⟩ := @luaH_new_sound hashes t narray nhash new bounded
  rcases sound.run fuel commands valid with
    ⟨t', success, -, gets⟩ | ⟨earlier, key, value, rest, e, split, failure, refused⟩
  · refine .inl ⟨t', success, ?_⟩
    rw [gets, empty]
    rfl
  · refine .inr ⟨earlier, key, value, rest, e, split, failure, ?_⟩
    rw [empty] at refused
    exact refused

/-- Hashes that collide often, and addresses that are taken again. -/
def shortHashes : Hashes where
  number _ := 0
  string := List.length
  pointer _ := 0
  gcvalue
    | .table t => t % 2
    | _ => 2

/-- A key is assigned, cleared, collected, and assigned again. -/
theorem run_of_luaH_new_again :
    (∃ t', run shortHashes 1 ⟨[], [dummynode_], true, 0⟩
        [.set (.table 1) (.boolean true), .set (.table 1) .nil, .traversetable, .setlist 4,
          .set (.table 1) (.boolean false)] = .ok t' ∧
      t'.get shortHashes = contents
        [.set (.table 1) (.boolean true), .set (.table 1) .nil, .traversetable, .setlist 4,
          .set (.table 1) (.boolean false)]) ∨
    ∃ earlier key value rest e,
      [Command.set (.table 1) (.boolean true), .set (.table 1) .nil, .traversetable, .setlist 4,
        .set (.table 1) (.boolean false)] = earlier ++ Command.set key value :: rest ∧
      run shortHashes 1 ⟨[], [dummynode_], true, 0⟩
        [.set (.table 1) (.boolean true), .set (.table 1) .nil, .traversetable, .setlist 4,
          .set (.table 1) (.boolean false)] = .error e ∧
      Refused (contents earlier) key e :=
  @run_of_luaH_new ⟨[], [dummynode_], true, 0⟩ shortHashes 0 0 0 rfl (Nat.zero_le _) _
    (by simp [Command.Valid, MAXASIZE, MAXBITS])

/-! ## A crowded table -/

/-- What is done to a new table with two elements and four nodes: the objects collide, and
one of them is taken out and collected. -/
def crowding : List Command :=
  [.set (.number (cast_num 1)) (.boolean true), .set (.table 1) (.boolean true),
    .set (.table 2) (.boolean true), .set (.table 2) .nil, .traversetable,
    .set (.table 4) (.boolean false)]

/-- The array part ends with nil, and a dead key stands behind the object that is at its
address by now. -/
def crowded : LTable :=
  ⟨[.boolean true, .nil],
    [⟨.boolean true, .table 1, 1, false, some 2⟩, dummynode_,
      ⟨.boolean false, .table 4, 0, false, some 3⟩, ⟨.nil, .table 2, 0, true, none⟩],
    false, 2⟩

theorem luaH_new_twoElements :
    luaH_new 2 4 = .ok ⟨[.nil, .nil], List.replicate 4 dummynode_, false, 4⟩ := by
  decide +kernel

theorem run_crowding :
    run shortHashes 1 ⟨[.nil, .nil], List.replicate 4 dummynode_, false, 4⟩ crowding =
      .ok crowded := by
  decide +kernel

theorem valid_crowding : ∀ command ∈ crowding, command.Valid := by
  simp [crowding, Command.Valid]

theorem sound_crowded : Sound shortHashes crowded := by
  have sound := (@luaH_new_sound shortHashes _ 2 4 luaH_new_twoElements (by decide)).1
  rcases sound.run 0 crowding valid_crowding with
    ⟨t', success, sound', -⟩ | ⟨earlier, key, value, rest, e, -, failure, -⟩
  · obtain rfl := Except.ok.inj (success.symm.trans run_crowding)
    exact sound'
  · rw [run_crowding] at failure
    contradiction

/-- The object of which only a dead key is left is put in again. -/
theorem rehash_best_crowded :
    ∃ n, ArraySize (crowded.keysWith (.table 2)) n ∧
      ((2 ^ MAXBITS < ((crowded.keysWith (.table 2)).countP fun key => ¬ InRange n key) ∧
          crowded.rehash shortHashes (growFor shortHashes 0) (.table 2) =
            .error (.runerror "table overflow")) ∨
        ∃ t', crowded.rehash shortHashes (growFor shortHashes 0) (.table 2) = .ok t' ∧
          Sound shortHashes t' ∧ t'.get shortHashes = crowded.get shortHashes ∧
          t'.sizearray = n ∧ (t'.InArray (.table 2) ∨ t'.Roomy)) :=
  sound_crowded.rehash_best rfl (by decide +kernel) _

end LTable

end LuaEngine.Lua
