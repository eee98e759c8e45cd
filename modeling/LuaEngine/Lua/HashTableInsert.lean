import LuaEngine.Lua.HashTableNodes

/-!
# A new key

A new key goes to its main position if the node there has no value, drives the node
there out to a free place if that is not at home, and else goes to a free place itself.
-/

namespace LuaEngine.Lua

open LuaEngine.Codec LuaEngine.System

namespace LTable

variable {hashes : Hashes} {t t' : LTable} {key : LuaValue} {m n : Nat}

/-- The key has been put into node `m`, which has no value yet. -/
structure Inserted (hashes : Hashes) (t t' : LTable) (key : LuaValue) (m : Nat) : Prop where
  scattered : Scattered hashes t'
  array : t'.array = t.array
  sizenode : t'.sizenode = t.sizenode
  isDummy : t'.isDummy = t.isDummy
  isKey : t'.key m = key
  alive : t'.isDead m = false
  unset : t'.val m = .nil
  kept : ∀ k v, v ≠ .nil → (t'.Live k v ↔ t.Live k v)
  taken : ∃ n, t'.taken ⊆ insert n t.taken
  packed : Packed t'
  addressed : Addressed hashes t → Addressed hashes t'

/-- What a new key may assume. -/
structure Absent (hashes : Hashes) (t : LTable) (key : LuaValue) : Prop where
  scattered : Scattered hashes t
  valid : key.isKey = true
  outside : ¬ t.InArray key
  absent : ∀ i, t.key i = key → t.isDead i = true

theorem Absent.notNil (absent : Absent hashes t key) : key ≠ .nil := by
  rintro rfl
  exact Bool.false_ne_true absent.valid

/-- Where the free nodes end does not matter to the chains. -/
theorem Absent.lastfree (absent : Absent hashes t key) (n : Nat) :
    Absent hashes { t with lastfree := n } key where
  scattered :=
    { power := absent.scattered.power
      chained := absent.scattered.chained
      free := absent.scattered.free
      valid := absent.scattered.valid
      leads := absent.scattered.leads
      home := absent.scattered.home
      first := absent.scattered.first
      dead := absent.scattered.dead
      apart := absent.scattered.apart
      mortal := absent.scattered.mortal }
  valid := absent.valid
  outside := absent.outside
  absent := absent.absent

theorem Addressed.lastfree (addressed : Addressed hashes t) (n : Nat) :
    Addressed hashes { t with lastfree := n } where
  stamped := addressed.stamped
  clear i j collectable obstructs := addressed.clear i j collectable
    ⟨obstructs.alive, obstructs.dead, obstructs.onWay, obstructs.before⟩

theorem Inserted.of_lastfree (inserted : Inserted hashes { t with lastfree := n } t' key m) :
    Inserted hashes t t' key m where
  scattered := inserted.scattered
  array := inserted.array
  sizenode := inserted.sizenode
  isDummy := inserted.isDummy
  isKey := inserted.isKey
  alive := inserted.alive
  unset := inserted.unset
  kept := inserted.kept
  taken := inserted.taken
  packed := inserted.packed
  addressed addressed := inserted.addressed (addressed.lastfree n)

theorem inArray_congr (same : t'.array = t.array) (key : LuaValue) :
    t'.InArray key ↔ t.InArray key := by
  rw [InArray, InArray, sizearray, sizearray, same]

/-! ## One node takes the key -/

/-- The other nodes keep their keys and all nodes their values. -/
structure Placed (hashes : Hashes) (t t' : LTable) (key : LuaValue) (m : Nat) : Prop where
  array : t'.array = t.array
  sizenode : t'.sizenode = t.sizenode
  isDummy : t'.isDummy = t.isDummy
  isKey : t'.key m = key
  stamp : t'.gc m = hashes.gcvalue key
  alive : t'.isDead m = false
  keyOf : ∀ i, i ≠ m → t'.key i = t.key i
  gcOf : ∀ i, i ≠ m → t'.gc i = t.gc i
  deadOf : ∀ i, i ≠ m → t'.isDead i = t.isDead i
  valOf : ∀ i, t'.val i = t.val i
  unset : t.val m = .nil

/-- How the chains go once the node has the key. -/
structure Threaded (hashes : Hashes) (t t' : LTable) (key : LuaValue) (m : Nat) : Prop where
  chained : Chained t'.gnext t.sizenode
  loose : ∀ i, i ≠ m → Loose t.gnext i → t.key i = .nil → Loose t'.gnext i
  kept : ∀ i j, Leads t.gnext i j → Leads t'.gnext i j
  back : ∀ i j, t.key i ≠ .nil → t.key j ≠ .nil → Leads t'.gnext i j → Leads t.gnext i j
  leads : Leads t'.gnext (hashes.mainposition t.sizenode key) m
  home : t'.key (hashes.mainposition t.sizenode key) ≠ .nil ∧
    hashes.mainposition t.sizenode (t'.key (hashes.mainposition t.sizenode key)) =
      hashes.mainposition t.sizenode key
  own : t.key m = .nil ∨ hashes.mainposition t.sizenode key = m
  behind : ∀ j, j ≠ m → t.key j = key → Leads t'.gnext m j
  /-- No dead key comes before the new one. -/
  ahead : ∀ j, Leads t'.gnext (hashes.mainposition t.sizenode key) j → Leads t'.gnext j m →
    t'.isDead j = false

namespace Placed

theorem kept (placed : Placed hashes t t' key m) {k v : LuaValue} (isValue : v ≠ .nil) :
    t'.Live k v ↔ t.Live k v := by
  constructor
  · rintro ⟨i, isKey, holds⟩
    rw [placed.valOf] at holds
    have different : i ≠ m := by
      rintro rfl
      exact isValue (holds.symm.trans placed.unset)
    exact ⟨i, (placed.keyOf i different).symm.trans isKey, holds⟩
  · rintro ⟨i, isKey, holds⟩
    have different : i ≠ m := by
      rintro rfl
      exact isValue (holds.symm.trans placed.unset)
    exact ⟨i, (placed.keyOf i different).trans isKey, (placed.valOf i).trans holds⟩

theorem taken (placed : Placed hashes t t' key m) : t'.taken ⊆ insert m t.taken := by
  intro i membership
  rw [mem_taken] at membership
  by_cases same : i = m
  · exact Finset.mem_insert.mpr (.inl same)
  · rw [placed.keyOf i same] at membership
    exact Finset.mem_insert_of_mem (mem_taken.mpr membership)

/-- What holds of the new key and of every old one holds of all of them. -/
theorem forall_key (placed : Placed hashes t t' key m) {P : Nat → LuaValue → Prop} (new : P m key)
    (old : ∀ i, t.key i ≠ .nil → P i (t.key i)) {i : Nat} (used : t'.key i ≠ .nil) :
    P i (t'.key i) := by
  by_cases same : i = m
  · rw [same, placed.isKey]
    exact new
  · rw [placed.keyOf i same] at used ⊢
    exact old i used

theorem free (placed : Placed hashes t t' key m) (scattered : Scattered hashes t)
    (threaded : Threaded hashes t t' key m) (notNil : key ≠ .nil) {i : Nat}
    (isNil : t'.key i = .nil) : Loose t'.gnext i ∧ t'.val i = .nil := by
  have different : i ≠ m := fun same => notNil (placed.isKey.symm.trans (same ▸ isNil))
  have wasNil := (placed.keyOf i different).symm.trans isNil
  obtain ⟨loose, unset⟩ := scattered.free i wasNil
  exact ⟨threaded.loose i different loose wasNil, (placed.valOf i).trans unset⟩

/-- The nodes at the main positions of the old keys stay at home. -/
theorem home (placed : Placed hashes t t' key m) (scattered : Scattered hashes t)
    (threaded : Threaded hashes t t' key m) {i : Nat} (used : t.key i ≠ .nil) :
    t'.key (hashes.mainposition t.sizenode (t.key i)) ≠ .nil ∧
      hashes.mainposition t.sizenode (t'.key (hashes.mainposition t.sizenode (t.key i))) =
        hashes.mainposition t.sizenode (t.key i) := by
  by_cases atSelf : hashes.mainposition t.sizenode (t.key i) = m
  · rcases threaded.own with wasNil | isMain
    · exact absurd (atSelf ▸ wasNil) (scattered.home i used).1
    · rw [atSelf, ← isMain]
      exact threaded.home
  · rw [placed.keyOf _ atSelf]
    exact scattered.home i used

theorem first (placed : Placed hashes t t' key m) (absent : Absent hashes t key)
    (threaded : Threaded hashes t t' key m) {i j : Nat} (sameKey : t'.key i = t'.key j)
    (used : t'.key i ≠ .nil) (alive : t'.isDead i = false) (different : i ≠ j) :
    t'.isDead j = true ∧ Leads t'.gnext i j := by
  by_cases isSelf : i = m
  · subst isSelf
    have notSelf : j ≠ i := Ne.symm different
    rw [placed.isKey, placed.keyOf j notSelf] at sameKey
    rw [placed.deadOf j notSelf]
    exact ⟨absent.absent j sameKey.symm, threaded.behind j notSelf sameKey.symm⟩
  · rw [placed.keyOf i isSelf] at sameKey used
    rw [placed.deadOf i isSelf] at alive
    by_cases isSelf' : j = m
    · rw [isSelf', placed.isKey] at sameKey
      rw [absent.absent i sameKey] at alive
      contradiction
    · rw [placed.keyOf j isSelf'] at sameKey
      rw [placed.deadOf j isSelf']
      obtain ⟨isDead, stands⟩ := absent.scattered.first i j sameKey used alive different
      exact ⟨isDead, threaded.kept i j stands⟩

/-- A dead node is an old one. -/
theorem of_isDead (placed : Placed hashes t t' key m) {i : Nat} (isDead : t'.isDead i = true) :
    i ≠ m ∧ t.isDead i = true := by
  have different : i ≠ m := by
    rintro rfl
    rw [placed.alive] at isDead
    contradiction
  exact ⟨different, (placed.deadOf i different).symm.trans isDead⟩

theorem scattered (placed : Placed hashes t t' key m) (absent : Absent hashes t key)
    (threaded : Threaded hashes t t' key m) : Scattered hashes t' where
  power := by
    rw [placed.sizenode]
    exact absent.scattered.power
  chained := by
    rw [placed.sizenode]
    exact threaded.chained
  free _ := placed.free absent.scattered threaded absent.notNil
  valid _ := placed.forall_key (P := fun _ k => k.isKey = true) absent.valid
    absent.scattered.valid
  leads i := by
    rw [placed.sizenode]
    exact placed.forall_key (P := fun i k => Leads t'.gnext (hashes.mainposition t.sizenode k) i)
      threaded.leads fun i used => threaded.kept _ _ (absent.scattered.leads i used)
  home i := by
    rw [placed.sizenode]
    exact placed.forall_key (P := fun _ k => t'.key (hashes.mainposition t.sizenode k) ≠ .nil ∧
        hashes.mainposition t.sizenode (t'.key (hashes.mainposition t.sizenode k)) =
          hashes.mainposition t.sizenode k)
      threaded.home fun i => placed.home absent.scattered threaded
  first _ _ := placed.first absent threaded
  dead i isDead := by
    obtain ⟨-, wasDead⟩ := placed.of_isDead isDead
    exact (placed.valOf i).trans (absent.scattered.dead i wasDead)
  apart i := by
    rw [inArray_congr placed.array]
    exact placed.forall_key (P := fun _ k => ¬ t.InArray k) absent.outside absent.scattered.apart
  mortal i isDead := by
    obtain ⟨different, wasDead⟩ := placed.of_isDead isDead
    rw [placed.keyOf i different]
    exact absent.scattered.mortal i wasDead

/-- Dead keys before an old key stood there before. -/
theorem obstructs (placed : Placed hashes t t' key m) (scattered : Scattered hashes t)
    (threaded : Threaded hashes t t' key m) {i j : Nat} (used : t.key i ≠ .nil)
    (different : i ≠ m) (obstructs : Obstructs hashes t' i j) : Obstructs hashes t i j := by
  obtain ⟨alive, dead, onWay, before⟩ := obstructs
  obtain ⟨-, wasDead⟩ := placed.of_isDead dead
  have keyed : t.key j ≠ .nil := notNil_of_iscollectable (scattered.mortal j wasDead)
  rw [placed.keyOf i different, placed.sizenode] at onWay
  exact ⟨(placed.deadOf i different).symm.trans alive, wasDead,
    threaded.back _ _ (scattered.home i used).1 keyed onWay, threaded.back _ _ keyed used before⟩

theorem addressed (placed : Placed hashes t t' key m) (scattered : Scattered hashes t)
    (threaded : Threaded hashes t t' key m) (addressed : Addressed hashes t) :
    Addressed hashes t' where
  stamped i collectable alive := by
    by_cases same : i = m
    · rw [same, placed.isKey]
      exact placed.stamp
    · rw [placed.keyOf i same] at collectable ⊢
      rw [placed.deadOf i same] at alive
      rw [placed.gcOf i same]
      exact addressed.stamped i collectable alive
  clear i j collectable obstructs := by
    by_cases same : i = m
    · obtain ⟨-, dead, onWay, before⟩ := obstructs
      rw [same, placed.isKey, placed.sizenode] at onWay
      rw [same] at before
      rw [threaded.ahead j onWay before] at dead
      contradiction
    · have different := (placed.of_isDead obstructs.dead).1
      rw [placed.keyOf i same] at collectable ⊢
      rw [placed.gcOf j different]
      exact addressed.clear i j collectable (placed.obstructs scattered threaded
        (notNil_of_iscollectable collectable) same obstructs)

/-- `lastfree` is at its old place or at the node that takes the key. -/
theorem packed (placed : Placed hashes t t' key m) (notNil : key ≠ .nil)
    (notDummy : t.isDummy = false)
    (lastfree : ∀ i, t'.lastfree ≤ i → i < t.sizenode → i = m ∨ t.key i ≠ .nil)
    (bound : t'.lastfree ≤ t.sizenode) : Packed t' where
  lastfree _ i above below := by
    rw [placed.sizenode] at below
    by_cases same : i = m
    · rw [same, placed.isKey]
      exact notNil
    · rw [placed.keyOf i same]
      exact (lastfree i above below).resolve_left same
  bound := by
    rw [placed.sizenode]
    exact bound
  dummy isDummy := by
    rw [placed.isDummy, notDummy] at isDummy
    contradiction

theorem inserted (placed : Placed hashes t t' key m) (absent : Absent hashes t key)
    (threaded : Threaded hashes t t' key m) (packed : Packed t') :
    Inserted hashes t t' key m where
  scattered := placed.scattered absent threaded
  array := placed.array
  sizenode := placed.sizenode
  isDummy := placed.isDummy
  isKey := placed.isKey
  alive := placed.alive
  unset := (placed.valOf m).trans placed.unset
  kept _ _ := placed.kept
  taken := ⟨m, placed.taken⟩
  packed := packed
  addressed := placed.addressed absent.scattered threaded

end Placed

/-! ## The main position has no value -/

theorem gnode_setKey (hashes : Hashes) (within : m < t.sizenode) (key : LuaValue) :
    (t.setKey hashes m key).gnode = Function.update t.gnode m
      { t.gnode m with i_key := key, gc := hashes.gcvalue key, dead := false } :=
  gnode_setNode within _

theorem gnext_setKey (hashes : Hashes) (within : m < t.sizenode) (key : LuaValue) :
    (t.setKey hashes m key).gnext = t.gnext := by
  funext i
  rw [gnext, gnode_setKey hashes within, gnext]
  by_cases same : i = m
  · rw [same, Function.update_self]
  · rw [Function.update_of_ne same]

theorem placed_setKey (within : m < t.sizenode) (unset : t.val m = .nil) :
    Placed hashes t (t.setKey hashes m key) key m := by
  have nodes := gnode_setKey hashes within key
  refine ⟨rfl, sizenode_setNode _ _ _, rfl, ?_, ?_, ?_, ?_, ?_, ?_, ?_, unset⟩
  · rw [LTable.key, nodes, Function.update_self]
  · rw [gc, nodes, Function.update_self]
  · rw [isDead, nodes, Function.update_self]
  · intro i different
    rw [LTable.key, nodes, Function.update_of_ne different]
  · intro i different
    rw [gc, nodes, Function.update_of_ne different]
  · intro i different
    rw [isDead, nodes, Function.update_of_ne different]
  · intro i
    rw [val, nodes]
    by_cases same : i = m
    · rw [same, Function.update_self]
    · rw [Function.update_of_ne same]

theorem Absent.threaded_main (absent : Absent hashes t key)
    (isMain : hashes.mainposition t.sizenode key = m) (unset : t.val m = .nil) :
    Threaded hashes t (t.setKey hashes m key) key m := by
  have scattered := absent.scattered
  have within : m < t.sizenode := isMain ▸ scattered.mainposition_lt key
  have placed : Placed hashes t (t.setKey hashes m key) key m := placed_setKey within unset
  have links : (t.setKey hashes m key).gnext = t.gnext := gnext_setKey hashes within key
  refine ⟨?_, ?_, ?_, ?_, ?_, ?_, .inr isMain, ?_, ?_⟩
  · rw [links]
    exact scattered.chained
  · intro i _ loose _
    rwa [links]
  · intro i j leads
    rwa [links]
  · intro i j _ _ leads
    rwa [links] at leads
  · rw [isMain]
  · rw [isMain, placed.isKey]
    exact ⟨absent.notNil, isMain⟩
  · intro j _ isKey
    rw [links]
    have leads := scattered.leads j (isKey ▸ absent.notNil)
    rwa [isKey, isMain] at leads
  · intro j onWay before
    rw [isMain, links] at onWay
    rw [links] at before
    rw [← scattered.chained.antisymm onWay before]
    exact placed.alive

theorem Absent.inserted_main (absent : Absent hashes t key) (packed : Packed t)
    (notDummy : t.isDummy = false) (isMain : hashes.mainposition t.sizenode key = m)
    (unset : t.val m = .nil) : Inserted hashes t (t.setKey hashes m key) key m := by
  have within : m < t.sizenode := isMain ▸ absent.scattered.mainposition_lt key
  have placed : Placed hashes t (t.setKey hashes m key) key m := placed_setKey within unset
  apply placed.inserted absent (absent.threaded_main isMain unset)
  apply placed.packed absent.notNil notDummy
  · intro i above below
    exact .inr (packed.lastfree notDummy i above below)
  · exact packed.bound

/-! ## A free node -/

theorem freeBelow_eq_some {i : Nat} (result : t.freeBelow i = some n) :
    n < i ∧ t.key n = .nil ∧ ∀ j, n < j → j < i → t.key j ≠ .nil := by
  induction i with
  | zero => contradiction
  | succ i inductionHypothesis =>
      unfold freeBelow at result
      split at result
      next isNil =>
        obtain rfl := Option.some.inj result
        exact ⟨Nat.lt_succ_self _, isNil, fun j above below => by omega⟩
      next used =>
        obtain ⟨below, isNil, between⟩ := inductionHypothesis result
        refine ⟨Nat.lt_succ_of_lt below, isNil, fun j above within => ?_⟩
        by_cases same : j = i
        · rw [same]
          exact used
        · exact between j above (by omega)

theorem freeBelow_eq_none {i : Nat} (result : t.freeBelow i = none) :
    ∀ j, j < i → t.key j ≠ .nil := by
  induction i with
  | zero => exact fun j below => absurd below (Nat.not_lt_zero j)
  | succ i inductionHypothesis =>
      unfold freeBelow at result
      split at result
      next => contradiction
      next used =>
        intro j below
        by_cases same : j = i
        · rw [same]
          exact used
        · exact inductionHypothesis result j (by omega)

/-- The node vector has a node without a key. -/
def Roomy (t : LTable) : Prop := t.isDummy = false ∧ t.taken.card < t.sizenode

theorem Packed.freeBelow_of_roomy (packed : Packed t) (roomy : t.Roomy) :
    ∃ n, t.freeBelow t.lastfree = some n := by
  cases result : t.freeBelow t.lastfree with
  | some n => exact ⟨n, rfl⟩
  | none =>
      have full : Finset.range t.sizenode ⊆ t.taken := by
        intro i within
        rw [Finset.mem_range] at within
        rw [mem_taken]
        rcases Nat.lt_or_ge i t.lastfree with below | above
        · exact freeBelow_eq_none result i below
        · exact packed.lastfree roomy.1 i above within
      have many := Finset.card_le_card full
      rw [Finset.card_range] at many
      exact absurd many (Nat.not_le.mpr roomy.2)

/-- `lastfree` has moved down to a free node. -/
theorem Packed.lastfree_moved (packed : Packed t) (notDummy : t.isDummy = false)
    (result : t.freeBelow t.lastfree = some n) :
    ∀ i, n ≤ i → i < t.sizenode → i = n ∨ t.key i ≠ .nil := by
  intro i above within
  obtain ⟨-, -, between⟩ := freeBelow_eq_some result
  by_cases same : i = n
  · exact .inl same
  · right
    rcases Nat.lt_or_ge i t.lastfree with below | beyond
    · exact between i (lt_of_le_of_ne above (Ne.symm same)) below
    · exact packed.lastfree notDummy i beyond within

/-! ## Behind the colliding node -/

theorem gnode_appendNode (within : m < t.sizenode) (within' : n < t.sizenode) (different : n ≠ m) :
    (t.appendNode m n).gnode =
      Function.update (Function.update t.gnode n { t.gnode n with next := t.gnext m }) m
        { t.gnode m with next := some n } := by
  have size : (t.setNode n { t.gnode n with next := t.gnext m }).sizenode = t.sizenode :=
    sizenode_setNode _ _ _
  unfold appendNode
  rw [gnode_setNode (size.symm ▸ within), gnode_setNode within',
    Function.update_of_ne different.symm]

theorem gnext_appendNode (within : m < t.sizenode) (within' : n < t.sizenode)
    (different : n ≠ m) : (t.appendNode m n).gnext = splice t.gnext m n := by
  funext i
  rw [gnext, gnode_appendNode within within' different, splice]
  by_cases isSelf : i = m
  · rw [isSelf, Function.update_self, Function.update_self]
  · rw [Function.update_of_ne isSelf, Function.update_of_ne isSelf]
    by_cases isNew : i = n
    · rw [isNew, Function.update_self, Function.update_self]
    · rw [Function.update_of_ne isNew, Function.update_of_ne isNew, gnext]

/-- Only links change. -/
theorem appendNode_same (within : m < t.sizenode) (within' : n < t.sizenode)
    (different : n ≠ m) (i : Nat) :
    (t.appendNode m n).key i = t.key i ∧ (t.appendNode m n).val i = t.val i ∧
      (t.appendNode m n).isDead i = t.isDead i ∧ (t.appendNode m n).gc i = t.gc i := by
  rw [LTable.key, val, isDead, gc, gnode_appendNode within within' different]
  by_cases isSelf : i = m
  · rw [isSelf, Function.update_self]
    exact ⟨rfl, rfl, rfl, rfl⟩
  · rw [Function.update_of_ne isSelf]
    by_cases isNew : i = n
    · rw [isNew, Function.update_self]
      exact ⟨rfl, rfl, rfl, rfl⟩
    · rw [Function.update_of_ne isNew]
      exact ⟨rfl, rfl, rfl, rfl⟩

theorem placed_appendNode (within : m < t.sizenode) (within' : n < t.sizenode)
    (different : n ≠ m) (unset : t.val n = .nil) :
    Placed hashes t ((t.appendNode m n).setKey hashes n key) key n := by
  have size : (t.appendNode m n).sizenode = t.sizenode :=
    (sizenode_setNode _ _ _).trans (sizenode_setNode _ _ _)
  have same := appendNode_same within within' different
  have placed : Placed hashes (t.appendNode m n) ((t.appendNode m n).setKey hashes n key) key n :=
    placed_setKey (size.symm ▸ within') ((same n).2.1.trans unset)
  refine ⟨rfl, placed.sizenode.trans size, rfl, placed.isKey, placed.stamp, placed.alive, ?_, ?_,
    ?_, ?_, unset⟩
  · intro i notNew
    exact (placed.keyOf i notNew).trans (same i).1
  · intro i notNew
    exact (placed.gcOf i notNew).trans (same i).2.2.2
  · intro i notNew
    exact (placed.deadOf i notNew).trans (same i).2.2.1
  · intro i
    exact (placed.valOf i).trans (same i).2.1

theorem gnext_appendNode_setKey (hashes : Hashes) (within : m < t.sizenode)
    (within' : n < t.sizenode) (different : n ≠ m) (key : LuaValue) :
    ((t.appendNode m n).setKey hashes n key).gnext = splice t.gnext m n := by
  have size : (t.appendNode m n).sizenode = t.sizenode :=
    (sizenode_setNode _ _ _).trans (sizenode_setNode _ _ _)
  rw [gnext_setKey hashes (size.symm ▸ within')]
  exact gnext_appendNode within within' different

theorem Absent.threaded_behind (absent : Absent hashes t key)
    (isMain : hashes.mainposition t.sizenode key = m) (used : t.val m ≠ .nil)
    (atHome : hashes.mainposition t.sizenode (t.key m) = m) (isFree : t.key n = .nil)
    (within' : n < t.sizenode) :
    Threaded hashes t ((t.appendNode m n).setKey hashes n key) key n := by
  have scattered := absent.scattered
  have within : m < t.sizenode := isMain ▸ scattered.mainposition_lt key
  have keyed : t.key m ≠ .nil := scattered.key_of_val used
  have alive := scattered.alive_of_val used
  have different : n ≠ m := fun same => keyed (same ▸ isFree)
  have notFree : ∀ i, t.key i ≠ .nil → i ≠ n := fun i used same => used (same ▸ isFree)
  obtain ⟨loose, unset⟩ := scattered.free n isFree
  have placed : Placed hashes t ((t.appendNode m n).setKey hashes n key) key n :=
    placed_appendNode within within' different unset
  have chained : Chained (splice t.gnext m n) t.sizenode :=
    scattered.chained.splice loose different.symm within within'
  have links : ((t.appendNode m n).setKey hashes n key).gnext = splice t.gnext m n :=
    gnext_appendNode_setKey hashes within within' different key
  refine ⟨?_, ?_, ?_, ?_, ?_, ?_, .inl isFree, ?_, ?_⟩
  · rw [links]
    exact chained
  · intro i notNew looseBefore isNil
    rw [links]
    exact looseBefore.splice (fun isSelf => keyed (isSelf ▸ isNil)) notNew different.symm
  · intro i j leads
    rw [links]
    exact Leads.splice loose different.symm leads
  · intro i j used used' leads
    rw [links] at leads
    exact Leads.of_splice loose different.symm leads (notFree i used) (notFree j used')
  · rw [links, isMain]
    exact .single splice_self
  · rw [isMain, placed.keyOf m different.symm]
    exact ⟨keyed, atHome⟩
  · intro j notNew isKey
    rw [links]
    have leads := scattered.leads j (isKey ▸ absent.notNil)
    rw [isKey, isMain] at leads
    apply leads.splice_new loose different.symm
    rintro rfl
    rw [absent.absent j isKey] at alive
    contradiction
  · intro j onWay before
    rw [isMain, links] at onWay
    rw [links] at before
    rcases Relation.ReflTransGen.cases_head onWay with same | ⟨next, linked, later⟩
    · rw [← same, placed.deadOf m different.symm]
      exact alive
    · rw [splice_self] at linked
      obtain rfl := Option.some.inj linked
      rw [← chained.antisymm later before]
      exact placed.alive

/-- The node at the main position is at home, so the key goes to a free node. -/
theorem Absent.inserted_behind (absent : Absent hashes t key) (packed : Packed t)
    (notDummy : t.isDummy = false) (isMain : hashes.mainposition t.sizenode key = m)
    (used : t.val m ≠ .nil) (atHome : hashes.mainposition t.sizenode (t.key m) = m)
    (result : t.freeBelow t.lastfree = some n) :
    Inserted hashes t
      ((({ t with lastfree := n } : LTable).appendNode m n).setKey hashes n key) key n := by
  obtain ⟨below, isFree, -⟩ := freeBelow_eq_some result
  have within : m < t.sizenode := isMain ▸ absent.scattered.mainposition_lt key
  have within' : n < t.sizenode := below.trans_le packed.bound
  have keyed : t.key m ≠ .nil := absent.scattered.key_of_val used
  have different : n ≠ m := fun same => keyed (same ▸ isFree)
  have placed : Placed hashes { t with lastfree := n }
      ((({ t with lastfree := n } : LTable).appendNode m n).setKey hashes n key) key n :=
    placed_appendNode within within' different (absent.scattered.free n isFree).2
  apply Inserted.of_lastfree
  apply placed.inserted (absent.lastfree n)
    ((absent.lastfree n).threaded_behind isMain used atHome isFree within')
  apply placed.packed absent.notNil notDummy
  · exact packed.lastfree_moved notDummy result
  · exact (Nat.le_of_lt below).trans packed.bound

/-! ## In place of a node that is not at home -/

/-- The node `m` has moved to the free node `n`, and is free itself. -/
structure Moved (t t' : LTable) (before m n : Nat) : Prop where
  array : t'.array = t.array
  sizenode : t'.sizenode = t.sizenode
  isDummy : t'.isDummy = t.isDummy
  lastfree : t'.lastfree = t.lastfree
  links : t'.gnext = relocate t.gnext before m n
  vacated : t'.key m = .nil ∧ t'.val m = .nil ∧ t'.isDead m = false
  contents : ∀ i, i ≠ n → t'.key (moved m n i) = t.key i ∧ t'.val (moved m n i) = t.val i ∧
    t'.isDead (moved m n i) = t.isDead i ∧ t'.gc (moved m n i) = t.gc i

/-- The node `m` is not at home and stands behind `before`, and `n` is free. -/
structure Displaced (hashes : Hashes) (t : LTable) (before m n : Nat) : Prop where
  scattered : Scattered hashes t
  isFree : t.key n = .nil
  within : n < t.sizenode
  stands : t.gnext before = some m
  keyed : t.key m ≠ .nil
  away : hashes.mainposition t.sizenode (t.key m) ≠ m

namespace Displaced

variable {before : Nat}

theorem different (displaced : Displaced hashes t before m n) : n ≠ m :=
  fun same => displaced.keyed (same ▸ displaced.isFree)

theorem loose (displaced : Displaced hashes t before m n) : Loose t.gnext n :=
  (displaced.scattered.free n displaced.isFree).1

theorem notFree (displaced : Displaced hashes t before m n) {i : Nat} (used : t.key i ≠ .nil) :
    i ≠ n := fun same => used (same ▸ displaced.isFree)

/-- No key has its main position at the node that moves, or at the free one. -/
theorem notMain (displaced : Displaced hashes t before m n) {i : Nat} (used : t.key i ≠ .nil) :
    hashes.mainposition t.sizenode (t.key i) ≠ m ∧
      hashes.mainposition t.sizenode (t.key i) ≠ n := by
  obtain ⟨keyedMain, atHome⟩ := displaced.scattered.home i used
  refine ⟨fun isSelf => ?_, displaced.notFree keyedMain⟩
  rw [isSelf] at atHome
  exact displaced.away atHome

theorem relocate (displaced : Displaced hashes t before m n) {i j : Nat}
    (leads : Leads t.gnext i j) : Leads (relocate t.gnext before m n) (moved m n i) (moved m n j) :=
  leads.relocate displaced.scattered.chained displaced.loose displaced.stands

theorem of_relocate (displaced : Displaced hashes t before m n) {i j : Nat}
    (leads : Leads (System.relocate t.gnext before m n) (moved m n i) (moved m n j))
    (notNew : i ≠ n) (notNew' : j ≠ n) : Leads t.gnext i j := by
  have notSelf : moved m n i ≠ m := moved_ne displaced.different
  have back := leads.of_relocate displaced.scattered.chained displaced.loose displaced.stands
    notSelf
  rwa [moved_moved notNew, moved_moved notNew'] at back

end Displaced

namespace Moved

variable {before : Nat}

/-- A node that has a key now had it before, maybe at the other place. -/
theorem exists_old (change : Moved t t' before m n) (different : n ≠ m) {i : Nat}
    (used : t'.key i ≠ .nil) : i ≠ m ∧ ∃ j, j ≠ n ∧ moved m n j = i := by
  have notSelf : i ≠ m := by
    rintro rfl
    exact used change.vacated.1
  refine ⟨notSelf, ?_⟩
  by_cases isNew : i = n
  · exact ⟨m, different.symm, isNew ▸ moved_self⟩
  · exact ⟨i, isNew, moved_of_ne notSelf⟩

/-- What holds of every key at its old place holds of it at its new one. -/
theorem forall_key (change : Moved t t' before m n) (different : n ≠ m)
    {P : Nat → LuaValue → Prop} (old : ∀ i, i ≠ n → t.key i ≠ .nil → P (moved m n i) (t.key i))
    {i : Nat} (used : t'.key i ≠ .nil) : P i (t'.key i) := by
  obtain ⟨-, j, notNew, rfl⟩ := change.exists_old different used
  rw [(change.contents j notNew).1] at used ⊢
  exact old j notNew used

/-- A dead node was dead before, maybe at the other place. -/
theorem of_isDead (change : Moved t t' before m n) (displaced : Displaced hashes t before m n)
    {i : Nat} (isDead : t'.isDead i = true) :
    ∃ j, j ≠ n ∧ moved m n j = i ∧ t.isDead j = true := by
  by_cases isSelf : i = m
  · rw [isSelf, change.vacated.2.2] at isDead
    contradiction
  · by_cases isNew : i = n
    · have kept := (change.contents m displaced.different.symm).2.2.1
      rw [moved_self] at kept
      exact ⟨m, displaced.different.symm, isNew ▸ moved_self, kept.symm.trans (isNew ▸ isDead)⟩
    · have kept := (change.contents i isNew).2.2.1
      rw [moved_of_ne isSelf] at kept
      exact ⟨i, isNew, moved_of_ne isSelf, kept.symm.trans isDead⟩

theorem free (change : Moved t t' before m n) (displaced : Displaced hashes t before m n) {i : Nat}
    (isNil : t'.key i = .nil) : Loose t'.gnext i ∧ t'.val i = .nil := by
  have scattered := displaced.scattered
  rw [change.links]
  by_cases isSelf : i = m
  · rw [isSelf]
    exact ⟨loose_relocate scattered.chained displaced.loose displaced.stands, change.vacated.2.1⟩
  · have notNew : i ≠ n := by
      rintro rfl
      have kept := (change.contents m displaced.different.symm).1
      rw [moved_self] at kept
      exact displaced.keyed (kept.symm.trans isNil)
    obtain ⟨keyKept, valKept, -⟩ := change.contents i notNew
    rw [moved_of_ne isSelf] at keyKept valKept
    obtain ⟨looseBefore, unset⟩ := scattered.free i (keyKept.symm.trans isNil)
    exact ⟨looseBefore.relocate displaced.loose displaced.stands notNew, valKept.trans unset⟩

theorem leads (change : Moved t t' before m n) (displaced : Displaced hashes t before m n) {i : Nat}
    (used : t.key i ≠ .nil) :
    Leads t'.gnext (hashes.mainposition t.sizenode (t.key i)) (moved m n i) := by
  have leads := displaced.relocate (displaced.scattered.leads i used)
  rwa [moved_of_ne (displaced.notMain used).1, ← change.links] at leads

/-- The node at a main position has not moved. -/
theorem home (change : Moved t t' before m n) (displaced : Displaced hashes t before m n) {i : Nat}
    (used : t.key i ≠ .nil) :
    t'.key (hashes.mainposition t.sizenode (t.key i)) ≠ .nil ∧
      hashes.mainposition t.sizenode (t'.key (hashes.mainposition t.sizenode (t.key i))) =
        hashes.mainposition t.sizenode (t.key i) := by
  obtain ⟨notSelf, notNew⟩ := displaced.notMain used
  have kept := (change.contents _ notNew).1
  rw [moved_of_ne notSelf] at kept
  rw [kept]
  exact displaced.scattered.home i used

theorem first (change : Moved t t' before m n) (displaced : Displaced hashes t before m n)
    {i j : Nat} (sameKey : t'.key i = t'.key j) (used : t'.key i ≠ .nil)
    (alive : t'.isDead i = false) (distinct : i ≠ j) : t'.isDead j = true ∧ Leads t'.gnext i j := by
  have used' : t'.key j ≠ .nil := sameKey ▸ used
  obtain ⟨-, i, notNew, rfl⟩ := change.exists_old displaced.different used
  obtain ⟨-, j, notNew', rfl⟩ := change.exists_old displaced.different used'
  rw [(change.contents i notNew).1, (change.contents j notNew').1] at sameKey
  rw [(change.contents i notNew).1] at used
  rw [(change.contents i notNew).2.2.1] at alive
  rw [(change.contents j notNew').2.2.1, change.links]
  have distinct' : i ≠ j := fun same => distinct (congrArg (moved m n) same)
  obtain ⟨isDead, stands⟩ := displaced.scattered.first i j sameKey used alive distinct'
  exact ⟨isDead, displaced.relocate stands⟩

theorem scattered (change : Moved t t' before m n) (displaced : Displaced hashes t before m n) :
    Scattered hashes t' where
  power := by
    rw [change.sizenode]
    exact displaced.scattered.power
  chained := by
    rw [change.links, change.sizenode]
    exact displaced.scattered.chained.relocate displaced.loose displaced.stands displaced.within
  free _ := change.free displaced
  valid _ := change.forall_key (P := fun _ k => k.isKey = true) displaced.different
    fun i _ => displaced.scattered.valid i
  leads i := by
    rw [change.sizenode]
    exact change.forall_key (P := fun i k => Leads t'.gnext (hashes.mainposition t.sizenode k) i)
      displaced.different fun i _ => change.leads displaced
  home i := by
    rw [change.sizenode]
    exact change.forall_key
      (P := fun _ k => t'.key (hashes.mainposition t.sizenode k) ≠ .nil ∧
        hashes.mainposition t.sizenode (t'.key (hashes.mainposition t.sizenode k)) =
          hashes.mainposition t.sizenode k)
      displaced.different fun i _ => change.home displaced
  first _ _ := change.first displaced
  dead i isDead := by
    obtain ⟨j, notNew, rfl, wasDead⟩ := change.of_isDead displaced isDead
    exact (change.contents j notNew).2.1.trans (displaced.scattered.dead j wasDead)
  apart i := by
    rw [inArray_congr change.array]
    exact change.forall_key (P := fun _ k => ¬ t.InArray k) displaced.different
      fun i _ => displaced.scattered.apart i
  mortal i isDead := by
    obtain ⟨j, notNew, rfl, wasDead⟩ := change.of_isDead displaced isDead
    rw [(change.contents j notNew).1]
    exact displaced.scattered.mortal j wasDead

/-- The chains go by the same nodes as before. -/
theorem obstructs (change : Moved t t' before m n) (displaced : Displaced hashes t before m n)
    {i j : Nat} (notNew : i ≠ n) (notNew' : j ≠ n) (used : t.key i ≠ .nil)
    (obstructs : Obstructs hashes t' (moved m n i) (moved m n j)) : Obstructs hashes t i j := by
  obtain ⟨alive, dead, onWay, before⟩ := obstructs
  obtain ⟨keyKept, -, deadKept, -⟩ := change.contents i notNew
  obtain ⟨notSelf, notFree⟩ := displaced.notMain used
  rw [keyKept, change.sizenode, change.links, ← moved_of_ne (n := n) notSelf] at onWay
  rw [change.links] at before
  exact ⟨deadKept.symm.trans alive, (change.contents j notNew').2.2.1.symm.trans dead,
    displaced.of_relocate onWay notFree notNew', displaced.of_relocate before notNew' notNew⟩

theorem addressed (change : Moved t t' before m n) (displaced : Displaced hashes t before m n)
    (addressed : Addressed hashes t) : Addressed hashes t' where
  stamped i collectable alive := by
    obtain ⟨-, j, notNew, rfl⟩ :=
      change.exists_old displaced.different (notNil_of_iscollectable collectable)
    obtain ⟨keyKept, -, deadKept, gcKept⟩ := change.contents j notNew
    rw [keyKept] at collectable ⊢
    rw [gcKept]
    exact addressed.stamped j collectable (deadKept.symm.trans alive)
  clear i j collectable obstructs := by
    obtain ⟨-, i, notNew, rfl⟩ :=
      change.exists_old displaced.different (notNil_of_iscollectable collectable)
    obtain ⟨j, notNew', rfl, -⟩ := change.of_isDead displaced obstructs.dead
    rw [(change.contents i notNew).1] at collectable ⊢
    rw [(change.contents j notNew').2.2.2]
    exact addressed.clear i j collectable (change.obstructs displaced notNew notNew'
      (notNil_of_iscollectable collectable) obstructs)

theorem kept (change : Moved t t' before m n) (unset : t.val n = .nil) (different : n ≠ m)
    {k v : LuaValue} (isValue : v ≠ .nil) : t'.Live k v ↔ t.Live k v := by
  constructor
  · rintro ⟨i, isKey, holds⟩
    by_cases isSelf : i = m
    · rw [isSelf, change.vacated.2.1] at holds
      exact absurd holds.symm isValue
    · by_cases isNew : i = n
      · obtain ⟨keyKept, valKept, -⟩ := change.contents m different.symm
        rw [moved_self] at keyKept valKept
        exact ⟨m, keyKept.symm.trans (isNew ▸ isKey), valKept.symm.trans (isNew ▸ holds)⟩
      · obtain ⟨keyKept, valKept, -⟩ := change.contents i isNew
        rw [moved_of_ne isSelf] at keyKept valKept
        exact ⟨i, keyKept.symm.trans isKey, valKept.symm.trans holds⟩
  · rintro ⟨i, isKey, holds⟩
    have notNew : i ≠ n := by
      rintro rfl
      exact isValue (holds.symm.trans unset)
    obtain ⟨keyKept, valKept, -⟩ := change.contents i notNew
    exact ⟨moved m n i, keyKept.trans isKey, valKept.trans holds⟩

theorem absent (change : Moved t t' before m n) (absent : Absent hashes t key)
    (different : n ≠ m) (scattered : Scattered hashes t') : Absent hashes t' key where
  scattered := scattered
  valid := absent.valid
  outside := by
    rw [inArray_congr change.array]
    exact absent.outside
  absent i isKey := by
    obtain ⟨-, j, notNew, rfl⟩ := change.exists_old different (isKey ▸ absent.notNil)
    rw [(change.contents j notNew).1] at isKey
    rw [(change.contents j notNew).2.2.1]
    exact absent.absent j isKey

theorem taken (change : Moved t t' before m n) (different : n ≠ m) :
    t'.taken ⊆ insert n t.taken := by
  intro i membership
  have used := mem_taken.mp membership
  obtain ⟨notSelf, -⟩ := change.exists_old different used
  by_cases isNew : i = n
  · exact Finset.mem_insert.mpr (.inl isNew)
  · have kept := (change.contents i isNew).1
    rw [moved_of_ne notSelf] at kept
    exact Finset.mem_insert_of_mem (mem_taken.mpr (kept ▸ used))

/-- The free node is in use now, and only the node that moved is free. -/
theorem used (change : Moved t t' before m n) (displaced : Displaced hashes t before m n) {i : Nat}
    (used : i = n ∨ t.key i ≠ .nil) : i = m ∨ t'.key i ≠ .nil := by
  by_cases isSelf : i = m
  · exact .inl isSelf
  · right
    by_cases isNew : i = n
    · have kept := (change.contents m displaced.different.symm).1
      rw [moved_self] at kept
      rw [isNew, kept]
      exact displaced.keyed
    · have kept := (change.contents i isNew).1
      rw [moved_of_ne isSelf] at kept
      rw [kept]
      exact used.resolve_left isNew

end Moved

theorem setNode_setNode (t : LTable) (i : Nat) (first second : Node) :
    (t.setNode i first).setNode i second = t.setNode i second := by
  rw [setNode, setNode, setNode, List.set_set]

theorem setKey_setNode (within : m < t.sizenode) (n : Node) (key : LuaValue) :
    (t.setNode m n).setKey hashes m key =
      t.setNode m { n with i_key := key, gc := hashes.gcvalue key, dead := false } := by
  rw [setKey, setNode_setNode, gnode_setNode within, Function.update_self]

/-- The nodes once `m` has moved to `n`. -/
def vacate (t : LTable) (before m n : Nat) : LTable :=
  ((t.setNode before { t.gnode before with next := some n }).setNode n (t.gnode m)).setNode m
    dummynode_

theorem moved_vacate {before : Nat} (chained : Chained t.gnext t.sizenode)
    (loose : Loose t.gnext n) (within : n < t.sizenode) (stands : t.gnext before = some m) :
    Moved t (t.vacate before m n) before m n := by
  have inside := chained.inside stands
  have notSelf : before ≠ m := chained.ne_of_link stands
  have notNew : before ≠ n := loose.ne_of_link stands
  have different : n ≠ m := fun same => loose.first before (same ▸ stands)
  have nodes : (t.vacate before m n).gnode =
      Function.update (Function.update (Function.update t.gnode before
        { t.gnode before with next := some n }) n (t.gnode m)) m dummynode_ := by
    rw [vacate, gnode_setNode, gnode_setNode, gnode_setNode inside.1]
    · rwa [sizenode_setNode]
    · rw [sizenode_setNode, sizenode_setNode]
      exact inside.2
  refine ⟨rfl, ?_, rfl, rfl, ?_, ?_, ?_⟩
  · rw [vacate, sizenode_setNode, sizenode_setNode, sizenode_setNode]
  · funext i
    rw [gnext, nodes, relocate]
    by_cases isSelf : i = m
    · rw [isSelf, Function.update_self, Function.update_self]
      rfl
    · rw [Function.update_of_ne isSelf, Function.update_of_ne isSelf]
      by_cases isNew : i = n
      · rw [isNew, Function.update_self, Function.update_self, gnext]
      · rw [Function.update_of_ne isNew, Function.update_of_ne isNew]
        by_cases isBefore : i = before
        · rw [isBefore, Function.update_self, Function.update_self]
        · rw [Function.update_of_ne isBefore, Function.update_of_ne isBefore, gnext]
  · rw [LTable.key, val, isDead, nodes, Function.update_self]
    exact ⟨rfl, rfl, rfl⟩
  · intro i old
    rw [LTable.key, val, isDead, gc, nodes]
    by_cases isSelf : i = m
    · rw [isSelf, moved_self, Function.update_of_ne different, Function.update_self]
      exact ⟨rfl, rfl, rfl, rfl⟩
    · rw [moved_of_ne isSelf, Function.update_of_ne isSelf, Function.update_of_ne old]
      by_cases isBefore : i = before
      · rw [isBefore, Function.update_self]
        exact ⟨rfl, rfl, rfl, rfl⟩
      · rw [Function.update_of_ne isBefore]
        exact ⟨rfl, rfl, rfl, rfl⟩

/-- The search for the node before the colliding one succeeds. -/
theorem moveNode_setKey {othern : Nat} (chained : Chained t.gnext t.sizenode)
    (loose : Loose t.gnext n) (leads : Leads t.gnext othern m) (away : othern ≠ m)
    (inside : othern < t.sizenode) :
    ∃ before, t.gnext before = some m ∧
      ∃ t₁, t.moveNode othern m n = .ok t₁ ∧
        t₁.setKey hashes m key = (t.vacate before m n).setKey hashes m key := by
  obtain ⟨before, earlier, stands⟩ :=
    (Relation.ReflTransGen.cases_tail leads).resolve_left (Ne.symm away)
  obtain ⟨found, result⟩ := @Chained.seek_complete t.gnext (fun i => t.gnext i = some m) _ _ _
    chained inside earlier (decide_eq_true stands)
  have linked : t.gnext found = some m := of_decide_eq_true (seek_sound result).2
  have notSelf : found ≠ m := chained.ne_of_link linked
  have different : n ≠ m := fun same => loose.first found (same ▸ linked)
  have bounds := chained.inside linked
  refine ⟨found, linked, _, by rw [moveNode, result], ?_⟩
  -- the node that moves is not touched before it is copied
  have copied : (t.setNode found { t.gnode found with next := some n }).gnode m = t.gnode m := by
    rw [gnode_setNode bounds.1, Function.update_of_ne notSelf.symm]
  dsimp only
  rw [copied, vacate, setKey_setNode, setKey_setNode]
  · rfl
  · rw [sizenode_setNode, sizenode_setNode]
    exact bounds.2
  · rw [sizenode_setNode, sizenode_setNode]
    exact bounds.2

/-- The node at the main position is not at home, so it goes to a free node. -/
theorem Absent.inserted_instead (absent : Absent hashes t key) (packed : Packed t)
    (notDummy : t.isDummy = false) (isMain : hashes.mainposition t.sizenode key = m)
    (used : t.val m ≠ .nil) (away : hashes.mainposition t.sizenode (t.key m) ≠ m)
    (result : t.freeBelow t.lastfree = some n) :
    ∃ t₁, ({ t with lastfree := n } : LTable).moveNode
        (hashes.mainposition t.sizenode (t.key m)) m n = .ok t₁ ∧
      Inserted hashes t (t₁.setKey hashes m key) key m := by
  obtain ⟨below, isFree, -⟩ := freeBelow_eq_some result
  have within : m < t.sizenode := isMain ▸ absent.scattered.mainposition_lt key
  have keyed : t.key m ≠ .nil := absent.scattered.key_of_val used
  obtain ⟨loose, unset⟩ := absent.scattered.free n isFree
  obtain ⟨before, stands, t₁, success, same⟩ :=
    @moveNode_setKey hashes { t with lastfree := n } key m n _ absent.scattered.chained loose
      (absent.scattered.leads m keyed) away (absent.scattered.mainposition_lt _)
  refine ⟨t₁, success, ?_⟩
  rw [same]
  apply Inserted.of_lastfree
  have absent₁ := absent.lastfree n
  have displaced : Displaced hashes { t with lastfree := n } before m n :=
    ⟨absent₁.scattered, isFree, below.trans_le packed.bound, stands, keyed, away⟩
  have change := moved_vacate absent₁.scattered.chained loose displaced.within stands
  generalize ({ t with lastfree := n } : LTable).vacate before m n = t₂ at change
  have absent₂ : Absent hashes t₂ key :=
    change.absent absent₁ displaced.different (change.scattered displaced)
  have isMain₂ : hashes.mainposition t₂.sizenode key = m := by
    rw [change.sizenode]
    exact isMain
  have threaded := absent₂.threaded_main isMain₂ change.vacated.2.1
  have placed : Placed hashes t₂ (t₂.setKey hashes m key) key m :=
    placed_setKey (change.sizenode.symm ▸ within) change.vacated.2.1
  refine ⟨placed.scattered absent₂ threaded, placed.array.trans change.array,
    placed.sizenode.trans change.sizenode, placed.isDummy.trans change.isDummy, placed.isKey,
    placed.alive, (placed.valOf m).trans change.vacated.2.1, ?_, ⟨n, ?_⟩, ?_, ?_⟩
  · intro k v isValue
    exact (placed.kept isValue).trans (change.kept unset displaced.different isValue)
  · intro i membership
    rcases Finset.mem_insert.mp (placed.taken membership) with rfl | earlier
    · exact Finset.mem_insert_of_mem (mem_taken.mpr keyed)
    · exact change.taken displaced.different earlier
  · apply placed.packed absent.notNil (change.isDummy.trans notDummy)
    · intro i above inside
      have above' : n ≤ i := change.lastfree.symm.le.trans above
      rw [change.sizenode] at inside
      exact change.used displaced (packed.lastfree_moved notDummy result i above' inside)
    · rw [change.sizenode]
      exact change.lastfree.le.trans ((Nat.le_of_lt below).trans packed.bound)
  · intro addressed
    exact placed.addressed absent₂.scattered threaded (change.addressed displaced addressed)

/-! ## The three cases -/

theorem newkey_main {grow : Grow} (notDummy : t.isDummy = false)
    (isMain : hashes.mainposition t.sizenode key = m) (unset : t.val m = .nil) :
    t.newkey hashes grow key = .ok (t.setKey hashes m key, .hash m) := by
  rw [newkey, isMain, if_neg (by simp [unset, notDummy])]

theorem newkey_grow {grow : Grow} (collides : t.val m ≠ .nil ∨ t.isDummy = true)
    (isMain : hashes.mainposition t.sizenode key = m)
    (full : t.freeBelow t.lastfree = none) :
    t.newkey hashes grow key = grow { t with lastfree := 0 } key := by
  rw [newkey, isMain, if_pos collides, getfreepos, full]

theorem newkey_free {grow : Grow} (isMain : hashes.mainposition t.sizenode key = m)
    (used : t.val m ≠ .nil) (result : t.freeBelow t.lastfree = some n) :
    t.newkey hashes grow key =
      if hashes.mainposition t.sizenode (t.key m) ≠ m then do
        let t ← ({ t with lastfree := n } : LTable).moveNode
          (hashes.mainposition t.sizenode (t.key m)) m n
        .ok (t.setKey hashes m key, .hash m)
      else
        .ok ((({ t with lastfree := n } : LTable).appendNode m n).setKey hashes n key,
          .hash n) := by
  rw [newkey, isMain, if_pos (.inl used), getfreepos, result]
  rfl

/-- With a free node to go to the table does not grow. -/
theorem Absent.newkey_of_roomy (absent : Absent hashes t key) (packed : Packed t)
    (roomy : t.Roomy) (grow : Grow) :
    ∃ t' m, t.newkey hashes grow key = .ok (t', .hash m) ∧ Inserted hashes t t' key m := by
  have notDummy := roomy.1
  generalize isMain : hashes.mainposition t.sizenode key = m
  by_cases unset : t.val m = .nil
  · exact ⟨_, m, newkey_main notDummy isMain unset,
      absent.inserted_main packed notDummy isMain unset⟩
  · obtain ⟨n, result⟩ := packed.freeBelow_of_roomy roomy
    rw [newkey_free isMain unset result]
    by_cases atHome : hashes.mainposition t.sizenode (t.key m) = m
    · rw [if_neg (not_not_intro atHome)]
      exact ⟨_, n, rfl, absent.inserted_behind packed notDummy isMain unset atHome result⟩
    · obtain ⟨t₁, success, inserted⟩ :=
        absent.inserted_instead packed notDummy isMain unset atHome result
      rw [if_pos atHome, success]
      exact ⟨_, m, rfl, inserted⟩

theorem Packed.freeBelow_of_not_roomy (packed : Packed t) (full : ¬ t.Roomy) :
    t.freeBelow t.lastfree = none := by
  cases result : t.freeBelow t.lastfree with
  | none => rfl
  | some n =>
      obtain ⟨below, isFree, -⟩ := freeBelow_eq_some result
      cases isDummy : t.isDummy with
      | true =>
          rw [(packed.dummy isDummy).1] at below
          exact absurd below (Nat.not_lt_zero n)
      | false =>
          have inside : n ∈ Finset.range t.sizenode :=
            Finset.mem_range.mpr (below.trans_le packed.bound)
          have few : t.taken.card < (Finset.range t.sizenode).card := by
            apply Finset.card_lt_card
            refine (Finset.ssubset_iff_of_subset (Finset.filter_subset _ _)).mpr ⟨n, inside, ?_⟩
            exact fun membership => mem_taken.mp membership isFree
          rw [Finset.card_range] at few
          exact absurd ⟨isDummy, few⟩ full

/-- The table grows only when no node is free. -/
theorem Absent.newkey_cases (absent : Absent hashes t key) (packed : Packed t) (grow : Grow) :
    (∃ t' m, t.newkey hashes grow key = .ok (t', .hash m) ∧ Inserted hashes t t' key m) ∨
      (¬ t.Roomy ∧ t.newkey hashes grow key = grow { t with lastfree := 0 } key) := by
  by_cases roomy : t.Roomy
  · exact .inl (absent.newkey_of_roomy packed roomy grow)
  · by_cases collides : t.val (hashes.mainposition t.sizenode key) ≠ .nil ∨ t.isDummy = true
    · exact .inr ⟨roomy, newkey_grow collides rfl (packed.freeBelow_of_not_roomy roomy)⟩
    · rw [not_or, not_not, Bool.not_eq_true] at collides
      obtain ⟨unset, notDummy⟩ := collides
      exact .inl ⟨_, _, newkey_main notDummy rfl unset,
        absent.inserted_main packed notDummy rfl unset⟩

end LTable

end LuaEngine.Lua
