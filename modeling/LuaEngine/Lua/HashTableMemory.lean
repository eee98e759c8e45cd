import LuaEngine.Lua.HashTableRuns

/-!
# Addresses

A dead key is known by the address of an object that may be gone, and another object may
be there by now.  Objects that are alive at the same time are at different addresses, so
no live key of a table stands behind a dead one with its address.
-/

namespace LuaEngine.Lua

open LuaEngine.Codec LuaEngine.System

/-- The hashes once the objects are at other addresses. -/
def Hashes.located (hashes : Hashes) (gcvalue : LuaValue → Nat) : Hashes :=
  { hashes with gcvalue := gcvalue }

def Hashes.Separate (hashes : Hashes) (objects : List LuaValue) : Prop :=
  ∀ a ∈ objects, ∀ b ∈ objects, hashes.gcvalue a = hashes.gcvalue b → a = b

instance (hashes : Hashes) (objects : List LuaValue) : Decidable (hashes.Separate objects) :=
  inferInstanceAs (Decidable (∀ a ∈ objects, ∀ b ∈ objects, _ → _))

theorem Hashes.Separate.mono {hashes : Hashes} {objects fewer : List LuaValue}
    (separate : hashes.Separate objects) (subset : fewer ⊆ objects) : hashes.Separate fewer :=
  fun a membership b membership' => separate a (subset membership) b (subset membership')

theorem Hashes.Separate.located {hashes : Hashes} {gcvalue : LuaValue → Nat}
    {objects : List LuaValue} (separate : hashes.Separate objects)
    (stay : ∀ o ∈ objects, gcvalue o = hashes.gcvalue o) :
    (hashes.located gcvalue).Separate objects := by
  intro a membership b membership' same
  change gcvalue a = gcvalue b at same
  rw [stay a membership, stay b membership'] at same
  exact separate a membership b membership' same

namespace LTable

variable {hashes : Hashes} {gcvalue : LuaValue → Nat} {t t' : LTable} {fuel : Nat}

/-- The objects among the keys that are not dead. -/
def objects (t : LTable) : List LuaValue :=
  (t.node.filter fun n => iscollectable n.i_key && !n.dead).map Node.i_key

theorem mem_objects {o : LuaValue} :
    o ∈ t.objects ↔ iscollectable o = true ∧ ∃ i, t.key i = o ∧ t.isDead i = false := by
  simp only [objects, List.mem_map, List.mem_filter, Bool.and_eq_true, Bool.not_eq_true']
  constructor
  · rintro ⟨n, ⟨membership, collectable, alive⟩, rfl⟩
    obtain ⟨i, -, rfl⟩ := mem_node.mp membership
    exact ⟨collectable, i, rfl, alive⟩
  · rintro ⟨collectable, i, rfl, alive⟩
    have within := lt_of_key (notNil_of_iscollectable collectable)
    exact ⟨t.gnode i, ⟨mem_node.mpr ⟨i, within, rfl⟩, collectable, alive⟩, rfl⟩

/-! ## Other addresses -/

/-- Where a key belongs does not depend on where the objects are. -/
theorem Sound.located (sound : Sound hashes t) (gcvalue : LuaValue → Nat) :
    Sound (hashes.located gcvalue) t where
  laidOut :=
    { scattered :=
        { power := sound.laidOut.scattered.power
          chained := sound.laidOut.scattered.chained
          free := sound.laidOut.scattered.free
          valid := sound.laidOut.scattered.valid
          leads := sound.laidOut.scattered.leads
          home := sound.laidOut.scattered.home
          first := sound.laidOut.scattered.first
          dead := sound.laidOut.scattered.dead
          apart := sound.laidOut.scattered.apart
          mortal := sound.laidOut.scattered.mortal }
      packed := sound.laidOut.packed }
  sizearray := sound.sizearray
  sizenode := sound.sizenode

theorem Addressed.located (addressed : Addressed hashes t)
    (stay : ∀ o ∈ t.objects, gcvalue o = hashes.gcvalue o) :
    Addressed (hashes.located gcvalue) t where
  stamped i collectable alive := by
    have inside : t.key i ∈ t.objects := mem_objects.mpr ⟨collectable, i, rfl, alive⟩
    rw [addressed.stamped i collectable alive]
    exact (stay _ inside).symm
  clear i j collectable obstructs := by
    obtain ⟨alive, dead, onWay, before⟩ := obstructs
    have inside : t.key i ∈ t.objects := mem_objects.mpr ⟨collectable, i, rfl, alive⟩
    change t.gc j ≠ gcvalue (t.key i)
    rw [stay _ inside]
    exact addressed.clear i j collectable ⟨alive, dead, onWay, before⟩

/-! ## Keys that die -/

theorem SameKeys.objects (same : SameKeys t t') : t'.objects ⊆ t.objects := by
  intro o membership
  obtain ⟨collectable, i, isKey, alive⟩ := mem_objects.mp membership
  exact mem_objects.mpr ⟨collectable, i, (same.key i).symm.trans isKey, same.alive alive⟩

/-- A key that dies was at another address than those that live on. -/
theorem SameKeys.addressed_of_separate (same : SameKeys t t') (scattered : Scattered hashes t)
    (separate : hashes.Separate t.objects) (addressed : Addressed hashes t) :
    Addressed hashes t' where
  stamped i collectable alive := by
    rw [same.key] at collectable ⊢
    rw [same.gc]
    exact addressed.stamped i collectable (same.alive alive)
  clear i j collectable obstructs := by
    rw [same.key] at collectable ⊢
    rw [same.gc]
    cases wasDead : t.isDead j with
    | true => exact addressed.clear i j collectable (same.obstructs obstructs wasDead)
    | false =>
        have alive := same.alive obstructs.alive
        have collectable' := (same.died j obstructs.dead).resolve_left (by simp [wasDead])
        rw [addressed.stamped j collectable' wasDead]
        intro place
        have sameKey := separate _ (mem_objects.mpr ⟨collectable', j, rfl, wasDead⟩) _
          (mem_objects.mpr ⟨collectable, i, rfl, alive⟩) place
        have used := notNil_of_iscollectable collectable'
        obtain rfl := scattered.eq_of_alive sameKey used wasDead alive
        exact Bool.false_ne_true (obstructs.alive.symm.trans obstructs.dead)

theorem Sound.addressed_run (sound : Sound hashes t) (separate : hashes.Separate t.objects)
    (addressed : Addressed hashes t) {command : Command} (valid : command.Valid)
    (result : command.run hashes (fuel + 1) t = .ok t') : Addressed hashes t' := by
  have scattered := sound.laidOut.scattered
  cases command with
  | set key value =>
      change t.set hashes (fuel + 1) key value = .ok t' at result
      rcases sound.set fuel key value with ⟨t₁, success, assigned⟩ | ⟨e, failure, -⟩
      · obtain rfl := Except.ok.inj (success.symm.trans result)
        exact assigned.addressed addressed
      · rw [failure] at result
        contradiction
  | setlist last =>
      rw [Command.run] at result
      split at result
      next more =>
        obtain ⟨t₁, success, -, -, addressed₁⟩ :=
          sound.luaH_resizearray more.le valid (fuel + 1)
        obtain rfl := Except.ok.inj (success.symm.trans result)
        exact addressed₁
      next =>
        obtain rfl := Except.ok.inj result
        exact addressed
  | traversetable =>
      obtain rfl := Except.ok.inj result
      exact scattered.sameKeys_traversetable.addressed_of_separate scattered separate addressed
  | cleartable marks =>
      obtain rfl := Except.ok.inj result
      exact (scattered.sameKeys_cleartable marks true).addressed_of_separate scattered separate
        addressed

/-! ## Whole runs -/

/-- What a new table may become.  Between the commands objects are collected and others
are made, but those of its keys stay where they are. -/
inductive Reached (fuel : Nat) : Hashes → LTable → Prop
  | new {hashes : Hashes} {narray nhash : Nat} {t : LTable} (bounded : narray ≤ MAXASIZE)
      (made : luaH_new narray nhash = .ok t) : Reached fuel hashes t
  | command {hashes : Hashes} {t t' : LTable} {command : Command} (reached : Reached fuel hashes t)
      (valid : command.Valid) (result : command.run hashes (fuel + 1) t = .ok t')
      (separate : hashes.Separate t'.objects) : Reached fuel hashes t'
  /-- Also of a table with weak keys and strong values. -/
  | cleartable {hashes : Hashes} {t : LTable} (reached : Reached fuel hashes t) (marks : Marks)
      (weakvalue : Bool) : Reached fuel hashes (t.cleartable marks weakvalue)
  | memory {hashes : Hashes} {t : LTable} {gcvalue : LuaValue → Nat}
      (reached : Reached fuel hashes t) (stay : ∀ o ∈ t.objects, gcvalue o = hashes.gcvalue o) :
      Reached fuel (hashes.located gcvalue) t

theorem luaH_new_objects {narray nhash : Nat} (made : luaH_new narray nhash = .ok t) :
    t.objects = [] := by
  obtain ⟨rfl, -⟩ := luaH_new_eq made
  rw [List.eq_nil_iff_forall_not_mem]
  intro o membership
  obtain ⟨collectable, i, isKey, -⟩ := mem_objects.mp membership
  rw [LTable.key, gnode_emptied] at isKey
  exact notNil_of_iscollectable collectable isKey.symm

namespace Reached

theorem sound (reached : Reached fuel hashes t) : Sound hashes t := by
  induction reached with
  | new bounded made => exact (luaH_new_sound made bounded).1
  | @command hashes t t' command _ valid result _ inductionHypothesis =>
      rcases inductionHypothesis.step fuel valid with
        ⟨t₁, success, sound, -⟩ | ⟨key, value, e, -, failure, -⟩
      · obtain rfl := Except.ok.inj (success.symm.trans result)
        exact sound
      · rw [failure] at result
        contradiction
  | cleartable _ marks weakvalue inductionHypothesis =>
      have scattered := inductionHypothesis.laidOut.scattered
      exact (scattered.sameKeys_cleartable marks weakvalue).sound inductionHypothesis
  | memory _ _ inductionHypothesis => exact inductionHypothesis.located _

theorem separate (reached : Reached fuel hashes t) : hashes.Separate t.objects := by
  induction reached with
  | new bounded made =>
      rw [luaH_new_objects made]
      exact fun a membership => absurd membership List.not_mem_nil
  | command _ _ _ separate => exact separate
  | cleartable reached marks weakvalue inductionHypothesis =>
      have scattered := reached.sound.laidOut.scattered
      exact inductionHypothesis.mono (scattered.sameKeys_cleartable marks weakvalue).objects
  | memory _ stay inductionHypothesis => exact inductionHypothesis.located stay

theorem addressed (reached : Reached fuel hashes t) : Addressed hashes t := by
  induction reached with
  | new bounded made =>
      obtain ⟨rfl, -⟩ := luaH_new_eq made
      exact addressed_emptied _ _ _ _
  | command reached valid result _ inductionHypothesis =>
      exact reached.sound.addressed_run reached.separate inductionHypothesis valid result
  | cleartable reached marks weakvalue inductionHypothesis =>
      have scattered := reached.sound.laidOut.scattered
      exact (scattered.sameKeys_cleartable marks weakvalue).addressed_of_separate scattered
        reached.separate inductionHypothesis
  | memory _ stay inductionHypothesis => exact inductionHypothesis.located stay

/-- Several commands, while no object moves. -/
theorem run (reached : Reached fuel hashes t) {commands : List Command}
    (valid : ∀ command ∈ commands, command.Valid)
    (separate : ∀ earlier ∈ commands.inits, ∀ t' ∈ (t.run hashes (fuel + 1) earlier).toOption,
      hashes.Separate t'.objects)
    (result : t.run hashes (fuel + 1) commands = .ok t') : Reached fuel hashes t' := by
  induction commands generalizing t with
  | nil =>
      obtain rfl := Except.ok.inj result
      exact reached
  | cons command commands inductionHypothesis =>
      rw [LTable.run, List.foldlM_cons] at result
      cases first : command.run hashes (fuel + 1) t with
      | error e =>
          rw [first] at result
          contradiction
      | ok t₁ =>
          rw [first] at result
          have once : t.run hashes (fuel + 1) [command] = .ok t₁ := by
            rw [LTable.run, List.foldlM_cons, first]
            rfl
          have reached₁ : Reached fuel hashes t₁ :=
            .command reached (valid command List.mem_cons_self) first
              (separate [command] (by simp) t₁ (by rw [once]; rfl))
          apply inductionHypothesis reached₁
            (fun command membership => valid command (List.mem_cons_of_mem _ membership)) ?_ result
          intro earlier isInit t₂ success
          apply separate (command :: earlier) (by simpa using isInit)
          rw [LTable.run, List.foldlM_cons, first]
          exact success

theorem crowded : Reached 0 shortHashes crowded :=
  run (.new (by decide) luaH_new_twoElements) valid_crowding (by decide +kernel) run_crowding

end Reached

end LTable

end LuaEngine.Lua
