import LuaEngine.Lua.Base
import LuaEngine.System.Graph
import LuaEngine.System.Outcome

/-!
# `Utils.deepCopy`

Every table met is copied anew, each time it is met, and each copy gets what
`getmetatable` says of its original.  `searchTable` records the copies, and
nothing reads it.
-/

namespace LuaEngine.Utils

open LuaEngine.Lua LuaEngine.System

/-- The heap, and the assignments to the local `searchTable`, latest first. -/
structure CopyState where
  heap : Heap
  searchTable : List (Nat × Nat)

abbrev CopyProgram := Program CopyState LuaValue

namespace DeepCopy

def onHeap (change : Heap → Except LuaValue Heap) : CopyProgram Unit := do
  let state ← Program.get
  let heap ← Program.lift (change state.heap)
  Program.modify fun state => { state with heap := heap }

/-- `{}` -/
def newTable : CopyProgram Nat := do
  let state ← Program.get
  Program.modify fun state => { state with heap := state.heap.alloc }
  pure state.heap.size

/-- `searchTable[object] = newTable` -/
def record (object newTable : Nat) : CopyProgram Unit :=
  Program.modify fun state =>
    { state with searchTable := (object, newTable) :: state.searchTable }

/-- The loop of `func` assigns to no table it visits, so `pairs(object)` gives the
entries `object` has when it begins. -/
def pairs (object : Nat) : CopyProgram (List Entry) := do
  let state ← Program.get
  pure (state.heap.table object).entries

def getmetatable (object : Nat) : CopyProgram LuaValue := do
  let state ← Program.get
  pure (state.heap.luaB_getmetatable object)

/-- `newTable[func(k)] = func(v)`, where the key is evaluated first. -/
def copyEntry (func : LuaValue → CopyProgram LuaValue) (newTable : Nat) (entry : Entry) :
    CopyProgram Unit := do
  let key ← func entry.1
  let value ← func entry.2
  onHeap fun heap => heap.luaV_settable newTable key value

/-- The inner function; the fuel bounds how deep its calls for tables nest. -/
def func : Nat → LuaValue → CopyProgram LuaValue
  | 0, .table _ => Program.unfinished
  | fuel + 1, .table object => do
      let newTable ← newTable
      record object newTable
      let entries ← pairs object
      Program.forEach (copyEntry (func fuel) newTable) entries
      let metatable ← getmetatable object
      onHeap fun heap => heap.luaB_setmetatable newTable metatable
      pure (.table newTable)
  | _, object => pure object

end DeepCopy

/-- `searchTable` is empty when a call begins. -/
def deepCopy (fuel : Nat) (heap : Heap) (object : LuaValue) :
    Outcome CopyState LuaValue LuaValue :=
  (DeepCopy.func fuel object).run ⟨heap, []⟩

namespace DeepCopy

theorem func_plain {value : LuaValue} (plain : value.handle = none) (fuel : Nat) :
    func fuel value = pure value := by
  cases value with
  | table h => contradiction
  | _ => cases fuel <;> rfl

/-- What was there is still there. -/
structure Extends (original heap : Heap) : Prop where
  size : original.size ≤ heap.size
  table : ∀ h < original.size, heap.table h = original.table h

namespace Extends

variable {original heap next : Heap}

theorem refl (heap : Heap) : Extends heap heap := ⟨le_rfl, fun _ _ => rfl⟩

theorem trans (first : Extends original heap) (second : Extends heap next) :
    Extends original next := by
  refine ⟨first.size.trans second.size, ?_⟩
  intro h old
  rw [second.table h (old.trans_le first.size), first.table h old]

theorem getmetatable (unchanged : Extends original heap) (closed : original.Closed) {h : Nat}
    (old : h < original.size) : heap.luaB_getmetatable h = original.luaB_getmetatable h := by
  unfold Heap.luaB_getmetatable Heap.luaL_getmetafield
  rw [unchanged.table h old]
  cases metatable : (original.table h).metatable with
  | none => rfl
  | some m => simp only [unchanged.table m (closed.metatable h m metatable)]

end Extends

/-- The copy of a value according to a record of copies. -/
inductive Copied (log : List (Nat × Nat)) : LuaValue → LuaValue → Prop where
  | plain {value : LuaValue} (plain : value.handle = none) : Copied log value value
  | table {h n : Nat} (recorded : (h, n) ∈ log) : Copied log (.table h) (.table n)

namespace Copied

variable {log : List (Nat × Nat)} {value copy other : LuaValue}

theorem mono (copied : Copied log value copy) {more : List (Nat × Nat)} (subset : log ⊆ more) :
    Copied more value copy := by
  cases copied with
  | plain isPlain => exact .plain isPlain
  | table recorded => exact .table (subset recorded)

theorem isKey (copied : Copied log value copy) (valid : value.isKey = true) :
    copy.isKey = true := by
  cases copied with
  | plain => exact valid
  | table => rfl

theorem ne_nil (copied : Copied log value copy) (notNil : value ≠ .nil) : copy ≠ .nil := by
  cases copied with
  | plain => exact notNil
  | table => exact LuaValue.noConfusion

theorem exists_recorded {n : Nat} (copied : Copied log value copy)
    (isTable : copy = .table n) : ∃ h, (h, n) ∈ log := by
  cases copied with
  | plain isPlain =>
      rw [isTable] at isPlain
      contradiction
  | table recorded =>
      cases isTable
      exact ⟨_, recorded⟩

/-- Copies of two values differ when no table is the copy of two. -/
theorem injective (functional : (log.map Prod.snd).Nodup) (copied : Copied log value copy)
    (otherCopied : Copied log other copy) : value = other := by
  cases copied with
  | plain isPlain =>
      cases otherCopied with
      | plain => rfl
      | table => contradiction
  | table recorded =>
      cases otherCopied with
      | plain isPlain => contradiction
      | table otherRecorded =>
          have same := List.inj_on_of_nodup_map functional recorded otherRecorded rfl
          cases same
          rfl

end Copied

/-- A copy with an entry for each entry of its original, and the metatable
`getmetatable` gives. -/
structure CopyOf (original heap : Heap) (log : List (Nat × Nat)) (h n : Nat) : Prop where
  old : h < original.size
  entries : List.Forall₂
    (fun entry copy => Copied log entry.1 copy.1 ∧ Copied log entry.2 copy.2)
    (original.table h).entries (heap.table n).entries
  metatable : (heap.table n).metatable = (original.luaB_getmetatable h).handle

theorem CopyOf.mono {original heap next : Heap} {log more : List (Nat × Nat)} {h n : Nat}
    (copy : CopyOf original heap log h n) (subset : log ⊆ more)
    (same : next.table n = heap.table n) : CopyOf original next more h n := by
  refine ⟨copy.old, ?_, ?_⟩
  · rw [same]
    exact copy.entries.imp fun _ _ both => ⟨both.1.mono subset, both.2.mono subset⟩
  · rw [same]
    exact copy.metatable

/-- The copies made between two states.  Each is a child of another one, or among
those given back, once; only a table under construction is written to. -/
structure Grown (original : Heap) (before after : CopyState) (writing : Option Nat)
    (made : List (Nat × Nat)) (given : List Nat) : Prop where
  frame : ∀ h < before.heap.size, writing ≠ some h →
    after.heap.table h = before.heap.table h
  size : after.heap.size = before.heap.size + made.length
  log : after.searchTable = made ++ before.searchTable
  numbered : made.map Prod.snd = (List.range' before.heap.size made.length).reverse
  copies : ∀ copy ∈ made, CopyOf original after.heap made copy.1 copy.2
  once : ((made.flatMap fun copy => after.heap.children copy.2) ++ given).Perm
    (made.map Prod.snd)

namespace Grown

variable {original : Heap} {before middle after : CopyState} {writing : Option Nat}
  {made more : List (Nat × Nat)} {given rest : List Nat}

theorem refl (original : Heap) (state : CopyState) (writing : Option Nat) :
    Grown original state state writing [] [] where
  frame _ _ _ := rfl
  size := rfl
  log := rfl
  numbered := rfl
  copies _ membership := absurd membership List.not_mem_nil
  once := .nil

theorem mem_bounds (grown : Grown original before after writing made given)
    {copy : Nat × Nat} (membership : copy ∈ made) :
    before.heap.size ≤ copy.2 ∧ copy.2 < after.heap.size := by
  have inRange := List.mem_map_of_mem (f := Prod.snd) membership
  rw [grown.numbered, List.mem_reverse, List.mem_range'_1] at inRange
  rw [grown.size]
  exact inRange

theorem nodup (grown : Grown original before after writing made given) :
    (made.map Prod.snd).Nodup := by
  rw [grown.numbered, List.nodup_reverse]
  exact List.nodup_range'

theorem andThen (grown : Grown original before middle writing made given)
    (later : Grown original middle after none more rest) :
    Grown original before after writing (more ++ made) (given ++ rest) where
  frame h old untouched := by
    have stillOld : h < middle.heap.size := by
      rw [grown.size]
      exact Nat.lt_add_right _ old
    rw [later.frame h stillOld (by simp), grown.frame h old untouched]
  size := by
    rw [later.size, grown.size, List.length_append]
    omega
  log := by rw [later.log, grown.log, List.append_assoc]
  numbered := by
    rw [List.map_append, later.numbered, grown.numbered, grown.size, ← List.reverse_append,
      List.range'_append_1, List.length_append, Nat.add_comm more.length]
  copies copy membership := by
    rcases List.mem_append.mp membership with new | earlier
    · exact (later.copies copy new).mono (List.subset_append_left _ _) rfl
    · apply (grown.copies copy earlier).mono (List.subset_append_right _ _)
      exact later.frame copy.2 (grown.mem_bounds earlier).2 (by simp)
  once := by
    have unchanged : (made.flatMap fun copy => after.heap.children copy.2) =
        made.flatMap fun copy => middle.heap.children copy.2 := by
      apply List.flatMap_congr
      intro copy earlier
      rw [Heap.children, later.frame copy.2 (grown.mem_bounds earlier).2 (by simp)]
      rfl
    rw [List.flatMap_append, List.map_append, unchanged]
    apply List.perm_iff_count.mpr
    intro n
    have first := grown.once.count_eq n
    have second := later.once.count_eq n
    simp only [List.count_append] at first second ⊢
    omega

/-- Writing to the table under construction. -/
theorem write {newTable : Nat} (grown : Grown original before after (some newTable) made given)
    (old : newTable < before.heap.size) (change : Table → Table) :
    Grown original before { after with heap := after.heap.update newTable change }
      (some newTable) made given := by
  have other : ∀ copy ∈ made,
      (after.heap.update newTable change).table copy.2 = after.heap.table copy.2 := by
    intro copy membership
    have bounds := grown.mem_bounds membership
    exact Heap.table_update_of_ne _ _ (by omega)
  constructor
  · intro h isOld untouched
    have different : h ≠ newTable := fun equality => untouched (congrArg some equality.symm)
    dsimp only
    rw [Heap.table_update_of_ne _ _ different]
    exact grown.frame h isOld untouched
  · rw [Heap.size_update]
    exact grown.size
  · exact grown.log
  · exact grown.numbered
  · intro copy membership
    exact (grown.copies copy membership).mono (List.Subset.refl _) (other copy membership)
  · have unchanged : (made.flatMap fun copy =>
        (after.heap.update newTable change).children copy.2) =
        made.flatMap fun copy => after.heap.children copy.2 := by
      apply List.flatMap_congr
      intro copy membership
      rw [Heap.children, other copy membership]
      rfl
    rw [unchanged]
    exact grown.once

theorem heapExtends (grown : Grown original before after none made given) :
    Extends before.heap after.heap := by
  refine ⟨?_, ?_⟩
  · rw [grown.size]
    exact Nat.le_add_right _ _
  · intro h old
    exact grown.frame h old (by simp)

end Grown

/-- Nothing in reach of the value makes the copying of it raise or go deeper than
the fuel. -/
structure Settled (original : Heap) (fuel : Nat) (value : LuaValue) : Prop where
  bounded : ∀ h, value = .table h → Bounded (ChildOf original.children) fuel h
  accepted : ∀ h, original.Reaches value h → original.Accepted h

/-- What is known of the call of `func` for a value. -/
def funcPost (original : Heap) (fuel : Nat) (value : LuaValue) (before : CopyState) :
    Postcondition CopyState LuaValue LuaValue where
  returned copy after := Settled original fuel value ∧
    ∃ made, Grown original before after none made copy.handle.toList ∧ Copied made value copy
  raised _ _ := ∃ h, original.Reaches value h ∧ ¬ original.Accepted h
  unfinished := ∃ h, value = .table h ∧ ¬ Bounded (ChildOf original.children) fuel h

theorem exists_original {log : List (Nat × Nat)} {entries copies : List Entry}
    (related : List.Forall₂
      (fun entry copy => Copied log entry.1 copy.1 ∧ Copied log entry.2 copy.2) entries copies)
    {copy : Entry} (membership : copy ∈ copies) :
    ∃ entry ∈ entries, Copied log entry.1 copy.1 ∧ Copied log entry.2 copy.2 := by
  induction related with
  | nil => contradiction
  | cons both _ inductionHypothesis =>
      rcases List.mem_cons.mp membership with rfl | later
      · exact ⟨_, List.mem_cons_self, both⟩
      · obtain ⟨entry, isEntry, copied⟩ := inductionHypothesis later
        exact ⟨entry, List.mem_cons_of_mem _ isEntry, copied⟩

/-- The table under construction has a copy of each entry visited so far. -/
structure Filling (original : Heap) (fuel : Nat) (before after : CopyState) (newTable : Nat)
    (done : List Entry) (made : List (Nat × Nat)) : Prop where
  grown : Grown original before after (some newTable) made (after.heap.children newTable)
  entries : List.Forall₂
    (fun entry copy => Copied made entry.1 copy.1 ∧ Copied made entry.2 copy.2)
    done (after.heap.table newTable).entries
  metatable : (after.heap.table newTable).metatable = none
  settled : ∀ entry ∈ done, Settled original fuel entry.1 ∧ Settled original fuel entry.2

namespace Filling

variable {original : Heap} {fuel : Nat} {before state middle after : CopyState} {newTable : Nat}
  {done : List Entry} {made first second : List (Nat × Nat)} {entry : Entry}
  {key value : LuaValue}

theorem stillThere (filling : Filling original fuel before state newTable done made)
    (unchanged : Extends original before.heap) (after : original.size ≤ newTable) :
    Extends original state.heap := by
  refine ⟨?_, ?_⟩
  · rw [filling.grown.size]
    exact unchanged.size.trans (Nat.le_add_right _ _)
  · intro t isOld
    have different : some newTable ≠ some t := by
      intro equality
      have := Option.some.inj equality
      omega
    rw [filling.grown.frame t (isOld.trans_le unchanged.size) different,
      unchanged.table t isOld]

theorem assign (filling : Filling original fuel before state newTable done made)
    (old : newTable < before.heap.size)
    (keyGrown : Grown original state middle none first key.handle.toList)
    (valueGrown : Grown original middle after none second value.handle.toList)
    (keyCopied : Copied first entry.1 key) (valueCopied : Copied second entry.2 value)
    (notNil : entry.2 ≠ .nil) (fresh : entry.1 ∉ done.map Prod.fst)
    (settled : Settled original fuel entry.1 ∧ Settled original fuel entry.2)
    (validCopy : key.isKey = true) :
    Filling original fuel before
      { after with heap := after.heap.update newTable fun table =>
        table.rawset key value validCopy }
      newTable (done ++ [entry]) (second ++ (first ++ made)) := by
  have grown := (filling.grown.andThen keyGrown).andThen valueGrown
  have unchanged : after.heap.table newTable = state.heap.table newTable := by
    apply (keyGrown.heapExtends.trans valueGrown.heapExtends).table
    rw [filling.grown.size]
    exact Nat.lt_add_right _ old
  have inside : newTable < after.heap.size := by
    rw [grown.size]
    exact Nat.lt_add_right _ old
  have allKeyCopied : Copied (second ++ (first ++ made)) entry.1 key :=
    (keyCopied.mono (List.subset_append_left first made)).mono
      (List.subset_append_right second _)
  have allValueCopied : Copied (second ++ (first ++ made)) entry.2 value :=
    valueCopied.mono (List.subset_append_left _ _)
  have related := filling.entries.imp fun _ _ both =>
    And.intro
      ((both.1.mono (List.subset_append_right first made)).mono
        (List.subset_append_right second _))
      ((both.2.mono (List.subset_append_right first made)).mono
        (List.subset_append_right second _))
  have freshCopy : key ∉ (after.heap.table newTable).entries.map Prod.fst := by
    intro membership
    rw [unchanged] at membership
    obtain ⟨copy, isCopy, sameKey⟩ := List.mem_map.mp membership
    obtain ⟨earlier, isEarlier, copied, -⟩ := exists_original related isCopy
    rw [sameKey] at copied
    rw [allKeyCopied.injective grown.nodup copied] at fresh
    exact fresh (List.mem_map_of_mem isEarlier)
  have filled : ((after.heap.update newTable fun table =>
      table.rawset key value validCopy).table newTable).entries =
        (state.heap.table newTable).entries ++ [(key, value)] := by
    rw [Heap.table_update_self _ _ inside, ← unchanged]
    exact assign_fresh freshCopy (valueCopied.ne_nil notNil)
  constructor
  · have children : (after.heap.update newTable fun table =>
        table.rawset key value validCopy).children newTable =
          state.heap.children newTable ++ key.handle.toList ++ value.handle.toList := by
      rw [Heap.children, Table.children, filled]
      simp [Heap.children, Table.children, Entry.handles]
    dsimp only
    rw [children]
    exact grown.write old _
  · dsimp only
    rw [filled]
    exact List.rel_append related (.cons ⟨allKeyCopied, allValueCopied⟩ .nil)
  · dsimp only
    rw [Heap.table_update_self _ _ inside, unchanged]
    exact filling.metatable
  · intro other membership
    rcases List.mem_append.mp membership with earlier | last
    · exact filling.settled other earlier
    · rw [List.mem_singleton.mp last]
      exact settled

end Filling

theorem onHeap_meets {change : Heap → Except LuaValue Heap} {state : CopyState} {heap : Heap}
    {post : Postcondition CopyState LuaValue Unit} (changed : change state.heap = .ok heap) :
    ((onHeap change).run state).Meets post ↔ post.returned () { state with heap := heap } := by
  simp [onHeap, changed]

section Loop

variable {original : Heap} {fuel h newTable : Nat} {before state : CopyState}
  {done rest : List Entry} {entry : Entry} {made : List (Nat × Nat)}

/-- An entry of `object` is copied, or a table in reach of `object` stands in the
way. -/
theorem copyEntry_meets (closed : original.Closed)
    (inner : ∀ value state, original.Holds value → Extends original state.heap →
      ((func fuel value).run state).Meets (funcPost original fuel value state))
    (unchanged : Extends original before.heap) (old : newTable < before.heap.size)
    (after : original.size ≤ newTable)
    (split : (original.table h).entries = done ++ entry :: rest)
    (filling : Filling original fuel before state newTable done made) :
    ((copyEntry (func fuel) newTable entry).run state).Meets
      ⟨fun _ next => ∃ made, Filling original fuel before next newTable (done ++ [entry]) made,
        fun _ _ => ∃ t, original.Reaches (.table h) t ∧ ¬ original.Accepted t,
        ¬ Bounded (ChildOf original.children) (fuel + 1) h⟩ := by
  have membership : entry ∈ (original.table h).entries := by
    rw [split]
    simp
  have tooDeep : ∀ child, entry.1 = .table child ∨ entry.2 = .table child →
      ¬ Bounded (ChildOf original.children) fuel child →
        ¬ Bounded (ChildOf original.children) (fuel + 1) h := by
    intro child isChild unbounded bounded
    exact unbounded (bounded child (Heap.mem_children.mpr ⟨entry, membership, isChild⟩))
  have stillThere := filling.stillThere unchanged after
  obtain ⟨valid, notNil⟩ := (original.table h).present entry membership
  have fresh : entry.1 ∉ done.map Prod.fst := by
    have distinct := (original.table h).distinct
    rw [split, List.map_append, List.map_cons] at distinct
    exact (List.nodup_middle.mp distinct).notMem ∘ List.mem_append_left _
  apply Program.bind_meets.mpr
  apply (inner entry.1 state (closed.key h entry membership) stillThere).consequence
  · rintro key middle ⟨keySettled, first, keyGrown, keyCopied⟩
    apply Program.bind_meets.mpr
    have stillThere := stillThere.trans keyGrown.heapExtends
    apply (inner entry.2 middle (closed.value h entry membership) stillThere).consequence
    · rintro value final ⟨valueSettled, second, valueGrown, valueCopied⟩
      have validCopy := keyCopied.isKey valid
      have assigned : final.heap.luaV_settable newTable key value =
          .ok (final.heap.update newTable fun table => table.rawset key value validCopy) := by
        rw [Heap.luaV_settable, dif_pos validCopy]
      apply (onHeap_meets assigned).mpr
      exact ⟨_, filling.assign old keyGrown valueGrown keyCopied valueCopied notNil fresh
        ⟨keySettled, valueSettled⟩ validCopy⟩
    · rintro _ _ ⟨t, reached, refused⟩
      exact ⟨t, .of_entry membership (.inr reached), refused⟩
    · rintro ⟨child, isChild, unbounded⟩
      exact tooDeep child (.inr isChild) unbounded
  · rintro _ _ ⟨t, reached, refused⟩
    exact ⟨t, .of_entry membership (.inl reached), refused⟩
  · rintro ⟨child, isChild, unbounded⟩
    exact tooDeep child (.inl isChild) unbounded

end Loop

/-- The state in which the loop of `func` begins. -/
def begun (h : Nat) (state : CopyState) : CopyState :=
  ⟨state.heap.alloc, (h, state.heap.size) :: state.searchTable⟩

theorem begun_size (h : Nat) (state : CopyState) :
    (begun h state).heap.size = state.heap.size + 1 :=
  state.heap.size_alloc

theorem begun_table {h t : Nat} {state : CopyState} (old : t < state.heap.size) :
    (begun h state).heap.table t = state.heap.table t :=
  state.heap.table_alloc old

theorem begun_extends (h : Nat) (state : CopyState) :
    Extends state.heap (begun h state).heap := by
  refine ⟨?_, fun t old => begun_table old⟩
  rw [begun_size]
  exact Nat.le_succ _

theorem Filling.start (original : Heap) (fuel h : Nat) (state : CopyState) :
    Filling original fuel (begun h state) (begun h state) state.heap.size [] [] := by
  have empty : (begun h state).heap.table state.heap.size = .empty := state.heap.table_alloc_new
  constructor
  · have childless : (begun h state).heap.children state.heap.size = [] := by
      rw [Heap.children, empty]
      rfl
    rw [childless]
    exact .refl original _ _
  · rw [empty]
    exact .nil
  · rw [empty]
    rfl
  · intro entry membership
    contradiction

/-- With its metatable set the new table is a copy. -/
theorem Filling.finish {original : Heap} {fuel h : Nat} {state final : CopyState}
    {made : List (Nat × Nat)} (isTable : h < original.size)
    (filling : Filling original fuel (begun h state) final state.heap.size
      (original.table h).entries made) :
    Grown original state
      ⟨final.heap.lua_setmetatable state.heap.size (original.luaB_getmetatable h),
        final.searchTable⟩
      none (made ++ [(h, state.heap.size)]) [state.heap.size] := by
  have grown := filling.grown.write (by simp [begun_size]) fun table =>
    table.setMetatable (original.luaB_getmetatable h).handle
  have inside : state.heap.size < final.heap.size := by
    rw [filling.grown.size, begun_size]
    omega
  have last : (final.heap.lua_setmetatable state.heap.size
      (original.luaB_getmetatable h)).table state.heap.size =
        (final.heap.table state.heap.size).setMetatable (original.luaB_getmetatable h).handle :=
    Heap.table_update_self _ _ inside
  constructor
  · intro t old _
    have different : some state.heap.size ≠ some t := by
      intro equality
      have := Option.some.inj equality
      omega
    have stillOld : t < (begun h state).heap.size := by
      rw [begun_size]
      exact Nat.lt_succ_of_lt old
    rw [← begun_table (h := h) old]
    exact grown.frame t stillOld different
  · have size := grown.size
    rw [begun_size] at size
    rw [List.length_append, List.length_singleton]
    dsimp only at size ⊢
    rw [Heap.lua_setmetatable, size]
    omega
  · have log := grown.log
    dsimp only at log ⊢
    rw [log, List.append_assoc]
    rfl
  · have numbered := grown.numbered
    rw [begun_size] at numbered
    rw [List.map_append, numbered, List.length_append, List.length_singleton,
      List.range'_succ, List.reverse_cons]
    rfl
  · intro copy membership
    rcases List.mem_append.mp membership with earlier | new
    · exact (grown.copies copy earlier).mono (List.subset_append_left _ _) rfl
    · rw [List.mem_singleton.mp new]
      refine ⟨isTable, ?_, ?_⟩
      · dsimp only
        rw [last]
        exact filling.entries.imp fun _ _ both =>
          ⟨both.1.mono (List.subset_append_left _ _), both.2.mono (List.subset_append_left _ _)⟩
      · dsimp only
        rw [last]
        rfl
  · have children : (final.heap.lua_setmetatable state.heap.size
        (original.luaB_getmetatable h)).children state.heap.size =
          final.heap.children state.heap.size := by
      rw [Heap.children, last]
      rfl
    rw [List.flatMap_append, List.map_append]
    apply List.Perm.append_right
    rw [List.flatMap_singleton, children]
    exact grown.once

theorem func_plain_meets (original : Heap) (fuel : Nat) {value : LuaValue} (state : CopyState)
    (plain : value.handle = none) :
    ((func fuel value).run state).Meets (funcPost original fuel value state) := by
  rw [func_plain plain]
  apply Program.pure_meets.mpr
  refine ⟨⟨?_, ?_⟩, [], ?_, .plain plain⟩
  · rintro h rfl
    contradiction
  · rintro h ⟨root, rfl, -⟩
    contradiction
  · rw [plain]
    exact .refl original state none

/-- When every entry is copied and the metatable accepted, nothing in reach of the
table stands in the way. -/
theorem Settled.of_entries {original : Heap} {fuel h : Nat}
    (settled : ∀ entry ∈ (original.table h).entries,
      Settled original fuel entry.1 ∧ Settled original fuel entry.2)
    (accepted : original.Accepted h) : Settled original (fuel + 1) (.table h) := by
  constructor
  · intro t equality child step
    cases equality
    obtain ⟨entry, membership, isKey | isValue⟩ := Heap.mem_children.mp step
    · exact (settled entry membership).1.bounded child isKey
    · exact (settled entry membership).2.bounded child isValue
  · rintro t ⟨root, equality, path⟩
    cases equality
    rcases Relation.ReflTransGen.cases_head path with same | ⟨child, step, onwards⟩
    · rw [← same]
      exact accepted
    · obtain ⟨entry, membership, isKey | isValue⟩ := Heap.mem_children.mp step
      · exact (settled entry membership).1.accepted t ⟨child, isKey, onwards⟩
      · exact (settled entry membership).2.accepted t ⟨child, isValue, onwards⟩

section Call

variable {original : Heap} {fuel h : Nat} {state final : CopyState}
  {made : List (Nat × Nat)}

/-- After the loop `getmetatable` reads the original's metatable, and
`setmetatable` sets it unless it is neither nil nor a table. -/
theorem finish_meets (closed : original.Closed) (isTable : h < original.size)
    (unchanged : Extends original state.heap)
    (filling : Filling original fuel (begun h state) final state.heap.size
      (original.table h).entries made) :
    ((do
      let metatable ← getmetatable h
      onHeap fun heap => heap.luaB_setmetatable state.heap.size metatable
      pure (.table state.heap.size) : CopyProgram LuaValue).run final).Meets
        (funcPost original (fuel + 1) (.table h) state) := by
  have stillThere := filling.stillThere (unchanged.trans (begun_extends h state)) unchanged.size
  have visible := stillThere.getmetatable closed isTable
  by_cases accepted : original.Accepted h
  · have set : final.heap.luaB_setmetatable state.heap.size (original.luaB_getmetatable h) =
        .ok (final.heap.lua_setmetatable state.heap.size (original.luaB_getmetatable h)) := by
      rw [Heap.luaB_setmetatable_none filling.metatable]
      exact if_pos accepted
    simp only [getmetatable, Program.bind_meets, Program.get_meets, Program.pure_meets, visible]
    apply (onHeap_meets set).mpr
    refine ⟨.of_entries filling.settled accepted, _, filling.finish isTable, ?_⟩
    apply Copied.table
    exact List.mem_append_right _ (List.mem_singleton.mpr rfl)
  · have refused : final.heap.luaB_setmetatable state.heap.size (original.luaB_getmetatable h) =
        .error (.literal "bad argument #2 to 'setmetatable' (nil or table expected)") := by
      rw [Heap.luaB_setmetatable_none filling.metatable]
      exact if_neg accepted
    simp only [getmetatable, onHeap, Program.bind_meets, Program.get_meets, Program.pure_meets,
      visible, refused, Program.lift_error, Program.raise_meets]
    exact ⟨h, .self original h, accepted⟩

theorem loop_meets (closed : original.Closed)
    (inner : ∀ value state, original.Holds value → Extends original state.heap →
      ((func fuel value).run state).Meets (funcPost original fuel value state))
    (unchanged : Extends original state.heap) :
    ((Program.forEach (copyEntry (func fuel) state.heap.size)
      (original.table h).entries).run (begun h state)).Meets
        ⟨fun _ next => ∃ made, Filling original fuel (begun h state) next state.heap.size
          (original.table h).entries made,
        fun _ _ => ∃ t, original.Reaches (.table h) t ∧ ¬ original.Accepted t,
        ¬ Bounded (ChildOf original.children) (fuel + 1) h⟩ := by
  apply Program.forEach_meets (motive := fun done next =>
    ∃ made, Filling original fuel (begun h state) next state.heap.size done made)
  · exact ⟨[], .start original fuel h state⟩
  · rintro done entry rest split next ⟨made, filling⟩
    apply copyEntry_meets closed inner (unchanged.trans (begun_extends h state)) ?_
      unchanged.size split filling
    rw [begun_size]
    exact Nat.lt_succ_self _

end Call

theorem func_meets {original : Heap} (closed : original.Closed) (fuel : Nat) (value : LuaValue)
    (state : CopyState) (holds : original.Holds value) (unchanged : Extends original state.heap) :
    ((func fuel value).run state).Meets (funcPost original fuel value state) := by
  induction fuel generalizing value state with
  | zero =>
      cases value with
      | table h => exact ⟨h, rfl, id⟩
      | _ => exact func_plain_meets original 0 state rfl
  | succ fuel inductionHypothesis =>
      cases value with
      | table h =>
          have entries : ((begun h state).heap.table h).entries = (original.table h).entries := by
            rw [(unchanged.trans (begun_extends h state)).table h (holds h rfl)]
          suffices rest : ((do
              Program.forEach (copyEntry (func fuel) state.heap.size)
                ((begun h state).heap.table h).entries
              let metatable ← getmetatable h
              onHeap fun heap => heap.luaB_setmetatable state.heap.size metatable
              pure (.table state.heap.size) : CopyProgram LuaValue).run (begun h state)).Meets
                (funcPost original (fuel + 1) (.table h) state) from rest
          apply Program.bind_meets.mpr
          rw [entries]
          apply (loop_meets closed inductionHypothesis unchanged).consequence
          · rintro _ final ⟨made, filling⟩
            exact finish_meets closed (holds h rfl) unchanged filling
          · exact fun _ _ refused => refused
          · exact fun unbounded => ⟨h, rfl, unbounded⟩
      | _ => exact func_plain_meets original (fuel + 1) state rfl

end DeepCopy

end LuaEngine.Utils
