import LuaEngine.Lua.Call
import LuaEngine.System.Graph

/-!
# Tables and the heap

A table holds no nil value, and no key that is nil or not a number; its entries
are in the order `next` visits them.  Tables are known by their handle, and the
heap only grows: nothing is collected.
-/

namespace LuaEngine.Lua

open LuaEngine.Codec LuaEngine.System

namespace LuaValue

/-- What `lua_rawset` takes as a key. -/
def isKey : LuaValue → Bool
  | nil => false
  | number .nan => false
  | _ => true

/-- The handle of a table. -/
def handle : LuaValue → Option Nat
  | table h => some h
  | _ => none

theorem handle_eq_some {value : LuaValue} {h : Nat} :
    value.handle = some h ↔ value = table h := by
  cases value <;> simp [handle]

/-- A renaming of tables; every other value is left alone. -/
def mapHandle (rename : Nat → Nat) : LuaValue → LuaValue
  | table h => table (rename h)
  | value => value

theorem mapHandle_plain {value : LuaValue} (plain : value.handle = none) (rename : Nat → Nat) :
    value.mapHandle rename = value := by
  cases value with
  | table h => contradiction
  | _ => rfl

theorem mapHandle_cancel {rename back : Nat → Nat} {value : LuaValue}
    (cancel : ∀ child, value.handle = some child → back (rename child) = child) :
    (value.mapHandle rename).mapHandle back = value := by
  cases value with
  | table h => exact congrArg table (cancel h rfl)
  | _ => rfl

@[simp]
theorem handle_mapHandle (rename : Nat → Nat) (value : LuaValue) :
    (value.mapHandle rename).handle = value.handle.map rename := by
  cases value <;> rfl

end LuaValue

abbrev Entry := LuaValue × LuaValue

namespace Entry

/-- The tables among its key and its value. -/
def handles (entry : Entry) : List Nat := entry.1.handle.toList ++ entry.2.handle.toList

def mapHandle (rename : Nat → Nat) (entry : Entry) : Entry :=
  (entry.1.mapHandle rename, entry.2.mapHandle rename)

theorem handles_mapHandle (rename : Nat → Nat) (entry : Entry) :
    (entry.mapHandle rename).handles = entry.handles.map rename := by
  simp [handles, mapHandle, Option.toList_map]

theorem mapHandle_cancel {rename back : Nat → Nat} {entry : Entry}
    (cancel : ∀ child ∈ entry.handles, back (rename child) = child) :
    (entry.mapHandle rename).mapHandle back = entry := by
  apply Prod.ext
  · apply LuaValue.mapHandle_cancel
    intro child isKey
    apply cancel
    simp [handles, isKey]
  · apply LuaValue.mapHandle_cancel
    intro child isValue
    apply cancel
    simp [handles, isValue]

end Entry

/-- The entries after `t[key] = value`; assigning nil removes the key. -/
def assign (key value : LuaValue) : List Entry → List Entry
  | [] => if value = .nil then [] else [(key, value)]
  | entry :: rest =>
      if entry.1 = key then
        if value = .nil then rest else (key, value) :: rest
      else
        entry :: assign key value rest

theorem mem_keys_assign {key value other : LuaValue} {entries : List Entry}
    (membership : other ∈ (assign key value entries).map Prod.fst) :
    other = key ∨ other ∈ entries.map Prod.fst := by
  induction entries with
  | nil =>
      rw [assign] at membership
      split at membership
      next => simp at membership
      next => simpa using membership
  | cons entry rest inductionHypothesis =>
      rw [assign] at membership
      split at membership
      next =>
        split at membership
        next => exact .inr (List.mem_cons_of_mem _ membership)
        next =>
          rcases List.mem_cons.mp membership with equality | later
          · exact .inl equality
          · exact .inr (List.mem_cons_of_mem _ later)
      next =>
        rcases List.mem_cons.mp membership with equality | later
        · rw [equality]
          exact .inr List.mem_cons_self
        · rcases inductionHypothesis later with same | earlier
          · exact .inl same
          · exact .inr (List.mem_cons_of_mem _ earlier)

theorem nodup_keys_assign {key value : LuaValue} {entries : List Entry}
    (distinct : (entries.map Prod.fst).Nodup) :
    ((assign key value entries).map Prod.fst).Nodup := by
  induction entries with
  | nil =>
      rw [assign]
      split <;> simp
  | cons entry rest inductionHypothesis =>
      rw [List.map_cons, List.nodup_cons] at distinct
      obtain ⟨fresh, distinct⟩ := distinct
      rw [assign]
      split
      next same =>
        split
        next => exact distinct
        next =>
          rw [same] at fresh
          exact List.nodup_cons.mpr ⟨fresh, distinct⟩
      next different =>
        apply List.nodup_cons.mpr
        refine ⟨?_, inductionHypothesis distinct⟩
        intro membership
        rcases mem_keys_assign membership with same | earlier
        · exact different same
        · exact fresh earlier

theorem mem_assign {key value : LuaValue} {entries : List Entry} {entry : Entry}
    (membership : entry ∈ assign key value entries) :
    (entry = (key, value) ∧ value ≠ .nil) ∨ entry ∈ entries := by
  induction entries with
  | nil =>
      rw [assign] at membership
      split at membership
      next => contradiction
      next notNil => exact .inl ⟨List.mem_singleton.mp membership, notNil⟩
  | cons first rest inductionHypothesis =>
      rw [assign] at membership
      split at membership
      next =>
        split at membership
        next => exact .inr (List.mem_cons_of_mem _ membership)
        next notNil =>
          rcases List.mem_cons.mp membership with equality | later
          · exact .inl ⟨equality, notNil⟩
          · exact .inr (List.mem_cons_of_mem _ later)
      next =>
        rcases List.mem_cons.mp membership with equality | later
        · rw [equality]
          exact .inr List.mem_cons_self
        · rcases inductionHypothesis later with added | earlier
          · exact .inl added
          · exact .inr (List.mem_cons_of_mem _ earlier)

theorem assign_fresh {key value : LuaValue} {entries : List Entry}
    (fresh : key ∉ entries.map Prod.fst) (notNil : value ≠ .nil) :
    assign key value entries = entries ++ [(key, value)] := by
  induction entries with
  | nil => rw [assign, if_neg notNil, List.nil_append]
  | cons entry rest inductionHypothesis =>
      rw [List.map_cons, List.mem_cons, not_or] at fresh
      rw [assign, if_neg (Ne.symm fresh.1), inductionHypothesis fresh.2, List.cons_append]

theorem find_assign_of_ne {key other : LuaValue} (value : LuaValue) (entries : List Entry)
    (different : other ≠ key) :
    (assign key value entries).find? (fun entry => entry.1 = other) =
      entries.find? fun entry => entry.1 = other := by
  induction entries with
  | nil =>
      rw [assign]
      split
      next => rfl
      next => simp [different.symm]
  | cons entry rest inductionHypothesis =>
      rw [assign]
      split
      next same =>
        have notOther : entry.1 ≠ other := same ▸ different.symm
        split
        next => simp [notOther]
        next => simp [notOther, different.symm]
      next => simp only [List.find?_cons, inductionHypothesis]

theorem find_assign_self {key value : LuaValue} {entries : List Entry}
    (distinct : (entries.map Prod.fst).Nodup) :
    (((assign key value entries).find? fun entry => entry.1 = key).map Prod.snd).getD .nil =
      value := by
  induction entries with
  | nil =>
      rw [assign]
      split
      next isNil => exact isNil.symm
      next => simp
  | cons entry rest inductionHypothesis =>
      rw [List.map_cons, List.nodup_cons] at distinct
      obtain ⟨fresh, distinct⟩ := distinct
      rw [assign]
      split
      next same =>
        split
        next isNil =>
          have absent : rest.find? (fun entry => entry.1 = key) = none := by
            apply List.find?_eq_none.mpr
            intro other membership
            rw [decide_eq_true_iff]
            rintro rfl
            exact fresh (same ▸ List.mem_map_of_mem membership)
          rw [absent, isNil]
          rfl
        next => simp
      next different => simpa [different] using inductionHypothesis distinct

structure Table where
  entries : List Entry
  metatable : Option Nat
  distinct : (entries.map Prod.fst).Nodup
  present : ∀ entry ∈ entries, entry.1.isKey = true ∧ entry.2 ≠ .nil

namespace Table

def empty : Table :=
  ⟨[], none, List.nodup_nil, fun _ membership => absurd membership List.not_mem_nil⟩

def rawget (table : Table) (key : LuaValue) : LuaValue :=
  ((table.entries.find? fun entry => entry.1 = key).map Prod.snd).getD .nil

theorem present_assign (table : Table) {key : LuaValue} (value : LuaValue)
    (valid : key.isKey = true) :
    ∀ entry ∈ assign key value table.entries, entry.1.isKey = true ∧ entry.2 ≠ .nil := by
  intro entry membership
  rcases mem_assign membership with ⟨rfl, notNil⟩ | earlier
  · exact ⟨valid, notNil⟩
  · exact table.present entry earlier

def rawset (table : Table) (key value : LuaValue) (valid : key.isKey = true) : Table :=
  ⟨assign key value table.entries, table.metatable, nodup_keys_assign table.distinct,
    table.present_assign value valid⟩

theorem rawget_rawset_of_ne (table : Table) {key other : LuaValue} (value : LuaValue)
    (valid : key.isKey = true) (different : other ≠ key) :
    (table.rawset key value valid).rawget other = table.rawget other := by
  rw [rawget, rawset, find_assign_of_ne value _ different]
  rfl

theorem rawget_rawset_self (table : Table) {key : LuaValue} (value : LuaValue)
    (valid : key.isKey = true) : (table.rawset key value valid).rawget key = value :=
  find_assign_self table.distinct

def setMetatable (table : Table) (metatable : Option Nat) : Table :=
  { table with metatable := metatable }

theorem rawget_of_mem (table : Table) {entry : Entry} (membership : entry ∈ table.entries) :
    table.rawget entry.1 = entry.2 := by
  have found : table.entries.find? (fun other => other.1 = entry.1) = some entry := by
    apply List.find?_eq_some_iff_append.mpr
    obtain ⟨before, after, split⟩ := List.append_of_mem membership
    refine ⟨decide_eq_true rfl, before, after, split, ?_⟩
    intro other earlier
    have distinct := table.distinct
    rw [split, List.map_append, List.map_cons] at distinct
    have different : other.1 ≠ entry.1 :=
      (List.nodup_append.mp distinct).2.2 other.1 (List.mem_map_of_mem earlier) entry.1
        List.mem_cons_self
    simpa using different
  rw [rawget, found]
  rfl

/-- The handles of tables among its keys and values, once for each occurrence. -/
def children (table : Table) : List Nat :=
  table.entries.flatMap Entry.handles

/-- The handles of tables among its values. -/
def valueChildren (table : Table) : List Nat :=
  table.entries.flatMap fun entry => entry.2.handle.toList

end Table

theorem Table.map_children (rename : Nat → Nat) (table : Table) :
    table.children.map rename = (table.entries.map (Entry.mapHandle rename)).flatMap
      Entry.handles := by
  rw [Table.children, List.map_flatMap, List.flatMap_map]
  apply List.flatMap_congr
  intro entry _
  exact (entry.handles_mapHandle rename).symm

/-- A renaming that takes the entries of a table to those of another, without
making two tables one, takes its children to the other's. -/
theorem Table.children_perm {rename : Nat → Nat} {first second : Table}
    (injective : Set.InjOn rename {child | child ∈ first.children})
    (onto : Entry.mapHandle rename '' {entry | entry ∈ first.entries} =
      {entry | entry ∈ second.entries}) :
    (first.children.map rename).Perm second.children := by
  have keyChild : ∀ entry ∈ first.entries, ∀ child, entry.1 = .table child →
      child ∈ first.children := by
    intro entry membership child isKey
    apply List.mem_flatMap.mpr
    refine ⟨entry, membership, ?_⟩
    simp [Entry.handles, isKey, LuaValue.handle]
  have distinct : (first.entries.map (Entry.mapHandle rename)).Nodup := by
    apply List.Nodup.map_on _ (List.Nodup.of_map _ first.distinct)
    intro entry membership other otherMembership same
    apply List.inj_on_of_nodup_map first.distinct membership otherMembership
    have keys : entry.1.mapHandle rename = other.1.mapHandle rename := congrArg Prod.fst same
    cases isKey : entry.1.handle with
    | none =>
        have plain : other.1.handle = none := by
          have handles := congrArg LuaValue.handle keys
          simpa [isKey] using handles.symm
        rwa [LuaValue.mapHandle_plain isKey, LuaValue.mapHandle_plain plain] at keys
    | some child =>
        have handles := congrArg LuaValue.handle keys
        rw [LuaValue.handle_mapHandle, LuaValue.handle_mapHandle, isKey] at handles
        obtain ⟨otherChild, otherKey, renamed⟩ := Option.map_eq_some_iff.mp handles.symm
        rw [LuaValue.handle_eq_some] at isKey otherKey
        rw [isKey, otherKey, injective (keyChild entry membership child isKey)
          (keyChild other otherMembership otherChild otherKey) renamed.symm]
  rw [Table.map_children]
  apply List.Perm.flatMap_right
  apply (List.perm_ext_iff_of_nodup distinct (List.Nodup.of_map _ second.distinct)).mpr
  intro entry
  rw [List.mem_map]
  exact Set.ext_iff.mp onto entry

structure Heap where
  tables : List Table

namespace Heap

def size (heap : Heap) : Nat := heap.tables.length

def table (heap : Heap) (h : Nat) : Table := heap.tables.getD h .empty

/-- `{}`; the handle of the new table is the size of the heap before. -/
def alloc (heap : Heap) : Heap := ⟨heap.tables ++ [.empty]⟩

def update (heap : Heap) (h : Nat) (change : Table → Table) : Heap :=
  ⟨heap.tables.modify h change⟩

def children (heap : Heap) (h : Nat) : List Nat := (heap.table h).children

def valueChildren (heap : Heap) (h : Nat) : List Nat := (heap.table h).valueChildren

/-- The tables in reach of a value through keys and values. -/
def Reaches (heap : Heap) (value : LuaValue) (h : Nat) : Prop :=
  ∃ root, value = .table root ∧ ReachableFrom heap.children root h

/-- The tables in reach of a value through values alone. -/
def ReachesByValue (heap : Heap) (value : LuaValue) (h : Nat) : Prop :=
  ∃ root, value = .table root ∧ ReachableFrom heap.valueChildren root h

/-- No handle that is not of the heap. -/
def Holds (heap : Heap) (value : LuaValue) : Prop := ∀ h, value = .table h → h < heap.size

theorem holds_iff (heap : Heap) (value : LuaValue) :
    heap.Holds value ↔ ∀ h ∈ value.handle, h < heap.size := by
  apply forall_congr'
  intro h
  rw [Option.mem_def, LuaValue.handle_eq_some]

structure Closed (heap : Heap) : Prop where
  key : ∀ h, ∀ entry ∈ (heap.table h).entries, heap.Holds entry.1
  value : ∀ h, ∀ entry ∈ (heap.table h).entries, heap.Holds entry.2
  metatable : ∀ h m, (heap.table h).metatable = some m → m < heap.size

@[simp]
theorem size_alloc (heap : Heap) : heap.alloc.size = heap.size + 1 := by
  simp [alloc, size]

@[simp]
theorem size_update (heap : Heap) (h : Nat) (change : Table → Table) :
    (heap.update h change).size = heap.size := by
  simp [update, size]

theorem table_alloc (heap : Heap) {h : Nat} (old : h < heap.size) :
    heap.alloc.table h = heap.table h := by
  unfold table alloc
  exact List.getD_append _ _ _ _ old

@[simp]
theorem table_alloc_new (heap : Heap) : heap.alloc.table heap.size = .empty := by
  simp [table, alloc, size, List.getD_eq_getElem?_getD]

theorem table_update_of_ne (heap : Heap) {h other : Nat} (change : Table → Table)
    (different : other ≠ h) : (heap.update h change).table other = heap.table other := by
  simp [table, update, List.getD_eq_getElem?_getD, different.symm]

theorem table_update_self (heap : Heap) {h : Nat} (change : Table → Table)
    (old : h < heap.size) : (heap.update h change).table h = change (heap.table h) := by
  unfold size at old
  simp [table, update, List.getD_eq_getElem?_getD, old]

theorem mem_children {heap : Heap} {h child : Nat} :
    child ∈ heap.children h ↔
      ∃ entry ∈ (heap.table h).entries, entry.1 = .table child ∨ entry.2 = .table child := by
  simp [children, Table.children, Entry.handles, LuaValue.handle_eq_some]

theorem mem_valueChildren {heap : Heap} {h child : Nat} :
    child ∈ heap.valueChildren h ↔
      ∃ entry ∈ (heap.table h).entries, entry.2 = .table child := by
  simp [valueChildren, Table.valueChildren, LuaValue.handle_eq_some]

theorem Reaches.self (heap : Heap) (h : Nat) : heap.Reaches (.table h) h := ⟨h, rfl, .refl⟩

/-- What an entry reaches, its table reaches. -/
theorem Reaches.of_entry {heap : Heap} {h t : Nat} {entry : Entry}
    (membership : entry ∈ (heap.table h).entries)
    (reached : heap.Reaches entry.1 t ∨ heap.Reaches entry.2 t) :
    heap.Reaches (.table h) t := by
  rcases reached with ⟨child, equality, path⟩ | ⟨child, equality, path⟩
  · exact ⟨h, rfl, .head (mem_children.mpr ⟨entry, membership, .inl equality⟩) path⟩
  · exact ⟨h, rfl, .head (mem_children.mpr ⟨entry, membership, .inr equality⟩) path⟩

instance decidableHolds (heap : Heap) (value : LuaValue) : Decidable (heap.Holds value) :=
  decidable_of_iff (∀ h ∈ value.handle, h < heap.size) (holds_iff heap value).symm

theorem table_mem_or_empty (heap : Heap) (h : Nat) :
    heap.table h ∈ heap.tables ∨ heap.table h = .empty := by
  by_cases inside : h < heap.tables.length
  · rw [table, List.getD_eq_getElem _ _ inside]
    exact .inl (List.getElem_mem inside)
  · exact .inr (List.getD_eq_default _ _ (Nat.le_of_not_lt inside))

/-- What holds of the tables of a heap and of an empty one holds of the table of any handle. -/
theorem forall_table {heap : Heap} {P : Table → Prop} (tables : ∀ table ∈ heap.tables, P table)
    (empty : P .empty) (h : Nat) : P (heap.table h) := by
  rcases heap.table_mem_or_empty h with membership | isEmpty
  · exact tables _ membership
  · rw [isEmpty]
    exact empty

theorem closed_of_tables {heap : Heap}
    (closed : ∀ table ∈ heap.tables,
      (∀ entry ∈ table.entries, heap.Holds entry.1 ∧ heap.Holds entry.2) ∧
        ∀ m ∈ table.metatable, m < heap.size) : heap.Closed := by
  have all := forall_table closed
    ⟨fun _ membership => absurd membership List.not_mem_nil,
      fun m membership => absurd membership (Option.not_mem_none m)⟩
  exact ⟨fun h entry membership => ((all h).1 entry membership).1,
    fun h entry membership => ((all h).1 entry membership).2,
    fun h m isMetatable => (all h).2 m isMetatable⟩

theorem Closed.inside {heap : Heap} (closed : heap.Closed) {value : LuaValue} {h : Nat}
    (holds : heap.Holds value) (reached : heap.Reaches value h) : h < heap.size := by
  obtain ⟨root, rfl, path⟩ := reached
  induction path with
  | refl => exact holds root rfl
  | tail _ step _ =>
      obtain ⟨entry, membership, isKey | isValue⟩ := mem_children.mp step
      · exact closed.key _ entry membership _ isKey
      · exact closed.value _ entry membership _ isValue

theorem Closed.insideByValue {heap : Heap} (closed : heap.Closed) {value : LuaValue} {h : Nat}
    (holds : heap.Holds value) (reached : heap.ReachesByValue value h) : h < heap.size := by
  obtain ⟨root, isTable, path⟩ := reached
  apply closed.inside holds
  refine ⟨root, isTable, Relation.ReflTransGen.mono ?_ _ _ path⟩
  intro parent child step
  obtain ⟨entry, membership, isValue⟩ := mem_valueChildren.mp step
  exact mem_children.mpr ⟨entry, membership, .inr isValue⟩

end Heap

/-- A value and the heap its tables are in. -/
structure TableGraph where
  heap : Heap
  object : LuaValue
  closed : heap.Closed
  holds : heap.Holds object

namespace TableGraph

/-- No cycle of tables in reach. -/
def Acyclic (graph : TableGraph) : Prop :=
  ∀ h, graph.heap.Reaches graph.object h →
    ¬ Relation.TransGen (ChildOf graph.heap.children) h h

end TableGraph

end LuaEngine.Lua
