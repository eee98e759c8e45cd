import LuaEngine.Lua.Sort
import LuaEngine.Utils.PairsByKeys

/-!
# `pairsByKeys` with the `table.sort` of the library

The array `a` is a table whose elements `1..#a` are the keys.  What `pairsByKeys` asks of
`table.sort` is what the quicksort of the library does.
-/

namespace LuaEngine.Utils

open LuaEngine.Codec LuaEngine.Lua LuaEngine.System

/-- The elements of an array. -/
def elements (values : List LuaValue) : Elements := fun k => (.nil :: values).getD k .nil

/-- The array of the elements `1..n`. -/
def arrayOf (a : Elements) (n : Nat) : List LuaValue := (List.range' 1 n).map a

/-- The order function of a call, which neither keeps a state nor sees the array. -/
def orderFunction (compare : Comparator) (x y : LuaValue) :
    Program (Sorting Unit) LuaValue Bool :=
  Program.lift (compare x y)

/-- The call of `table.sort` returns the array sorted or raises. -/
def tableLibrary : TableLibrary where
  sort compare values :=
    let sorting := Sorting.sort (orderFunction compare) (values.length + 1) values.length
    match sorting.run ⟨elements values, ()⟩ with
    | .returned _ final => .ok (arrayOf final.a values.length)
    | .raised value _ => .error value
    | .unfinished => .error .nil

variable {compare : Comparator} {less : LuaValue → LuaValue → Bool} {values : List LuaValue}

theorem arrayOf_elements (values : List LuaValue) :
    arrayOf (elements values) values.length = values := by
  apply List.ext_getElem
  · rw [arrayOf, List.length_map, List.length_range']
  · intro k within within'
    have element : elements values (k + 1) = values[k] := List.getD_eq_getElem _ _ within'
    simp only [arrayOf, List.getElem_map, List.getElem_range', Nat.one_mul]
    rw [Nat.add_comm, element]

theorem elements_mem {k : Nat} (lower : 1 ≤ k) (upper : k ≤ values.length) :
    elements values k ∈ values := by
  obtain ⟨k, rfl⟩ := Nat.exists_eq_add_of_le' lower
  have within : k < values.length := upper
  have element : elements values (k + 1) = values[k] := List.getD_eq_getElem _ _ within
  rw [element]
  exact List.getElem_mem within

theorem Orders.weakOrder (orders : Orders compare less values) :
    Sorting.WeakOrder (orderFunction compare) less (· ∈ values) := by
  refine ⟨?_, ?_, ?_⟩
  · intro x y first second state
    rw [orderFunction, orders.decides x first y second]
    exact ⟨state, rfl, rfl⟩
  · intro x y _ _ isLess
    by_contra notNotLess
    have same := orders.trans x y x isLess (Bool.eq_true_of_not_eq_false notNotLess)
    rw [orders.irrefl] at same
    contradiction
  · intro x y z first second third below above
    by_contra notNotLess
    have isLess := Bool.eq_true_of_not_eq_false notNotLess
    by_cases same : x = y
    · rw [← same, isLess] at above
      contradiction
    · rcases orders.total x first y second same with before | behind
      · rw [orders.trans z x y isLess before] at above
        contradiction
      · rw [behind] at below
        contradiction

/-- The quicksort is what `pairsByKeys` takes it for. -/
theorem tableLibrary_sorts : tableLibrary.Sorts := by
  intro compare less values orders
  obtain ⟨final, sorted, rearranged, ordered⟩ := Sorting.sort_sorts orders.weakOrder
    (s := ⟨elements values, ()⟩) (n := values.length)
    (fun k lower upper => elements_mem lower upper) (Nat.lt_succ_self values.length)
  refine ⟨arrayOf final.a values.length, ?_, ?_, ?_⟩
  · simp only [tableLibrary, sorted]
  · have perm := rearranged.perm le_rfl le_rfl
    rwa [← arrayOf, ← arrayOf, arrayOf_elements] at perm
  · rw [arrayOf, List.pairwise_map]
    apply (List.pairwise_lt_range' (s := 1) (n := values.length)).imp_of_mem
    intro i j first second apart
    rw [List.mem_range'_1] at first second
    exact ordered i j first.1 apart (by omega)

/-- Where the name `table` is in sight, the iterator of a table with numbers or with
strings for keys runs through all of it in order. -/
theorem pairsByKeys_quicksort {scope : Scope}
    (visible : PairsByKeys.globalTable scope = .ok tableLibrary) {t : Table}
    (comparable : Comparable (t.entries.map Prod.fst)) (desc : LuaValue) :
    EnumeratesInOrder (pairsByKeys scope t desc) t (PairsByKeys.truthy desc) :=
  PairsByKeys.pairsByKeys_enumerates visible tableLibrary_sorts comparable desc

def openScope : Scope where
  environment := Table.empty.setField "table" (.table 0)
  index := fun _ => .ok tableLibrary
  call_orderTM := fun _ _ => none

/-- The table with a field `true` for each of the five names, the last one set first. -/
def fiveKeys : Table :=
  [120, 122, 121, 118, 119].foldr
    (fun name t => t.rawset (.string [name]) (.boolean true) rfl) Table.empty

theorem pairsByKeys_quicksort_fiveKeys :
    EnumeratesInOrder (pairsByKeys openScope fiveKeys (.boolean true)) fiveKeys true := by
  have visible : PairsByKeys.globalTable openScope = .ok tableLibrary := by
    have field : openScope.environment.getField "table" = .table 0 :=
      Table.rawget_rawset_self _ _ rfl
    simp only [PairsByKeys.globalTable, field]
    rfl
  apply pairsByKeys_quicksort visible
  right
  intro key membership
  have isKey : key ∈ [118, 119, 120, 121, 122].map fun name => LuaValue.string [name] := by
    revert key membership
    decide
  obtain ⟨name, -, rfl⟩ := List.mem_map.mp isKey
  exact ⟨_, rfl⟩

end LuaEngine.Utils
