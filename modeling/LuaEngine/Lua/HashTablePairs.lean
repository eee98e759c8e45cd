import LuaEngine.Lua.HashTableSet

/-!
# What a table holds

The elements of the array part that are not nil, in order, and then the nodes that have a
value.  No key occurs twice among them.
-/

namespace LuaEngine.Lua

open LuaEngine.Codec LuaEngine.System

namespace LTable

variable {hashes : Hashes} {t t' : LTable} {key value k v : LuaValue}

/-- An element of the array part as an entry; the first one has the key 1. -/
def arrayEntry (element : LuaValue × Nat) : Entry :=
  (.number (cast_num (element.2 + 1 : Nat)), element.1)

def nodeEntry (n : Node) : Entry := (n.i_key, n.i_val)

def arrayEntries (t : LTable) : List Entry :=
  (t.array.zipIdx.filter fun element => element.1 ≠ .nil).map arrayEntry

def liveEntries (nodes : List Node) : List Entry :=
  (nodes.filter fun n => n.i_val ≠ .nil).map nodeEntry

def pairs (t : LTable) : List Entry := t.arrayEntries ++ liveEntries t.node

/-! ## Indices -/

theorem arrayindex_nat {i : Nat} (bound : i ≤ MAXASIZE) :
    arrayindex (.number (cast_num i)) = i := by
  have upper : (i : Int) ≤ 2 ^ 26 := by exact_mod_cast bound
  exact arrayindex_number (by omega) (by omega)

theorem mem_zipIdx {values : List LuaValue} {element : LuaValue × Nat} :
    element ∈ values.zipIdx ↔
      element.2 < values.length ∧ values.getD element.2 .nil = element.1 := by
  rw [List.mem_zipIdx_iff_getElem?, List.getD_eq_getElem?_getD]
  constructor
  · intro found
    rw [found]
    exact ⟨(List.getElem?_eq_some_iff.mp found).1, rfl⟩
  · rintro ⟨within, isValue⟩
    rw [List.getElem?_eq_getElem within] at isValue ⊢
    exact congrArg some isValue

theorem mem_arrayEntries (bounded : t.sizearray ≤ MAXASIZE) :
    (k, v) ∈ t.arrayEntries ↔
      v ≠ .nil ∧ t.InArray k ∧ t.array.getD (arrayindex k - 1).toNat .nil = v := by
  simp only [arrayEntries, List.mem_map, List.mem_filter, mem_zipIdx, decide_eq_true_eq]
  constructor
  · rintro ⟨⟨element, i⟩, ⟨⟨within, isValue⟩, notNil⟩, same⟩
    obtain ⟨rfl, rfl⟩ := Prod.ext_iff.mp same
    have within' : i < t.sizearray := within
    have index : arrayindex (.number (cast_num (i + 1 : Nat))) = (i + 1 : Nat) :=
      arrayindex_nat (by omega)
    refine ⟨notNil, ⟨?_, ?_⟩, ?_⟩
    · rw [arrayEntry, index]
      omega
    · rw [arrayEntry, index]
      omega
    · have back : ((i + 1 : Nat) - 1 : Int).toNat = i := by omega
      rw [arrayEntry, index, back]
      exact isValue
  · rintro ⟨notNil, inside, isValue⟩
    refine ⟨(v, (arrayindex k - 1).toNat), ⟨⟨inside.lt, isValue⟩, notNil⟩, ?_⟩
    have positive := inside.1
    have index : (((arrayindex k - 1).toNat + 1 : Nat) : Int) = arrayindex k := by omega
    unfold arrayEntry
    dsimp only
    rw [index, ← eq_number_of_arrayindex positive]

theorem mem_liveEntries : (k, v) ∈ liveEntries t.node ↔ v ≠ .nil ∧ t.Live k v := by
  simp only [liveEntries, List.mem_map, List.mem_filter, decide_eq_true_eq, Live]
  constructor
  · rintro ⟨n, ⟨membership, notNil⟩, same⟩
    obtain ⟨i, -, rfl⟩ := mem_node.mp membership
    obtain ⟨rfl, rfl⟩ := Prod.ext_iff.mp same
    exact ⟨notNil, i, rfl, rfl⟩
  · rintro ⟨notNil, i, rfl, rfl⟩
    have within : i < t.sizenode := by
      by_contra outside
      apply notNil
      rw [val, gnode_of_le (not_lt.mp outside)]
      rfl
    exact ⟨t.gnode i, ⟨mem_node.mpr ⟨i, within, rfl⟩, notNil⟩, rfl⟩

namespace Scattered

theorem not_inArray_of_live (scattered : Scattered hashes t) (isValue : v ≠ .nil)
    (live : t.Live k v) : ¬ t.InArray k := by
  obtain ⟨i, rfl, holds⟩ := live
  exact scattered.apart i (scattered.key_of_val (holds ▸ isValue))

/-- The entries are what the table maps its keys to. -/
theorem mem_pairs (scattered : Scattered hashes t) (bounded : t.sizearray ≤ MAXASIZE) :
    (k, v) ∈ t.pairs ↔ v ≠ .nil ∧ t.Maps k v := by
  rw [pairs, List.mem_append, mem_arrayEntries bounded, mem_liveEntries]
  by_cases inside : t.InArray k
  · rw [maps_of_inArray inside]
    constructor
    · rintro (⟨isValue, -, holds⟩ | ⟨isValue, live⟩)
      · exact ⟨isValue, holds⟩
      · exact absurd inside (scattered.not_inArray_of_live isValue live)
    · rintro ⟨isValue, holds⟩
      exact .inl ⟨isValue, inside, holds⟩
  · rw [maps_of_not_inArray inside]
    constructor
    · rintro (⟨-, inside', -⟩ | live)
      · exact absurd inside' inside
      · exact live
    · exact .inr

end Scattered

/-! ## No key occurs twice -/

theorem nodup_arrayKeys (t : LTable) : (t.arrayEntries.map Prod.fst).Nodup := by
  have indices : (t.array.zipIdx.map Prod.snd).Nodup := by
    rw [List.zipIdx_map_snd]
    exact List.nodup_range'
  have filtered : ((t.array.zipIdx.filter fun element => element.1 ≠ .nil).map Prod.snd).Nodup :=
    (List.filter_sublist.map Prod.snd).nodup indices
  have keys : t.arrayEntries.map Prod.fst =
      ((t.array.zipIdx.filter fun element => element.1 ≠ .nil).map Prod.snd).map
        fun i : Nat => .number (cast_num (i + 1 : Nat)) := by
    rw [arrayEntries, List.map_map, List.map_map]
    rfl
  rw [keys]
  refine filtered.map ?_
  intro i j same
  have equal : ((i + 1 : Nat) : Int) = (j + 1 : Nat) := by
    rw [LuaValue.number.injEq, cast_num, cast_num, LuaNumber.finite.injEq] at same
    exact_mod_cast same
  omega

theorem Scattered.nodup_liveKeys (scattered : Scattered hashes t) :
    ((liveEntries t.node).map Prod.fst).Nodup := by
  rw [liveEntries, List.map_map, List.Nodup, List.pairwise_map]
  apply List.Pairwise.imp_of_mem (R := fun n n' : Node => n.i_val ≠ .nil → n'.i_val ≠ .nil →
    n.i_key ≠ n'.i_key)
  · intro n n' membership membership' distinct
    exact distinct (of_decide_eq_true (List.mem_filter.mp membership).2)
      (of_decide_eq_true (List.mem_filter.mp membership').2)
  · apply List.Pairwise.filter
    rw [List.pairwise_iff_getElem]
    intro i j within within' below isValue isValue' sameKey
    have node : ∀ i (within : i < t.node.length), t.gnode i = t.node[i] := by
      intro i within
      rw [gnode, List.getD_eq_getElem?_getD, List.getElem?_eq_getElem within]
      rfl
    rw [← node i within] at isValue sameKey
    rw [← node j within'] at isValue' sameKey
    have same := scattered.eq_of_alive sameKey (scattered.key_of_val isValue)
      (scattered.alive_of_val isValue) (scattered.alive_of_val isValue')
    omega

theorem Scattered.nodup_keys (scattered : Scattered hashes t) (bounded : t.sizearray ≤ MAXASIZE) :
    (t.pairs.map Prod.fst).Nodup := by
  rw [pairs, List.map_append]
  refine List.Nodup.append (nodup_arrayKeys t) scattered.nodup_liveKeys ?_
  intro k first second
  obtain ⟨⟨k, v⟩, inArray, rfl⟩ := List.mem_map.mp first
  obtain ⟨⟨k', v'⟩, inNodes, rfl⟩ := List.mem_map.mp second
  obtain ⟨isValue, live⟩ := mem_liveEntries.mp inNodes
  exact scattered.not_inArray_of_live isValue live ((mem_arrayEntries bounded).mp inArray).2.1

end LTable

end LuaEngine.Lua
