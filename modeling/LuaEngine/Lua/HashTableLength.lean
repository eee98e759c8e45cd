import LuaEngine.Lua.HashTableRuns
import LuaEngine.Lua.Reference

/-!
# The length of a table

The length is a border: there is something at it, unless it is zero, and nothing behind
it.  It is searched for in the array part if that ends with nil, and else among the nodes,
where doubling an index finds an absent one.
-/

namespace LuaEngine.Lua

open LuaEngine.Codec LuaEngine.System

namespace LTable

/-! ## Search -/

section Search

variable {present : Nat → Bool} {fuel i j n : Nat}

structure Border (present : Nat → Bool) (n : Nat) : Prop where
  reached : n = 0 ∨ present n = true
  behind : present (n + 1) = false

theorem boundary_border (below : i < j) (enough : j - i ≤ fuel) (reached : i = 0 ∨ present i = true)
    (absent : present j = false) :
    Border present (boundary present fuel i j) ∧ boundary present fuel i j < j := by
  induction fuel generalizing i j with
  | zero => omega
  | succ fuel inductionHypothesis =>
      unfold boundary
      split
      next apart =>
        dsimp only
        split
        next isPresent =>
          exact inductionHypothesis (by omega) (by omega) (.inr isPresent) absent
        next isAbsent =>
          obtain ⟨border, lower⟩ := @inductionHypothesis i ((i + j) / 2) (by omega)
            (by omega) reached (by simpa using isAbsent)
          exact ⟨border, by omega⟩
      next =>
        obtain rfl : j = i + 1 := by omega
        exact ⟨⟨reached, absent⟩, below⟩

theorem linear_border (positive : 0 < i) (before : ∀ k, 0 < k → k < i → present k = true)
    (absent : ∃ k, i ≤ k ∧ k < i + fuel ∧ present k = false) :
    Border present (linear present fuel i) ∧ linear present fuel i < i + fuel := by
  induction fuel generalizing i with
  | zero =>
      obtain ⟨k, lower, upper, -⟩ := absent
      omega
  | succ fuel inductionHypothesis =>
      unfold linear
      split
      next isPresent =>
        obtain ⟨k, lower, upper, isAbsent⟩ := absent
        have different : k ≠ i := by
          rintro rfl
          rw [isPresent] at isAbsent
          contradiction
        obtain ⟨border, bound⟩ := inductionHypothesis (show 0 < i + 1 by omega)
          (fun k isPositive below => by
            rcases Nat.eq_or_lt_of_le (Nat.le_of_lt_succ below) with rfl | earlier
            · exact isPresent
            · exact before k isPositive earlier)
          ⟨k, by omega, by omega, isAbsent⟩
        exact ⟨border, by omega⟩
      next isAbsent =>
        refine ⟨⟨?_, ?_⟩, by omega⟩
        · by_cases isFirst : i = 1
          · exact .inl (by omega)
          · exact .inr (before (i - 1) (by omega) (by omega))
        · rw [Nat.sub_add_cancel positive]
          simpa using isAbsent

end Search

/-! ## The table -/

section Length

variable {hashes : Hashes} {t : LTable}

theorem present_iff {i : Nat} (bound : i < 2 ^ 31) :
    t.present hashes i = true ↔ t.get hashes (.number (cast_num i)) ≠ .nil := by
  have upper : (i : Int) < 2 ^ 31 := by exact_mod_cast bound
  rw [present, decide_eq_true_eq, get, luaH_get_cast_num (by omega) upper]

theorem present_array {i : Nat} (positive : 0 < i) (inside : i ≤ t.sizearray) :
    t.present hashes i = true ↔ t.array.getD (i - 1) .nil ≠ .nil := by
  have index : ((i : Int) - 1).toNat = i - 1 := by omega
  rw [present, decide_eq_true_eq, luaH_getnum, if_pos (by omega), read, index]

/-- There are fewer keys than places, so some index is absent. -/
theorem Sound.exists_absent (sound : Sound hashes t) :
    ∃ k, 1 ≤ k ∧ k < 1 + (t.sizearray + t.sizenode + 1) ∧ t.present hashes k = false := by
  by_contra all
  have size : t.sizearray ≤ 2 ^ 26 := sound.sizearray
  have nodes : t.sizenode ≤ 2 ^ 26 := sound.sizenode
  let keys := (List.range' 1 (t.sizearray + t.sizenode + 1)).map fun i : Nat =>
    LuaValue.number (cast_num i)
  have distinct : keys.Nodup := by
    refine List.Nodup.map ?_ List.nodup_range'
    intro i j same
    rw [LuaValue.number.injEq, cast_num, cast_num, LuaNumber.finite.injEq] at same
    exact_mod_cast same
  have subset : keys ⊆ t.pairs.map Prod.fst := by
    intro key membership
    obtain ⟨i, inside, rfl⟩ := List.mem_map.mp membership
    rw [List.mem_range'_1] at inside
    have isPresent : t.present hashes i = true := by
      by_contra isAbsent
      exact all ⟨i, inside.1, inside.2, by simpa using isAbsent⟩
    have isValue := (present_iff (by omega)).mp isPresent
    exact List.mem_map.mpr ⟨_, sound.mem_pairs_get isValue, rfl⟩
  have few := (distinct.subperm subset).length_le
  have entries : t.pairs.length ≤ t.sizearray + t.sizenode := by
    rw [pairs, List.length_append, arrayEntries, liveEntries, List.length_map, List.length_map]
    apply Nat.add_le_add
    · refine (List.length_filter_le _ _).trans ?_
      rw [List.length_zipIdx]
      rfl
    · exact List.length_filter_le _ _
  rw [List.length_map, List.length_range', List.length_map] at few
  omega

theorem Sound.unbound_searchFrom (sound : Sound hashes t) {fuel i j : Nat} (below : i < j)
    (bound : j ≤ MAX_INT) (enough : MAX_INT < j * 2 ^ fuel)
    (reached : i = 0 ∨ t.present hashes i = true) :
    Border (t.present hashes) (t.unbound_searchFrom hashes fuel i j) ∧
      t.unbound_searchFrom hashes fuel i j < MAX_INT := by
  have size : t.sizearray ≤ 2 ^ 26 := sound.sizearray
  have nodes : t.sizenode ≤ 2 ^ 26 := sound.sizenode
  induction fuel generalizing i j with
  | zero =>
      rw [Nat.pow_zero] at enough
      omega
  | succ fuel inductionHypothesis =>
      rw [LTable.unbound_searchFrom]
      split
      next isPresent =>
        split
        next =>
          obtain ⟨border, upper⟩ := linear_border (Nat.one_pos)
            (fun k positive below => absurd positive (by omega)) sound.exists_absent
          exact ⟨border, upper.trans_le (by rw [MAX_INT]; omega)⟩
        next =>
          apply inductionHypothesis (by omega) (by omega) _ (.inr isPresent)
          rwa [Nat.mul_assoc, ← Nat.pow_succ']
      next isAbsent =>
        obtain ⟨border, upper⟩ := @boundary_border (t.present hashes) (j - i) i j below le_rfl
          reached (by simpa using isAbsent)
        exact ⟨border, upper.trans_le bound⟩

theorem Sound.luaH_getn (sound : Sound hashes t) :
    Border (t.present hashes) (t.luaH_getn hashes) ∧ t.luaH_getn hashes < MAX_INT := by
  have size : t.sizearray ≤ 2 ^ 26 := sound.sizearray
  rw [LTable.luaH_getn]
  split
  next ends =>
    obtain ⟨positive, isNil⟩ := ends
    obtain ⟨border, below⟩ := @boundary_border
      (fun m => decide (t.array.getD (m - 1) .nil ≠ .nil)) t.sizearray 0 t.sizearray positive
      (Nat.sub_le _ _) (.inl rfl) (decide_eq_false (not_not_intro isNil))
    generalize boundary (fun m => decide (t.array.getD (m - 1) .nil ≠ .nil)) t.sizearray 0
      t.sizearray = n at border below
    obtain ⟨reached, behind⟩ := border
    refine ⟨⟨?_, ?_⟩, by rw [MAX_INT]; omega⟩
    · rcases Nat.eq_zero_or_pos n with isZero | positive'
      · exact .inl isZero
      · right
        rw [present_array positive' below.le]
        exact of_decide_eq_true (reached.resolve_left positive'.ne')
    · rw [← Bool.not_eq_true, present_array (Nat.succ_pos n) below]
      exact of_decide_eq_false behind
  next ends =>
    have reached : t.sizearray = 0 ∨ t.present hashes t.sizearray = true := by
      rcases Nat.eq_zero_or_pos t.sizearray with isZero | positive
      · exact .inl isZero
      · right
        rw [present_array positive le_rfl]
        exact fun isNil => ends ⟨positive, isNil⟩
    split
    next isDummy =>
      refine ⟨⟨reached, ?_⟩, by rw [MAX_INT]; omega⟩
      rw [← Bool.not_eq_true, present_iff (by omega), not_not]
      apply sound.laidOut.scattered.get_eq_of_maps
      intro v isValue
      have outside : ¬ t.InArray (.number (cast_num (t.sizearray + 1 : Nat))) := by
        rw [InArray, arrayindex_number (by omega) (by omega)]
        omega
      rw [maps_of_not_inArray outside]
      refine iff_of_false ?_ isValue
      rintro ⟨i, isKey, -⟩
      rw [(sound.laidOut.packed.dummy isDummy).2 i] at isKey
      contradiction
    next =>
      apply sound.unbound_searchFrom (Nat.lt_succ_self _) _ _ reached
      · unfold MAX_INT
        omega
      · unfold MAX_INT
        omega

/-- Whatever its layout, the length of a table is a border of the table it stands for. -/
theorem border_toTable (sound : Sound hashes t) :
    (t.luaH_getn hashes = 0 ∨ sound.toTable.rawgeti (t.luaH_getn hashes) ≠ .nil) ∧
      sound.toTable.rawgeti (t.luaH_getn hashes + 1) = .nil := by
  obtain ⟨⟨reached, behind⟩, bound⟩ := sound.luaH_getn
  have upper : t.luaH_getn hashes < 2 ^ 31 - 3 := bound
  rw [Table.rawgeti, Table.rawgeti, sound.rawget_toTable, sound.rawget_toTable]
  refine ⟨reached.imp_right (present_iff (by omega)).mp, ?_⟩
  rw [← Bool.not_eq_true, present_iff (by omega), not_not] at behind
  exact_mod_cast behind

end Length

theorem border_toTable_crowded :
    (crowded.luaH_getn shortHashes = 0 ∨
        sound_crowded.toTable.rawgeti (crowded.luaH_getn shortHashes) ≠ .nil) ∧
      sound_crowded.toTable.rawgeti (crowded.luaH_getn shortHashes + 1) = .nil :=
  border_toTable sound_crowded

end LTable

end LuaEngine.Lua
