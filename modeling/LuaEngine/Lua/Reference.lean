import LuaEngine.Lua.Table

/-!
# References

`luaL_ref` keeps a value in a table under a number of its own, `luaL_unref` gives
the number back.  The numbers given back are a list inside the table: slot 0 holds
the first one, and the slot of each the next one.
-/

namespace LuaEngine.Lua

open LuaEngine.Codec

namespace Table

def rawgeti (table : Table) (n : Int) : LuaValue := table.rawget (.number (.finite n))

def rawseti (table : Table) (n : Int) (value : LuaValue) : Table :=
  table.rawset (.number (.finite n)) value rfl

theorem rawgeti_rawseti_self (table : Table) (n : Int) (value : LuaValue) :
    (table.rawseti n value).rawgeti n = value :=
  table.rawget_rawset_self value rfl

theorem rawgeti_rawseti_of_ne (table : Table) {n other : Int} (value : LuaValue)
    (different : other ≠ n) : (table.rawseti n value).rawgeti other = table.rawgeti other := by
  apply table.rawget_rawset_of_ne
  simpa using different

end Table

/-- `lua_objlen` of a table: some border, which one depends on how the table is laid
out in memory. -/
structure Length where
  luaH_getn : Table → Nat
  border : ∀ table : Table, table.rawgeti (luaH_getn table + 1) = .nil

def FREELIST_REF : Int := 0

def LUA_REFNIL : Int := -1

/-- Of a value that is not a string. -/
def lua_tointeger : LuaValue → Int
  | .number (.finite q) => q.num.tdiv q.den
  | _ => 0

/-- The reference, and the table with the value in it. -/
def luaL_ref (length : Length) (t : Table) (value : LuaValue) : Int × Table :=
  if value = .nil then
    (LUA_REFNIL, t)
  else
    let ref := lua_tointeger (t.rawgeti FREELIST_REF)
    if ref ≠ 0 then
      (ref, (t.rawseti FREELIST_REF (t.rawgeti ref)).rawseti ref value)
    else
      let ref : Int := length.luaH_getn t + 1
      (ref, t.rawseti ref value)

def luaL_unref (t : Table) (ref : Int) : Table :=
  if ref ≥ 0 then
    (t.rawseti ref (t.rawgeti FREELIST_REF)).rawseti FREELIST_REF (.number (.finite ref))
  else
    t

/-! ## The free list -/

/-- The slots of the list that begins with the link. -/
inductive FreeFrom (t : Table) : LuaValue → List Int → Prop
  | unset : FreeFrom t .nil []
  | zero : FreeFrom t (.number (.finite 0)) []
  | slot {ref : Int} {rest : List Int} (positive : 0 < ref)
      (next : FreeFrom t (t.rawgeti ref) rest) :
      FreeFrom t (.number (.finite ref)) (ref :: rest)

/-- A table in which `luaL_ref` has kept values and `luaL_unref` has freed some. -/
structure WellFormed (t : Table) : Prop where
  free : ∃ slots, FreeFrom t (t.rawgeti FREELIST_REF) slots ∧ slots.Nodup
  refnil : t.rawgeti LUA_REFNIL = .nil

/-- The slot holds a value and is not on the free list. -/
def InUse (t : Table) (ref : Int) : Prop :=
  0 < ref ∧ t.rawgeti ref ≠ .nil ∧
    ∀ slots, FreeFrom t (t.rawgeti FREELIST_REF) slots → ref ∉ slots

@[simp]
theorem lua_tointeger_int (n : Int) : lua_tointeger (.number (.finite n)) = n := by
  simp [lua_tointeger]

namespace FreeFrom

variable {t t' : Table} {link : LuaValue} {slots : List Int}

theorem positive (free : FreeFrom t link slots) : ∀ slot ∈ slots, 0 < slot := by
  induction free with
  | unset => exact fun _ membership => absurd membership List.not_mem_nil
  | zero => exact fun _ membership => absurd membership List.not_mem_nil
  | slot positive _ inductionHypothesis =>
      intro slot membership
      rcases List.mem_cons.mp membership with rfl | later
      · exact positive
      · exact inductionHypothesis slot later

/-- The list is where it was if its own slots are. -/
theorem frame (free : FreeFrom t link slots)
    (same : ∀ slot ∈ slots, t'.rawgeti slot = t.rawgeti slot) : FreeFrom t' link slots := by
  induction free with
  | unset => exact .unset
  | zero => exact .zero
  | @slot ref rest positive next inductionHypothesis =>
      apply FreeFrom.slot positive
      rw [same ref List.mem_cons_self]
      exact inductionHypothesis fun slot membership => same slot (List.mem_cons_of_mem _ membership)

theorem ne_zero {ref : Int} (positive : 0 < ref) :
    LuaValue.number (.finite (ref : ℚ)) ≠ .number (.finite 0) := by
  intro isZero
  have isZero : (ref : ℚ) = 0 := LuaNumber.finite.inj (LuaValue.number.inj isZero)
  exact positive.ne' (Int.cast_eq_zero.mp isZero)

theorem unique (free : FreeFrom t link slots) {others : List Int}
    (again : FreeFrom t link others) : slots = others := by
  induction free generalizing others with
  | unset =>
      cases again
      rfl
  | zero =>
      generalize isLink : LuaValue.number (.finite 0) = link at again
      cases again with
      | unset => contradiction
      | zero => rfl
      | slot positive _ => exact absurd isLink.symm (ne_zero positive)
  | @slot ref rest positive next inductionHypothesis =>
      generalize isLink : LuaValue.number (.finite (ref : ℚ)) = link at again
      cases again with
      | unset => contradiction
      | zero => exact absurd isLink (ne_zero positive)
      | @slot other more _ nextOther =>
          have same : ref = other := by simpa using isLink
          subst same
          rw [inductionHypothesis nextOther]

end FreeFrom

/-- What `luaL_ref` does with a value that is not nil: the reference was not in use,
it now holds the value, and no other changes. -/
structure Allocated (t t' : Table) (ref : Int) (value : LuaValue) : Prop where
  wellFormed : WellFormed t'
  fresh : ¬ InUse t ref
  inUse : ∀ other, InUse t' other ↔ InUse t other ∨ other = ref
  holds : t'.rawgeti ref = value
  keeps : ∀ other, InUse t other → t'.rawgeti other = t.rawgeti other

theorem inUse_iff {t : Table} {slots : List Int}
    (free : FreeFrom t (t.rawgeti FREELIST_REF) slots) (ref : Int) :
    InUse t ref ↔ 0 < ref ∧ t.rawgeti ref ≠ .nil ∧ ref ∉ slots := by
  constructor
  · rintro ⟨positive, present, notFree⟩
    exact ⟨positive, present, notFree slots free⟩
  · rintro ⟨positive, present, notFree⟩
    refine ⟨positive, present, ?_⟩
    intro others again
    rw [← free.unique again]
    exact notFree

/-- A reference that is taken up: the rest of the free list is left, and nothing
changes but the reference and slot 0. -/
theorem allocated_of {t t' : Table} {ref : Int} {value : LuaValue} {slots rest : List Int}
    (wellFormed : WellFormed t) (notNil : value ≠ .nil)
    (free : FreeFrom t (t.rawgeti FREELIST_REF) slots) (positive : 0 < ref)
    (unused : ref ∈ slots ∨ t.rawgeti ref = .nil)
    (left : FreeFrom t' (t'.rawgeti FREELIST_REF) rest) (nodup : rest.Nodup)
    (others : ∀ other, other ≠ ref → (other ∈ rest ↔ other ∈ slots)) (taken : ref ∉ rest)
    (holds : t'.rawgeti ref = value)
    (same : ∀ other, other ≠ ref → other ≠ FREELIST_REF → t'.rawgeti other = t.rawgeti other) :
    Allocated t t' ref value := by
  have fresh : ¬ InUse t ref := by
    rw [inUse_iff free]
    rintro ⟨-, present, notFree⟩
    rcases unused with isFree | isNil
    · exact notFree isFree
    · exact present isNil
  refine ⟨⟨⟨rest, left, nodup⟩, ?_⟩, fresh, ?_, holds, ?_⟩
  · rw [same LUA_REFNIL _ (by decide), wellFormed.refnil]
    intro isRef
    rw [← isRef] at positive
    contradiction
  · intro other
    by_cases isRef : other = ref
    · rw [isRef, inUse_iff left, holds]
      simp [positive, notNil, taken]
    · rw [inUse_iff left, inUse_iff free, others other isRef]
      by_cases isPositive : 0 < other
      · rw [same other isRef isPositive.ne']
        simp [isRef]
      · simp [isPositive, isRef]
  · intro other used
    apply same other
    · rintro rfl
      exact fresh used
    · exact used.1.ne'

/-- No reference is free: the one after a border is taken. -/
theorem allocated_fresh (length : Length) {t : Table} (wellFormed : WellFormed t)
    {value : LuaValue} (notNil : value ≠ .nil)
    (free : FreeFrom t (t.rawgeti FREELIST_REF) []) :
    Allocated t (t.rawseti (length.luaH_getn t + 1) value) (length.luaH_getn t + 1) value := by
  have positive : (0 : Int) < length.luaH_getn t + 1 := by omega
  have same : ∀ other : Int, other ≠ length.luaH_getn t + 1 →
      (t.rawseti (length.luaH_getn t + 1) value).rawgeti other = t.rawgeti other :=
    fun _ different => t.rawgeti_rawseti_of_ne value different
  apply allocated_of wellFormed notNil free positive
  · exact .inr (length.border t)
  · rw [same FREELIST_REF positive.ne]
    exact free.frame fun _ membership => absurd membership List.not_mem_nil
  · exact List.nodup_nil
  · exact fun _ _ => Iff.rfl
  · exact List.not_mem_nil
  · exact t.rawgeti_rawseti_self _ value
  · exact fun other different _ => same other different

/-- The first free reference is taken. -/
theorem allocated_free {t : Table} (wellFormed : WellFormed t) {value : LuaValue}
    (notNil : value ≠ .nil) {ref : Int} {rest : List Int} (positive : 0 < ref)
    (isLink : t.rawgeti FREELIST_REF = .number (.finite ref))
    (next : FreeFrom t (t.rawgeti ref) rest) (nodup : (ref :: rest).Nodup) :
    Allocated t ((t.rawseti FREELIST_REF (t.rawgeti ref)).rawseti ref value) ref value := by
  obtain ⟨taken, nodup⟩ := List.nodup_cons.mp nodup
  have notFirst : FREELIST_REF ≠ ref := positive.ne
  have same : ∀ other, other ≠ ref → other ≠ FREELIST_REF →
      ((t.rawseti FREELIST_REF (t.rawgeti ref)).rawseti ref value).rawgeti other =
        t.rawgeti other := by
    intro other notRef notZero
    rw [Table.rawgeti_rawseti_of_ne _ _ notRef, Table.rawgeti_rawseti_of_ne _ _ notZero]
  have free : FreeFrom t (t.rawgeti FREELIST_REF) (ref :: rest) := by
    rw [isLink]
    exact .slot positive next
  apply allocated_of wellFormed notNil free positive
  · exact .inl List.mem_cons_self
  · rw [Table.rawgeti_rawseti_of_ne _ _ notFirst, Table.rawgeti_rawseti_self]
    apply next.frame
    intro slot membership
    apply same
    · rintro rfl
      exact taken membership
    · exact (next.positive slot membership).ne'
  · exact nodup
  · intro other notRef
    simp [notRef]
  · exact taken
  · exact Table.rawgeti_rawseti_self _ _ _
  · exact same

theorem luaL_ref_allocates (length : Length) {t : Table} (wellFormed : WellFormed t)
    {value : LuaValue} (notNil : value ≠ .nil) :
    Allocated t (luaL_ref length t value).2 (luaL_ref length t value).1 value := by
  obtain ⟨slots, free, nodup⟩ := wellFormed.free
  generalize isLink : t.rawgeti FREELIST_REF = link at free
  cases free with
  | unset =>
      have empty : FreeFrom t (t.rawgeti FREELIST_REF) [] := by
        rw [isLink]
        exact .unset
      simpa [luaL_ref, notNil, isLink, lua_tointeger] using
        allocated_fresh length wellFormed notNil empty
  | zero =>
      have empty : FreeFrom t (t.rawgeti FREELIST_REF) [] := by
        rw [isLink]
        exact .zero
      simpa [luaL_ref, notNil, isLink, lua_tointeger] using
        allocated_fresh length wellFormed notNil empty
  | @slot ref rest positive next =>
      simpa [luaL_ref, notNil, isLink, positive.ne'] using
        allocated_free wellFormed notNil positive isLink next nodup

/-- A reference that is given back is not in use, and the table stays well formed. -/
theorem luaL_unref_wellFormed {t : Table} (wellFormed : WellFormed t) {ref : Int}
    (used : InUse t ref) : WellFormed (luaL_unref t ref) := by
  obtain ⟨slots, free, nodup⟩ := wellFormed.free
  obtain ⟨positive, -, notFree⟩ := used
  have taken := notFree slots free
  have notFirst : ref ≠ FREELIST_REF := positive.ne'
  have same : ∀ other, other ≠ ref → other ≠ FREELIST_REF →
      (luaL_unref t ref).rawgeti other = t.rawgeti other := by
    intro other notRef notZero
    rw [luaL_unref, if_pos positive.le, Table.rawgeti_rawseti_of_ne _ _ notZero,
      Table.rawgeti_rawseti_of_ne _ _ notRef]
  have isNext : (luaL_unref t ref).rawgeti ref = t.rawgeti FREELIST_REF := by
    rw [luaL_unref, if_pos positive.le, Table.rawgeti_rawseti_of_ne _ _ notFirst,
      Table.rawgeti_rawseti_self]
  have isFirst : (luaL_unref t ref).rawgeti FREELIST_REF = .number (.finite ref) := by
    rw [luaL_unref, if_pos positive.le, Table.rawgeti_rawseti_self]
  refine ⟨⟨ref :: slots, ?_, List.nodup_cons.mpr ⟨taken, nodup⟩⟩, ?_⟩
  · rw [isFirst]
    apply FreeFrom.slot positive
    rw [isNext]
    apply free.frame
    intro slot membership
    apply same
    · rintro rfl
      exact taken membership
    · exact (free.positive slot membership).ne'
  · rw [same LUA_REFNIL _ (by decide), wellFormed.refnil]
    intro isRef
    rw [← isRef] at positive
    contradiction

theorem wellFormed_empty : WellFormed .empty := ⟨⟨[], .unset, List.nodup_nil⟩, rfl⟩

/-- A table holds finitely many numbers. -/
theorem exists_border (t : Table) : ∃ n : Nat, t.rawgeti (n + 1) = .nil := by
  by_contra full
  have keys : ∀ n : Nat, LuaValue.number (.finite ((n + 1 : Int) : ℚ)) ∈
      {key | key ∈ t.entries.map Prod.fst} := by
    intro n
    by_contra absent
    apply full
    refine ⟨n, ?_⟩
    rw [Table.rawgeti, Table.rawget, List.find?_eq_none.mpr]
    · rfl
    · intro entry membership
      rw [decide_eq_true_iff]
      intro isKey
      exact absent (isKey ▸ List.mem_map_of_mem membership)
  have injective : Function.Injective
      fun n : Nat => LuaValue.number (.finite ((n + 1 : Int) : ℚ)) := by
    intro n m same
    simpa using same
  exact (Set.infinite_of_injective_forall_mem injective keys) (List.finite_toSet _)

/-- The first border. -/
def firstBorder : Length where
  luaH_getn t := Nat.find (exists_border t)
  border t := Nat.find_spec (exists_border t)

end LuaEngine.Lua
