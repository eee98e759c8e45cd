import LuaEngine.Lua.Call

/-!
# Comparison

Numbers are compared as numbers and strings as sequences of unsigned bytes, in the
C locale; other values have an order only where a metamethod gives them one.
-/

namespace LuaEngine.Lua

open LuaEngine.Codec

def LuaNumber.luai_numlt : LuaNumber → LuaNumber → Bool
  | finite q, finite q' => decide (q < q')
  | finite _, infinite negative => !negative
  | infinite negative, finite _ => negative
  | infinite negative, infinite negative' => negative && !negative'
  | nan, _ => false
  | _, nan => false

/-- `l_strcmp(ls, rs) < 0` -/
def l_strcmp_lt (ls rs : Bytes) : Bool :=
  decide (ls.map UInt8.toNat < rs.map UInt8.toNat)

namespace LuaValue

def ttype : LuaValue → Nat
  | nil => 0
  | boolean _ => 1
  | lightuserdata _ => 2
  | number _ => 3
  | string _ => 4
  | table _ => 5
  | function _ => 6
  | userdata _ => 7
  | thread _ => 8

def luaG_ordererror (first second : LuaValue) : LuaValue :=
  if first.typename.toList[2]? = second.typename.toList[2]? then
    .literal ("attempt to compare two " ++ first.typename ++ " values")
  else
    .literal ("attempt to compare " ++ first.typename ++ " with " ++ second.typename)

/-- What the `__lt` metamethod that two values share says, if they share one. -/
abbrev OrderTM := LuaValue → LuaValue → Option (Except LuaValue Bool)

/-- `l < r` -/
def luaV_lessthan (call_orderTM : OrderTM) (l r : LuaValue) : Except LuaValue Bool :=
  match l, r with
  | number n, number n' => .ok (n.luai_numlt n')
  | string s, string s' => .ok (l_strcmp_lt s s')
  | _, _ =>
      if l.ttype = r.ttype then
        match call_orderTM l r with
        | some result => result
        | none => .error (luaG_ordererror l r)
      else
        .error (luaG_ordererror l r)

/-- The order of two numbers or two strings. -/
def lessThan : LuaValue → LuaValue → Bool
  | number n, number n' => n.luai_numlt n'
  | string s, string s' => l_strcmp_lt s s'
  | _, _ => false

end LuaValue

/-- Numbers only, or strings only. -/
def Comparable (values : List LuaValue) : Prop :=
  (∀ value ∈ values, ∃ n, value = .number n ∧ n ≠ .nan) ∨ ∀ value ∈ values, ∃ s, value = .string s

theorem LuaNumber.luai_numlt_irrefl (n : LuaNumber) : n.luai_numlt n = false := by
  cases n <;> simp [luai_numlt]

theorem LuaNumber.luai_numlt_trans {a b c : LuaNumber} (first : a.luai_numlt b = true)
    (second : b.luai_numlt c = true) : a.luai_numlt c = true := by
  cases a <;> cases b <;> cases c <;> simp_all [luai_numlt]
  exact first.trans second

theorem LuaNumber.luai_numlt_total {a b : LuaNumber} (isNumber : a ≠ .nan)
    (isNumber' : b ≠ .nan) (different : a ≠ b) :
    a.luai_numlt b = true ∨ b.luai_numlt a = true := by
  cases a with
  | finite q =>
      cases b with
      | finite q' =>
          have distinct : q ≠ q' := fun same => different (congrArg finite same)
          simpa [luai_numlt] using lt_or_gt_of_ne distinct
      | infinite negative => cases negative <;> simp [luai_numlt]
      | nan => contradiction
  | infinite negative =>
      cases b with
      | finite q' => cases negative <;> simp [luai_numlt]
      | infinite negative' => cases negative <;> cases negative' <;> simp_all [luai_numlt]
      | nan => contradiction
  | nan => contradiction

theorem l_strcmp_lt_irrefl (s : Bytes) : l_strcmp_lt s s = false := by simp [l_strcmp_lt]

theorem l_strcmp_lt_trans {a b c : Bytes} (first : l_strcmp_lt a b = true)
    (second : l_strcmp_lt b c = true) : l_strcmp_lt a c = true := by
  rw [l_strcmp_lt, decide_eq_true_iff] at first second ⊢
  exact lt_trans first second

theorem l_strcmp_lt_total {a b : Bytes} (different : a ≠ b) :
    l_strcmp_lt a b = true ∨ l_strcmp_lt b a = true := by
  rw [l_strcmp_lt, l_strcmp_lt, decide_eq_true_iff, decide_eq_true_iff]
  apply lt_or_gt_of_ne
  intro same
  exact different (List.map_injective_iff.mpr (fun _ _ => UInt8.toNat_inj.mp) same)

namespace LuaValue

theorem lessThan_irrefl (value : LuaValue) : value.lessThan value = false := by
  cases value with
  | number n => exact n.luai_numlt_irrefl
  | string s => exact l_strcmp_lt_irrefl s
  | _ => rfl

theorem lessThan_trans {a b c : LuaValue} (first : a.lessThan b = true)
    (second : b.lessThan c = true) : a.lessThan c = true := by
  cases a <;> cases b <;> first | contradiction | skip
  · cases c <;> first | contradiction | skip
    exact LuaNumber.luai_numlt_trans first second
  · cases c <;> first | contradiction | skip
    exact l_strcmp_lt_trans first second

theorem lessThan_total {values : List LuaValue} (comparable : Comparable values)
    {first second : LuaValue} (membership : first ∈ values) (membership' : second ∈ values)
    (different : first ≠ second) :
    first.lessThan second = true ∨ second.lessThan first = true := by
  rcases comparable with numbers | strings
  · obtain ⟨n, rfl, isNumber⟩ := numbers first membership
    obtain ⟨n', rfl, isNumber'⟩ := numbers second membership'
    exact LuaNumber.luai_numlt_total isNumber isNumber' fun same => different (congrArg number same)
  · obtain ⟨s, rfl⟩ := strings first membership
    obtain ⟨s', rfl⟩ := strings second membership'
    exact l_strcmp_lt_total fun same => different (congrArg string same)

theorem luaV_lessthan_eq (call_orderTM : OrderTM) {values : List LuaValue}
    (comparable : Comparable values) {first second : LuaValue} (membership : first ∈ values)
    (membership' : second ∈ values) :
    luaV_lessthan call_orderTM first second = .ok (first.lessThan second) := by
  rcases comparable with numbers | strings
  · obtain ⟨n, rfl, -⟩ := numbers first membership
    obtain ⟨n', rfl, -⟩ := numbers second membership'
    rfl
  · obtain ⟨s, rfl⟩ := strings first membership
    obtain ⟨s', rfl⟩ := strings second membership'
    rfl

end LuaValue

end LuaEngine.Lua
