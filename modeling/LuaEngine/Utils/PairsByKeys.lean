import LuaEngine.Lua.Module
import LuaEngine.Lua.Order

/-!
# `Utils.pairsByKeys`

The keys of a table are collected, sorted and handed out with their values.  The
function reaches `table.insert` and `table.sort` through the global name `table`,
which its chunk does not keep before it calls `module`.
-/

namespace LuaEngine.Utils

open LuaEngine.Codec LuaEngine.Lua

abbrev Comparator := LuaValue → LuaValue → Except LuaValue Bool

/-- What `table.sort` makes of an array and a function. -/
structure TableLibrary where
  sort : Comparator → List LuaValue → Except LuaValue (List LuaValue)

/-- What the function sees: its environment, what the values in it that are not nil
give when they are indexed, and the metamethods of keys. -/
structure Scope where
  environment : Table
  index : LuaValue → Except LuaValue TableLibrary
  call_orderTM : LuaValue.OrderTM

/-- The upvalue `a` and `i` of `iter`, and the table `t`. -/
structure Iterator where
  a : List LuaValue
  t : Table
  i : Nat

def Iterator.iter (iterator : Iterator) : List LuaValue × Iterator :=
  let i := iterator.i + 1
  -- Lua counts from 1
  let key := iterator.a.getD (i - 1) .nil
  if key = .nil then
    ([.nil], { iterator with i := i })
  else
    ([key, iterator.t.rawget key], { iterator with i := i })

namespace PairsByKeys

def truthy : LuaValue → Bool
  | .nil => false
  | .boolean b => b
  | _ => true

/-- The global `table`, indexed. -/
def globalTable (scope : Scope) : Except LuaValue TableLibrary :=
  match scope.environment.getField "table" with
  | .nil => .error (.literal "attempt to index global 'table' (a nil value)")
  | value => scope.index value

/-- `table.insert(a, n)` -/
def insert (scope : Scope) (a : List LuaValue) (n : LuaValue) :
    Except LuaValue (List LuaValue) := do
  let _ ← globalTable scope
  .ok (a ++ [n])

/-- The local function `f`. -/
def f (scope : Scope) (desc : LuaValue) : Comparator := fun a b =>
  if truthy desc then
    LuaValue.luaV_lessthan scope.call_orderTM b a
  else
    LuaValue.luaV_lessthan scope.call_orderTM a b

end PairsByKeys

open PairsByKeys in
def pairsByKeys (scope : Scope) (t : Table) (desc : LuaValue) : Except LuaValue Iterator := do
  let a ← (t.entries.map Prod.fst).foldlM (insert scope) []
  let desc := if truthy desc then desc else .boolean false
  let library ← globalTable scope
  let a ← library.sort (f scope desc) a
  .ok ⟨a, t, 0⟩

/-- `Utils.Init` requires `Utils.Table` and `Utils.Object`, which both call
`module("Utils")`; the functions are closures. -/
def utilsEnvironment (utils : Nat) (closure : String → Nat) : Table :=
  let define (environment : Table) (name : String) : Table :=
    environment.setField name (.function (closure name))
  let afterTable := ["printTable", "deepCopy", "pairsByKeys"].foldl define
    (ll_module .empty utils "Utils")
  ["objinfo", "metainfo"].foldl define (ll_module afterTable utils "Utils")

/-- What the next calls of `iter` return. -/
def Iterator.calls : Nat → Iterator → List (List LuaValue)
  | 0, _ => []
  | n + 1, iterator => iterator.iter.1 :: calls n iterator.iter.2

/-- The keys in the order asked for. -/
def InOrder (descending : Bool) (first second : LuaValue) : Prop :=
  if descending then second.lessThan first = true else first.lessThan second = true

/-- An iterator that yields every entry of the table once, its keys in order, and then
nil. -/
def EnumeratesInOrder (result : Except LuaValue Iterator) (t : Table) (descending : Bool) : Prop :=
  ∃ iterator, result = .ok iterator ∧ ∃ pairs : List Entry, pairs.Perm t.entries ∧
    (pairs.map Prod.fst).Pairwise (InOrder descending) ∧
      ∀ n, iterator.calls (pairs.length + n) =
        pairs.map (fun entry => [entry.1, entry.2]) ++ List.replicate n [.nil]

/-- The function is the order on the values, which is strict and total. -/
structure Orders (compare : Comparator) (less : LuaValue → LuaValue → Bool)
    (values : List LuaValue) : Prop where
  decides : ∀ first ∈ values, ∀ second ∈ values,
    compare first second = .ok (less first second)
  irrefl : ∀ value, less value value = false
  trans : ∀ a b c, less a b = true → less b c = true → less a c = true
  total : ∀ first ∈ values, ∀ second ∈ values, first ≠ second →
    less first second = true ∨ less second first = true

/-- What `table.sort` is for. -/
def TableLibrary.Sorts (library : TableLibrary) : Prop :=
  ∀ compare less values, Orders compare less values →
    ∃ sorted, library.sort compare values = .ok sorted ∧ sorted.Perm values ∧
      sorted.Pairwise fun first second => less second first = false

namespace PairsByKeys

/-! ## The name `table` -/

theorem pairsByKeys_raises {scope : Scope} (hidden : scope.environment.getField "table" = .nil)
    (t : Table) (desc : LuaValue) :
    pairsByKeys scope t desc =
      .error (.literal "attempt to index global 'table' (a nil value)") := by
  have unindexed : globalTable scope =
      .error (.literal "attempt to index global 'table' (a nil value)") := by
    rw [globalTable, hidden]
  cases keys : t.entries.map Prod.fst with
  | nil =>
      rw [pairsByKeys, keys, unindexed]
      rfl
  | cons key rest =>
      rw [pairsByKeys, keys, List.foldlM_cons, insert, unindexed]
      rfl

theorem utilsEnvironment_table (utils : Nat) (closure : String → Nat) :
    (utilsEnvironment utils closure).getField "table" = .nil := by
  simp only [utilsEnvironment, List.foldl]
  rw [Table.getField_setField_of_ne _ _ (by decide +kernel),
    Table.getField_setField_of_ne _ _ (by decide +kernel),
    getField_ll_module _ _ _ (by decide +kernel),
    Table.getField_setField_of_ne _ _ (by decide +kernel),
    Table.getField_setField_of_ne _ _ (by decide +kernel),
    Table.getField_setField_of_ne _ _ (by decide +kernel),
    getField_ll_module _ _ _ (by decide +kernel)]
  rfl

/-! ## With the library in sight -/

theorem f_orders (scope : Scope) (desc : LuaValue) {keys : List LuaValue}
    (comparable : Comparable keys) :
    Orders (f scope desc)
      (fun first second =>
        if truthy desc then second.lessThan first else first.lessThan second) keys := by
  cases isTrue : truthy desc with
  | true =>
      refine ⟨?_, LuaValue.lessThan_irrefl, fun a b c first second => ?_, ?_⟩
      · intro first membership second membership'
        rw [f, isTrue]
        exact LuaValue.luaV_lessthan_eq _ comparable membership' membership
      · exact LuaValue.lessThan_trans second first
      · intro first membership second membership' different
        exact (LuaValue.lessThan_total comparable membership membership' different).symm
  | false =>
      refine ⟨?_, LuaValue.lessThan_irrefl, fun a b c => LuaValue.lessThan_trans, ?_⟩
      · intro first membership second membership'
        rw [f, isTrue]
        exact LuaValue.luaV_lessthan_eq _ comparable membership membership'
      · intro first membership second membership' different
        exact LuaValue.lessThan_total comparable membership membership' different

theorem foldlM_insert {scope : Scope} {library : TableLibrary}
    (visible : globalTable scope = .ok library) (a keys : List LuaValue) :
    keys.foldlM (insert scope) a = .ok (a ++ keys) := by
  induction keys generalizing a with
  | nil => rw [List.append_nil]; rfl
  | cons key rest inductionHypothesis =>
      have inserted : insert scope a key = .ok (a ++ [key]) := by
        rw [insert, visible]
        rfl
      rw [List.foldlM_cons, inserted]
      refine (inductionHypothesis (a ++ [key])).trans ?_
      rw [List.append_assoc]
      rfl

theorem iter_end {a : List LuaValue} (t : Table) {i : Nat} (ended : a.length ≤ i) :
    (Iterator.mk a t i).iter = ([.nil], ⟨a, t, i + 1⟩) := by
  simp [Iterator.iter, List.getElem?_eq_none ended]

theorem iter_key (t : Table) (done rest : List LuaValue) {key : LuaValue} (present : key ≠ .nil) :
    (Iterator.mk (done ++ key :: rest) t done.length).iter =
      ([key, t.rawget key], ⟨done ++ key :: rest, t, done.length + 1⟩) := by
  simp [Iterator.iter, present]

theorem calls_end {a : List LuaValue} (t : Table) {i : Nat} (ended : a.length ≤ i) (n : Nat) :
    (Iterator.mk a t i).calls n = List.replicate n [.nil] := by
  induction n generalizing i with
  | zero => rfl
  | succ n inductionHypothesis =>
      rw [Iterator.calls, iter_end t ended, inductionHypothesis (Nat.le_succ_of_le ended),
        List.replicate_succ]

/-- The calls from where the iterator stands: the keys that are left, then nil. -/
theorem calls_eq (t : Table) (done rest : List LuaValue) (present : ∀ key ∈ rest, key ≠ .nil)
    (n : Nat) :
    (Iterator.mk (done ++ rest) t done.length).calls (rest.length + n) =
      rest.map (fun key => [key, t.rawget key]) ++ List.replicate n [.nil] := by
  induction rest generalizing done with
  | nil =>
      rw [List.append_nil, List.length_nil, Nat.zero_add]
      exact calls_end t le_rfl n
  | cons key rest inductionHypothesis =>
      have later := inductionHypothesis (done ++ [key])
        fun other membership => present other (List.mem_cons_of_mem _ membership)
      rw [List.append_assoc, List.length_append] at later
      rw [List.length_cons, Nat.succ_add, Iterator.calls,
        iter_key t done rest (present key List.mem_cons_self)]
      exact congrArg (List.cons [key, t.rawget key]) later

theorem pairs_perm {t : Table} {sorted : List LuaValue}
    (sameKeys : sorted.Perm (t.entries.map Prod.fst)) :
    (sorted.map fun key => (key, t.rawget key)).Perm t.entries := by
  apply (sameKeys.map _).trans
  rw [List.map_map]
  apply List.Perm.of_eq
  apply List.map_congr_left _ |>.trans (List.map_id _)
  intro entry membership
  exact Prod.ext rfl (t.rawget_of_mem membership)

/-- What `desc or false` is taken for. -/
theorem truthy_direction (desc : LuaValue) :
    truthy (if truthy desc then desc else .boolean false) = truthy desc := by
  cases isTrue : truthy desc with
  | true => rw [if_pos rfl, isTrue]
  | false => rfl

theorem pairsByKeys_enumerates {scope : Scope} {library : TableLibrary}
    (visible : globalTable scope = .ok library) (sorts : library.Sorts) {t : Table}
    (comparable : Comparable (t.entries.map Prod.fst)) (desc : LuaValue) :
    EnumeratesInOrder (pairsByKeys scope t desc) t (truthy desc) := by
  obtain ⟨sorted, isSorted, sameKeys, ordered⟩ :=
    sorts _ _ _ (f_orders scope (if truthy desc then desc else .boolean false) comparable)
  rw [truthy_direction] at ordered
  have returned : pairsByKeys scope t desc = .ok ⟨sorted, t, 0⟩ := by
    rw [pairsByKeys, foldlM_insert visible, visible]
    exact congrArg (· >>= fun a => Except.ok (Iterator.mk a t 0)) isSorted
  have keys : (sorted.map fun key => (key, t.rawget key)).map Prod.fst = sorted := by
    rw [List.map_map]
    exact List.map_id sorted
  refine ⟨_, returned, _, pairs_perm sameKeys, ?_, ?_⟩
  · rw [keys]
    have distinct : sorted.Nodup := sameKeys.nodup_iff.mpr t.distinct
    apply (ordered.and distinct).imp_of_mem
    rintro first second membership membership' ⟨notLater, different⟩
    have total := (f_orders scope desc comparable).total first (sameKeys.mem_iff.mp membership)
      second (sameKeys.mem_iff.mp membership') different
    rw [notLater] at total
    simpa [InOrder] using total
  · intro n
    have present : ∀ key ∈ sorted, key ≠ .nil := by
      rintro key membership rfl
      obtain ⟨entry, isEntry, isNil⟩ := List.mem_map.mp (sameKeys.mem_iff.mp membership)
      have isKey := (t.present entry isEntry).1
      rw [isNil] at isKey
      contradiction
    rw [List.length_map, List.map_map]
    exact calls_eq t [] sorted present n

theorem not_enumerates {scope : Scope} (hidden : scope.environment.getField "table" = .nil)
    (t : Table) (desc : LuaValue) (descending : Bool) :
    ¬ EnumeratesInOrder (pairsByKeys scope t desc) t descending := by
  rintro ⟨iterator, returned, -⟩
  rw [pairsByKeys_raises hidden] at returned
  contradiction

end PairsByKeys

open PairsByKeys in
/-- In the environment of the module no call returns, since there `table` is nil. -/
theorem pairsByKeys_never_enumerates (utils : Nat) (closure : String → Nat)
    (index : LuaValue → Except LuaValue TableLibrary) (call_orderTM : LuaValue.OrderTM)
    (t : Table) (desc : LuaValue) :
    ¬ EnumeratesInOrder
      (pairsByKeys ⟨utilsEnvironment utils closure, index, call_orderTM⟩ t desc) t
      (truthy desc) := by
  apply not_enumerates
  exact utilsEnvironment_table utils closure

/-- `{a = true}` -/
def oneKey : Table := Table.empty.rawset (.string [97]) (.boolean true) rfl

theorem one_key_not_enumerated :
    Comparable (oneKey.entries.map Prod.fst) ∧
      ¬ EnumeratesInOrder
        (pairsByKeys ⟨utilsEnvironment 0 fun _ => 0, fun _ => .error .nil, fun _ _ => none⟩
          oneKey .nil) oneKey false := by
  constructor
  · right
    intro key membership
    exact ⟨[97], List.mem_singleton.mp membership⟩
  · apply PairsByKeys.not_enumerates
    exact PairsByKeys.utilsEnvironment_table 0 _

end LuaEngine.Utils
