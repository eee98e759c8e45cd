import LuaEngine.Lua.Table
import LuaEngine.System.Chain

/-!
# Tables as they are laid out

A table has an array for the values of the first positive integers and a node vector for
the rest.  A node is found by going along the chain that begins at the main position of
its key; a key that finds its main position taken goes to a free node or drives out a
node that is not at home there.
-/

namespace LuaEngine.Lua

open LuaEngine.Codec LuaEngine.System

/-! ## Numbers -/

def luai_numeq (a b : LuaNumber) : Bool := a = b && a ≠ .nan

/-- `(int)n`; what is out of range becomes the least integer. -/
def lua_number2int : LuaNumber → Int
  | .finite q =>
      let k := q.num.tdiv q.den
      if -2 ^ 31 ≤ k ∧ k < 2 ^ 31 then k else -2 ^ 31
  | _ => -2 ^ 31

def cast_num (k : Int) : LuaNumber := .finite k

/-- `log_2[x]` -/
def log_2 : List Nat :=
  [0] ++ List.replicate 1 1 ++ List.replicate 2 2 ++ List.replicate 4 3 ++ List.replicate 8 4 ++
    List.replicate 16 5 ++ List.replicate 32 6 ++ List.replicate 64 7 ++ List.replicate 128 8

def luaO_log2 (x : Nat) : Int :=
  if 256 ≤ x then 8 + luaO_log2 (x >>> 8) else (log_2.getD x 0 : Int) - 1
termination_by x
decreasing_by
  rw [Nat.shiftRight_eq_div_pow]
  exact Nat.div_lt_self (by omega) (by decide)

def ceillog2 (x : Nat) : Nat := (luaO_log2 (x - 1) + 1).toNat

/-! ## The layout -/

def luaO_rawequalObj : LuaValue → LuaValue → Bool
  | .number n, .number n' => luai_numeq n n'
  | t1, t2 => t1 = t2

structure Node where
  i_val : LuaValue
  /-- Of a dead key the object it was is kept. -/
  i_key : LuaValue
  /-- The pointer in the key, which stays there when the object is gone. -/
  gc : Nat
  /-- The type of the key is `LUA_TDEADKEY`. -/
  dead : Bool
  next : Option Nat
  deriving DecidableEq

def dummynode_ : Node := ⟨.nil, .nil, 0, false, none⟩

/-- What the hash of a key is computed from: the words of a double, the hash kept with a
string, the address of an object. -/
structure Hashes where
  number : LuaNumber → Nat
  string : Bytes → Nat
  pointer : LuaValue → Nat
  /-- Where a collectable value is at the time; a string that was collected may be made
  again elsewhere. -/
  gcvalue : LuaValue → Nat

structure LTable where
  array : List LuaValue
  node : List Node
  /-- The node vector is the shared `dummynode`. -/
  isDummy : Bool
  /-- Every free node is below it. -/
  lastfree : Nat
  deriving DecidableEq

inductive TableError where
  /-- `luaG_runerror` -/
  | runerror (message : String)
  | unfinished
  deriving DecidableEq

/-- Where a `TValue*` into a table points to. -/
inductive Slot where
  | array (i : Nat)
  | hash (i : Nat)
  | nilobject
  deriving DecidableEq

/-- max size of array part is 2^MAXBITS -/
def MAXBITS : Nat := 26

def MAXASIZE : Nat := 2 ^ MAXBITS

namespace LTable

def sizearray (t : LTable) : Nat := t.array.length

def sizenode (t : LTable) : Nat := t.node.length

def gnode (t : LTable) (i : Nat) : Node := t.node.getD i dummynode_

def gnext (t : LTable) (i : Nat) : Option Nat := (t.gnode i).next

def setNode (t : LTable) (i : Nat) (n : Node) : LTable := { t with node := t.node.set i n }

def read (t : LTable) : Slot → LuaValue
  | .array i => t.array.getD i .nil
  | .hash i => (t.gnode i).i_val
  | .nilobject => .nil

/-- `setobj2t(L, slot, value)` -/
def write (t : LTable) (slot : Slot) (value : LuaValue) : LTable :=
  match slot with
  | .array i => { t with array := t.array.set i value }
  | .hash i => t.setNode i { t.gnode i with i_val := value }
  | .nilobject => t

end LTable

/-! ## Hashing -/

def lmod (s size : Nat) : Nat := s &&& (size - 1)

def hashmod (n size : Nat) : Nat := n % ((size - 1) ||| 1)

namespace Hashes

variable (hashes : Hashes)

def hashnum (size : Nat) (n : LuaNumber) : Nat :=
  if luai_numeq n (cast_num 0) then 0 else hashmod (hashes.number n) size

def mainposition (size : Nat) : LuaValue → Nat
  | .number n => hashes.hashnum size n
  | .string s => lmod (hashes.string s) size
  | .boolean b => lmod b.toNat size
  | .lightuserdata p => hashmod (p % 2 ^ 32) size
  | key => hashmod (hashes.pointer key) size

end Hashes

/-- The index of a key that may live in the array part, -1 for another one. -/
def arrayindex : LuaValue → Int
  | .number n =>
      let k := lua_number2int n
      if luai_numeq (cast_num k) n then k else -1
  | _ => -1

namespace LTable

variable (hashes : Hashes)

/-! ## Search -/

/-- Go along the chain that begins at a node. -/
def search (t : LTable) (test : Node → Bool) (start : Nat) : Option Nat :=
  seek t.gnext (fun i => test (t.gnode i)) t.sizenode start

def slotOf : Option Nat → Slot
  | some i => .hash i
  | none => .nilobject

def luaH_getnum (t : LTable) (key : Int) : Slot :=
  -- `cast(unsigned int, key-1) < cast(unsigned int, t->sizearray)`
  if 1 ≤ key ∧ key ≤ t.sizearray then
    .array (key - 1).toNat
  else
    let nk := cast_num key
    slotOf (t.search (fun n => !n.dead && luaO_rawequalObj n.i_key (.number nk))
      (hashes.hashnum t.sizenode nk))

def luaH_getstr (t : LTable) (key : Bytes) : Slot :=
  slotOf (t.search (fun n => !n.dead && luaO_rawequalObj n.i_key (.string key))
    (lmod (hashes.string key) t.sizenode))

def getAny (t : LTable) (key : LuaValue) : Slot :=
  slotOf (t.search (fun n => !n.dead && luaO_rawequalObj n.i_key key)
    (hashes.mainposition t.sizenode key))

def luaH_get (t : LTable) (key : LuaValue) : Slot :=
  match key with
  | .nil => .nilobject
  | .string s => t.luaH_getstr hashes s
  | .number n =>
      let k := lua_number2int n
      if luai_numeq (cast_num k) n then t.luaH_getnum hashes k else t.getAny hashes key
  | key => t.getAny hashes key

/-! ## Insertion -/

/-- The last free node below an index. -/
def freeBelow (t : LTable) : Nat → Option Nat
  | 0 => none
  | i + 1 => if (t.gnode i).i_key = .nil then some i else freeBelow t i

/-- The free node, and the table with `lastfree` moved down to it. -/
def getfreepos (t : LTable) : Option Nat × LTable :=
  match t.freeBelow t.lastfree with
  | some i => (some i, { t with lastfree := i })
  | none => (none, { t with lastfree := 0 })

/-- How a table grows for a key that finds no free node, and takes the key then. -/
abbrev Grow := LTable → LuaValue → Except TableError (LTable × Slot)

def setKey (t : LTable) (mp : Nat) (key : LuaValue) : LTable :=
  t.setNode mp { t.gnode mp with i_key := key, gc := hashes.gcvalue key, dead := false }

/-- The free node `n` is chained behind `mp`. -/
def appendNode (t : LTable) (mp n : Nat) : LTable :=
  let t := t.setNode n { t.gnode n with next := t.gnext mp }
  t.setNode mp { t.gnode mp with next := some n }

/-- The colliding node `mp` goes to the free node `n`. -/
def moveNode (t : LTable) (othern mp n : Nat) : Except TableError LTable :=
  match seek t.gnext (fun i => t.gnext i = some mp) t.sizenode othern with
  | none => .error .unfinished
  | some previous =>
      let t := t.setNode previous { t.gnode previous with next := some n }
      let t := t.setNode n (t.gnode mp)
      .ok (t.setNode mp { t.gnode mp with next := none, i_val := .nil })

def newkey (grow : Grow) (t : LTable) (key : LuaValue) : Except TableError (LTable × Slot) :=
  let mp := hashes.mainposition t.sizenode key
  if (t.gnode mp).i_val ≠ .nil ∨ t.isDummy then
    match t.getfreepos with
    | (none, t) => grow t key
    | (some n, t) =>
        let othern := hashes.mainposition t.sizenode (t.gnode mp).i_key
        if othern ≠ mp then do
          -- the colliding node is out of its main position
          let t ← t.moveNode othern mp n
          .ok (t.setKey hashes mp key, .hash mp)
        else
          .ok ((t.appendNode mp n).setKey hashes n key, .hash n)
  else
    .ok (t.setKey hashes mp key, .hash mp)

def luaH_setWith (grow : Grow) (t : LTable) (key : LuaValue) :
    Except TableError (LTable × Slot) :=
  match t.luaH_get hashes key with
  | .nilobject =>
      if key = .nil then
        .error (.runerror "table index is nil")
      else if key = .number .nan then
        .error (.runerror "table index is NaN")
      else
        t.newkey hashes grow key
  | p => .ok (t, p)

def luaH_setnumWith (grow : Grow) (t : LTable) (key : Int) :
    Except TableError (LTable × Slot) :=
  match t.luaH_getnum hashes key with
  | .nilobject => t.newkey hashes grow (.number (cast_num key))
  | p => .ok (t, p)

/-! ## Rehash -/

/-- The array part grows. -/
def setarrayvector (t : LTable) (size : Nat) : LTable :=
  { t with array := t.array ++ List.replicate (size - t.sizearray) .nil }

def setnodevector (t : LTable) (size : Nat) : Except TableError LTable :=
  if size = 0 then
    .ok { t with node := [dummynode_], isDummy := true, lastfree := 0 }
  else
    let lsize := ceillog2 size
    if MAXBITS < lsize then
      .error (.runerror "table overflow")
    else
      .ok { t with
        node := List.replicate (2 ^ lsize) dummynode_
        isDummy := false
        lastfree := 2 ^ lsize }

/-- An element of the vanishing slice of the array. -/
def reinsertArray (grow : Grow) (t : LTable) (element : LuaValue × Nat) :
    Except TableError LTable :=
  if element.1 = .nil then
    .ok t
  else do
    let (t, slot) ← t.luaH_setnumWith hashes grow (element.2 + 1)
    .ok (t.write slot element.1)

/-- A node of the old vector. -/
def reinsertNode (grow : Grow) (t : LTable) (old : Node) : Except TableError LTable :=
  if old.i_val = .nil then
    .ok t
  else do
    let (t, slot) ← t.luaH_setWith hashes grow old.i_key
    .ok (t.write slot old.i_val)

def resize (grow : Grow) (t : LTable) (nasize nhsize : Nat) : Except TableError LTable := do
  let nold := t.node
  let t := if t.sizearray < nasize then t.setarrayvector nasize else t
  let t ← t.setnodevector nhsize
  -- the elements above `nasize`, if the array must shrink
  let vanishing := t.array.zipIdx.drop nasize
  let t := { t with array := t.array.take nasize }
  let t ← vanishing.foldlM (reinsertArray hashes grow) t
  nold.reverse.foldlM (reinsertNode hashes grow) t

/-- `nums[i]` is the number of keys between 2^(i-1) and 2^i. -/
abbrev Nums := Nat → Nat

def countint (key : LuaValue) (nums : Nums) : Nat × Nums :=
  let k := arrayindex key
  if 0 < k ∧ k ≤ MAXASIZE then
    let slice := ceillog2 k.toNat
    (1, Function.update nums slice (nums slice + 1))
  else
    (0, nums)

/-- The elements from `i` to `lim` that are not nil. -/
def countSlice (t : LTable) (i lim : Nat) : Nat :=
  (List.range' i (lim + 1 - i)).countP fun i => t.array.getD (i - 1) .nil ≠ .nil

def numusearrayFrom (t : LTable) : Nat → Nat → Nat → Nat → Nums → Nat × Nums
  | 0, _, _, ause, nums => (ause, nums)
  | slices + 1, lg, i, ause, nums =>
      let ttlg := 2 ^ lg
      if t.sizearray < ttlg ∧ t.sizearray < i then
        (ause, nums)
      else
        let lim := min ttlg t.sizearray
        let lc := t.countSlice i lim
        numusearrayFrom t slices (lg + 1) (max i (lim + 1)) (ause + lc)
          (Function.update nums lg (nums lg + lc))

def numusearray (t : LTable) (nums : Nums) : Nat × Nums :=
  t.numusearrayFrom (MAXBITS + 1) 0 1 0 nums

/-- The number of elements so far, of those that may go to the array part, and the
counts. -/
def countNode (counted : Nat × Nat × Nums) (n : Node) : Nat × Nat × Nums :=
  let (totaluse, ause, nums) := counted
  if n.i_val = .nil then
    (totaluse, ause, nums)
  else
    let (one, nums) := countint n.i_key nums
    (totaluse + 1, ause + one, nums)

def numusehash (t : LTable) (nums : Nums) : Nat × Nat × Nums :=
  t.node.reverse.foldl countNode (0, 0, nums)

/-- From the size `n` found so far with `na` elements, and `a` elements below 2^i. -/
def computesizesFrom (nums : Nums) (narray : Nat) : Nat → Nat → Nat → Nat → Nat → Nat × Nat
  | 0, _, _, na, n => (n, na)
  | rest + 1, i, a, na, n =>
      let twotoi := 2 ^ i
      if twotoi / 2 < narray then
        let a' := a + nums i
        let larger := 0 < nums i ∧ twotoi / 2 < a'
        let na' := if larger then a' else na
        let n' := if larger then twotoi else n
        if a' = narray then (n', na') else computesizesFrom nums narray rest (i + 1) a' na' n'
      else
        (n, na)

/-- The size of the array part and the number of elements that go there. -/
def computesizes (nums : Nums) (narray : Nat) : Nat × Nat :=
  computesizesFrom nums narray (MAXBITS + 1) 0 0 0 0

def rehash (grow : Grow) (t : LTable) (ek : LuaValue) : Except TableError LTable :=
  let (nasize, nums) := t.numusearray fun _ => 0
  let (inHash, ause, nums) := t.numusehash nums
  let (one, nums) := countint ek nums
  let totaluse := nasize + inHash + 1
  let (size, na) := computesizes nums (nasize + ause + one)
  t.resize hashes grow size (totaluse - na)

/-- The table grows, and takes the key then; the fuel bounds how often it may grow again
while it does. -/
def growFor : Nat → Grow
  | 0, _, _ => .error .unfinished
  | fuel + 1, t, key => do
      let t ← t.rehash hashes (growFor fuel) key
      t.luaH_setWith hashes (growFor fuel) key

def luaH_set (fuel : Nat) (t : LTable) (key : LuaValue) : Except TableError (LTable × Slot) :=
  t.luaH_setWith hashes (growFor hashes fuel) key

def luaH_resizearray (fuel : Nat) (t : LTable) (nasize : Nat) : Except TableError LTable :=
  let nsize := if t.isDummy then 0 else t.sizenode
  t.resize hashes (growFor hashes fuel) nasize nsize

def luaH_new (narray nhash : Nat) : Except TableError LTable :=
  setnodevector (setarrayvector ⟨[], [dummynode_], true, 0⟩ narray) nhash

/-! ## What a user does with a table -/

/-- `t[key]` -/
def get (t : LTable) (key : LuaValue) : LuaValue := t.read (t.luaH_get hashes key)

/-- `t[key] = value` -/
def set (fuel : Nat) (t : LTable) (key value : LuaValue) : Except TableError LTable := do
  let (t, slot) ← t.luaH_set hashes fuel key
  .ok (t.write slot value)

/-! ## Traversal -/

/-- The next position whose value is not nil. -/
def nextPosition (value : Nat → LuaValue) (i size : Nat) : Option Nat :=
  (List.range' i (size - i)).find? fun i => value i ≠ .nil

end LTable

def iscollectable : LuaValue → Bool
  | .string _ | .table _ | .function _ | .userdata _ | .thread _ => true
  | _ => false

namespace LTable

variable (hashes : Hashes)

/-- The index of a key for traversals, first the array part, then the nodes.  A dead key is
known by the pointer in it. -/
def findindex (t : LTable) (key : LuaValue) : Except TableError Int :=
  if key = .nil then
    .ok (-1)
  else
    let i := arrayindex key
    if 0 < i ∧ i ≤ t.sizearray then
      .ok (i - 1)
    else
      let found := t.search (fun n =>
        (!n.dead && luaO_rawequalObj n.i_key key) ||
          (n.dead && iscollectable key && n.gc = hashes.gcvalue key))
        (hashes.mainposition t.sizenode key)
      match found with
      | some i => .ok (i + t.sizearray)
      | none => .error (.runerror "invalid key to 'next'")

/-- The first entry from position `i` on, first the array part, then the nodes. -/
def entryAfter (t : LTable) (i : Nat) : Option Entry :=
  match nextPosition (fun i => t.array.getD i .nil) i t.sizearray with
  | some i => some (.number (cast_num (i + 1 : Nat)), t.array.getD i .nil)
  | none =>
      (nextPosition (fun i => (t.gnode i).i_val) (i - t.sizearray) t.sizenode).map fun i =>
        ((t.gnode i).i_key, (t.gnode i).i_val)

/-- The entry after a key, the first one after nil. -/
def luaH_next (t : LTable) (key : LuaValue) : Except TableError (Option Entry) := do
  let i ← t.findindex hashes key
  .ok (t.entryAfter (i + 1).toNat)

/-! ## Length -/

def MAX_INT : Nat := 2 ^ 31 - 3

/-- The binary search between a present index, or zero, and an absent one. -/
def boundary (present : Nat → Bool) : Nat → Nat → Nat → Nat
  | 0, i, _ => i
  | fuel + 1, i, j =>
      if 1 < j - i then
        let m := (i + j) / 2
        if present m then boundary present fuel m j else boundary present fuel i m
      else
        i

/-- The last of the present indices from `i` on, without a gap. -/
def linear (present : Nat → Bool) : Nat → Nat → Nat
  | 0, i => i - 1
  | fuel + 1, i => if present i then linear present fuel (i + 1) else i - 1

/-- `t[i]` is not nil. -/
def present (t : LTable) (i : Nat) : Bool := t.read (t.luaH_getnum hashes i) ≠ .nil

def unbound_searchFrom (t : LTable) : Nat → Nat → Nat → Nat
  | 0, i, _ => i
  | fuel + 1, i, j =>
      if t.present hashes j then
        if MAX_INT < j * 2 then
          linear (t.present hashes) (t.sizearray + t.sizenode + 1) 1
        else
          unbound_searchFrom t fuel j (j * 2)
      else
        boundary (t.present hashes) (j - i) i j

def unbound_search (t : LTable) (j : Nat) : Nat := t.unbound_searchFrom hashes 32 j (j + 1)

/-- A boundary: `t[i]` is not nil, or `i` is zero, and `t[i + 1]` is nil. -/
def luaH_getn (t : LTable) : Nat :=
  let j := t.sizearray
  if 0 < j ∧ t.array.getD (j - 1) .nil = .nil then
    boundary (fun m => t.array.getD (m - 1) .nil ≠ .nil) j 0 j
  else if t.isDummy then
    j
  else
    t.unbound_search hashes j

/-! ## Collection -/

/-- A key that is not collectable stays as it is. -/
def removeentry (n : Node) : Node := if iscollectable n.i_key then { n with dead := true } else n

/-- What marking a table does to its nodes. -/
def traversetable (t : LTable) : LTable :=
  { t with node := t.node.map fun n => if n.i_val = .nil then removeentry n else n }

end LTable

/-- What the collector knows of the objects. -/
structure Marks where
  iswhite : LuaValue → Bool
  isfinalized : LuaValue → Bool

def Marks.iscleared (marks : Marks) (o : LuaValue) (iskey : Bool) : Bool :=
  match o with
  | .table _ | .function _ | .thread _ => marks.iswhite o
  | .userdata _ => marks.iswhite o || (!iskey && marks.isfinalized o)
  | _ => false

namespace LTable

/-- The collected entries of a weak table are removed. -/
def cleartable (marks : Marks) (weakvalue : Bool) (t : LTable) : LTable :=
  { t with
    array :=
      if weakvalue then
        t.array.map fun o => if marks.iscleared o false then .nil else o
      else
        t.array
    node := t.node.map fun n =>
      if n.i_val ≠ .nil ∧ (marks.iscleared n.i_key true ∨ marks.iscleared n.i_val false) then
        removeentry { n with i_val := .nil }
      else
        n }

end LTable

end LuaEngine.Lua
