import LuaEngine.Lua.Order
import LuaEngine.System.Outcome
import LuaEngine.System.Rearrange

/-!
# `table.sort`

A stretch of the array is partitioned around the median of three elements, and both parts
are sorted.  The order function is a program of its own: it may keep a state, raise an
error, change the table or go on for ever; one that is no order may lead the scans out of
the stretch.
-/

namespace LuaEngine.Lua

open LuaEngine.Codec LuaEngine.System

/-- The elements `t[1]`, `t[2]` and so on. -/
abbrev Elements := Nat → LuaValue

/-- The table that is sorted, and whatever else the order function reads and changes. -/
structure Sorting (World : Type) where
  a : Elements
  world : World

namespace Sorting

variable {World : Type}

def lua_rawgeti (i : Nat) : Program (Sorting World) LuaValue LuaValue :=
  ⟨fun state => .returned (state.a i) state⟩

def lua_rawseti (i : Nat) (value : LuaValue) : Program (Sorting World) LuaValue Unit :=
  Program.modify fun state => { state with a := Function.update state.a i value }

/-- Stores the two values on top of the stack. -/
def set2 (i j : Nat) (top next : LuaValue) : Program (Sorting World) LuaValue Unit := do
  lua_rawseti i top
  lua_rawseti j next

def invalidOrder : LuaValue := .literal "invalid order function for sorting"

section

/- What the order function says of two values, or `<` where none is given. -/
variable (sort_comp : LuaValue → LuaValue → Program (Sorting World) LuaValue Bool)

/-- Repeat `++i` until `a[i] >= P`; the element is left on the stack. -/
def scanUp (P : LuaValue) (u : Nat) :
    Nat → Nat → Program (Sorting World) LuaValue (Nat × LuaValue)
  | 0, _ => Program.unfinished
  | fuel + 1, i => do
      let i := i + 1
      let x ← lua_rawgeti i
      if ← sort_comp x P then
        if u < i then Program.raise invalidOrder else scanUp P u fuel i
      else
        pure (i, x)

/-- Repeat `--j` until `a[j] <= P`; the element is left on the stack. -/
def scanDown (P : LuaValue) (l : Nat) :
    Nat → Nat → Program (Sorting World) LuaValue (Nat × LuaValue)
  | 0, _ => Program.unfinished
  | fuel + 1, j => do
      let j := j - 1
      let y ← lua_rawgeti j
      if ← sort_comp P y then
        if j < l then Program.raise invalidOrder else scanDown P l fuel j
      else
        pure (j, y)

/-- The elements are exchanged until `a[l..i-1] <= P <= a[i..u]`. -/
def partitionFrom (P : LuaValue) (l u : Nat) :
    Nat → Nat → Nat → Program (Sorting World) LuaValue Nat
  | 0, _, _ => Program.unfinished
  | fuel + 1, i, j => do
      let (i, x) ← scanUp sort_comp P u (u + 1) i
      let (j, y) ← scanDown sort_comp P l (j + 1) j
      if j < i then
        pure i
      else do
        set2 i j y x
        partitionFrom P l u fuel i j

def orderEnds (l u : Nat) : Program (Sorting World) LuaValue Unit := do
  let x ← lua_rawgeti l
  let y ← lua_rawgeti u
  if ← sort_comp y x then set2 l u y x else pure ()

/-- `a[l] <= a[i] <= a[u]` for the middle `i`. -/
def medianOfThree (l i u : Nat) : Program (Sorting World) LuaValue Unit := do
  let x ← lua_rawgeti i
  let y ← lua_rawgeti l
  if ← sort_comp x y then
    set2 i l y x
  else do
    let y ← lua_rawgeti u
    if ← sort_comp y x then set2 i u y x else pure ()

/-- The pivot `a[i]` waits at `u - 1` while the rest is partitioned, and then goes between
the parts. -/
def partition (l i u : Nat) : Program (Sorting World) LuaValue Nat := do
  let P ← lua_rawgeti i
  let x ← lua_rawgeti (u - 1)
  set2 i (u - 1) x P
  let i ← partitionFrom sort_comp P l u (u + 1) l (u - 1)
  let x ← lua_rawgeti (u - 1)
  let y ← lua_rawgeti i
  set2 (u - 1) i y x
  pure i

def auxsort : Nat → Nat → Nat → Program (Sorting World) LuaValue Unit
  | 0, _, _ => Program.unfinished
  | fuel + 1, l, u =>
      if l < u then do
        orderEnds sort_comp l u
        if u - l = 1 then
          pure ()
        else do
          let i := (l + u) / 2
          medianOfThree sort_comp l i u
          if u - l = 2 then
            pure ()
          else do
            let i ← partition sort_comp l i u
            -- the smaller part first
            if i + i < l + u then do
              auxsort fuel l (i - 1)
              auxsort fuel (i + 1) u
            else do
              auxsort fuel (i + 1) u
              auxsort fuel l (i - 1)
      else
        pure ()

/-- `table.sort(t, lt)` of a table with the elements `1..n`.  With a function that is no
order the recursion may need any depth, or never end. -/
def sort (fuel n : Nat) : Program (Sorting World) LuaValue Unit := auxsort sort_comp fuel 1 n

end

/-! ## Exchanges -/

variable {sort_comp : LuaValue → LuaValue → Program (Sorting World) LuaValue Bool}
variable {s : Sorting World} {a a' : Elements} {P : LuaValue} {l u i j k fuel : Nat}

def exchange (a : Elements) (i j : Nat) : Elements :=
  Function.update (Function.update a i (a j)) j (a i)

theorem exchange_eq (a : Elements) (i j : Nat) : exchange a i j = a ∘ Equiv.swap i j := by
  funext k
  rw [exchange, Function.comp_apply]
  by_cases isSecond : k = j
  · rw [isSecond, Function.update_self, Equiv.swap_apply_right]
  · rw [Function.update_of_ne isSecond]
    by_cases isFirst : k = i
    · rw [isFirst, Function.update_self, Equiv.swap_apply_left]
    · rw [Function.update_of_ne isFirst, Equiv.swap_apply_of_ne_of_ne isFirst isSecond]

theorem exchange_left (a : Elements) (i j : Nat) : exchange a i j i = a j := by
  rw [exchange_eq, Function.comp_apply, Equiv.swap_apply_left]

theorem exchange_right (a : Elements) (i j : Nat) : exchange a i j j = a i := by
  rw [exchange_eq, Function.comp_apply, Equiv.swap_apply_right]

theorem exchange_of_ne (notFirst : k ≠ i) (notSecond : k ≠ j) : exchange a i j k = a k := by
  rw [exchange_eq, Function.comp_apply, Equiv.swap_apply_of_ne_of_ne notFirst notSecond]

theorem rearranged_exchange (a : Elements) (left : l ≤ i ∧ i ≤ u) (right : l ≤ j ∧ j ≤ u) :
    Rearranged l u a (exchange a i j) := by
  rw [exchange_eq]
  exact Rearranged.swap a left right

/-! ## Steps -/

theorem run_rawgeti {β : Type} (next : LuaValue → Program (Sorting World) LuaValue β) :
    (lua_rawgeti i >>= next).run s = (next (s.a i)).run s := rfl

/-- Two elements that are on the stack change places. -/
theorem run_set2 {x y : LuaValue} (left : x = s.a j) (right : y = s.a i) :
    (set2 i j x y).run s = .returned () { s with a := exchange s.a i j } := by
  rw [left, right]
  rfl

theorem set2_meets {x y : LuaValue} {post : Postcondition (Sorting World) LuaValue Unit}
    (left : x = s.a j) (right : y = s.a i) :
    ((set2 i j x y).run s).Meets post ↔
      post.returned () { s with a := exchange s.a i j } := by
  rw [run_set2 left right]
  exact Iff.rfl

@[simp]
theorem rawgeti_meets {post : Postcondition (Sorting World) LuaValue LuaValue} :
    ((lua_rawgeti i).run s).Meets post ↔ post.returned (s.a i) s := Iff.rfl

/-! ## Whatever the order function says -/

/-- The order function does not assign to the table; it need not come to an end. -/
def LeavesTable (sort_comp : LuaValue → LuaValue → Program (Sorting World) LuaValue Bool)
    (endless : Prop) : Prop :=
  ∀ x y s, ((sort_comp x y).run s).Meets
    ⟨fun _ final => final.a = s.a, fun _ final => final.a = s.a, endless⟩

/-- However it ends, the program has only rearranged a stretch of the elements. -/
def Rearranges {α : Type} (l u : Nat) (endless : Prop) (holds : α → Prop)
    (program : Program (Sorting World) LuaValue α) : Prop :=
  ∀ s, (program.run s).Meets
    ⟨fun value final => Rearranged l u s.a final.a ∧ holds value,
      fun _ final => Rearranged l u s.a final.a, endless⟩

section Rearranges

variable {α β : Type} {endless : Prop} {holds : α → Prop}
  {program : Program (Sorting World) LuaValue α}

theorem rearranges_pure {value : α} (meets : holds value) :
    Rearranges l u endless holds (pure value : Program (Sorting World) LuaValue α) :=
  fun s => ⟨.refl l u s.a, meets⟩

theorem Rearranges.bind {holds' : β → Prop} {next : α → Program (Sorting World) LuaValue β}
    (first : Rearranges l u endless holds program)
    (later : ∀ value, holds value → Rearranges l u endless holds' (next value)) :
    Rearranges l u endless holds' (program >>= next) := by
  intro s
  apply Program.bind_meets.mpr
  apply (first s).weaken
  rintro value middle ⟨before, meets⟩
  apply (later value meets middle).consequence
  · rintro result final ⟨after, meets'⟩
    exact ⟨before.trans after, meets'⟩
  · intro _ final after
    exact before.trans after
  · exact id

theorem Rearranges.mono {l' u' : Nat} {endless' : Prop}
    (rearranges : Rearranges l u endless holds program) (lower : l' ≤ l) (upper : u ≤ u')
    (weaker : endless → endless') : Rearranges l' u' endless' holds program := by
  intro s
  apply (rearranges s).consequence
  · rintro value final ⟨rearranged, meets⟩
    exact ⟨rearranged.mono lower upper, meets⟩
  · intro _ final rearranged
    exact rearranged.mono lower upper
  · exact weaker

/-- What is done after a step that leaves the table as it was. -/
theorem bind_rearranged {next : α → Program (Sorting World) LuaValue β} {found : α → Prop}
    {holds' : β → Prop}
    (kept : (program.run s).Meets
      ⟨fun value final => final.a = s.a ∧ found value, fun _ final => final.a = s.a,
        endless⟩)
    (later : ∀ value middle, middle.a = s.a → found value →
      ((next value).run middle).Meets
        ⟨fun result final => Rearranged l u middle.a final.a ∧ holds' result,
          fun _ final => Rearranged l u middle.a final.a, endless⟩) :
    ((program >>= next).run s).Meets
      ⟨fun result final => Rearranged l u s.a final.a ∧ holds' result,
        fun _ final => Rearranged l u s.a final.a, endless⟩ := by
  apply Program.bind_meets.mpr
  apply kept.consequence
  · rintro value middle ⟨same, meets⟩
    rw [← same]
    exact later value middle same meets
  · intro _ final same
    dsimp only at same ⊢
    rw [same]
    exact .refl l u s.a
  · exact id

end Rearranges

section LeavesTable

variable {endless : Prop} (leaves : LeavesTable sort_comp endless)

include leaves

theorem scanUp_meets (inside : i ≤ u) (enough : u + 1 ≤ i + fuel) :
    ((scanUp sort_comp P u fuel i).run s).Meets
      ⟨fun found final => final.a = s.a ∧ found.2 = s.a found.1 ∧
          i < found.1 ∧ found.1 ≤ u + 1,
        fun _ final => final.a = s.a, endless⟩ := by
  induction fuel generalizing i s with
  | zero => omega
  | succ fuel inductionHypothesis =>
      unfold scanUp
      simp only [Program.bind_meets, rawgeti_meets]
      apply (leaves (s.a (i + 1)) P s).weaken
      intro less middle same
      cases less with
      | false => exact ⟨same, rfl, Nat.lt_succ_self i, Nat.succ_le_succ inside⟩
      | true =>
          rw [if_pos rfl]
          split
          next => exact same
          next within =>
            have later := inductionHypothesis (s := middle) (i := i + 1) (by omega) (by omega)
            rw [same] at later
            apply later.weaken
            rintro found final ⟨kept, element, above, below⟩
            exact ⟨kept, element, by omega, below⟩

theorem scanDown_meets (positive : 1 ≤ l) (inside : l ≤ j) (enough : j + 1 ≤ l + fuel) :
    ((scanDown sort_comp P l fuel j).run s).Meets
      ⟨fun found final => final.a = s.a ∧ found.2 = s.a found.1 ∧
          found.1 < j ∧ l ≤ found.1 + 1,
        fun _ final => final.a = s.a, endless⟩ := by
  induction fuel generalizing j s with
  | zero => omega
  | succ fuel inductionHypothesis =>
      unfold scanDown
      simp only [Program.bind_meets, rawgeti_meets]
      apply (leaves P (s.a (j - 1)) s).weaken
      intro less middle same
      cases less with
      | false =>
          refine ⟨same, rfl, ?_, ?_⟩
          · change j - 1 < j
            omega
          · change l ≤ j - 1 + 1
            omega
      | true =>
          rw [if_pos rfl]
          split
          next => exact same
          next within =>
            have later := inductionHypothesis (s := middle) (j := j - 1) (by omega) (by omega)
            rw [same] at later
            apply later.weaken
            rintro found final ⟨kept, element, below, above⟩
            exact ⟨kept, element, by omega, above⟩

/-- Every round of scans moves `i` up, and there is one more only while `i <= j`. -/
theorem partitionFrom_rearranges (positive : 1 ≤ l) (left : l ≤ i ∧ i ≤ u) (right : l ≤ j ∧ j ≤ u)
    (enough : u + 1 ≤ i + fuel) :
    Rearranges l u endless (fun m => l < m ∧ m ≤ u + 1)
      (partitionFrom sort_comp P l u fuel i j) := by
  induction fuel generalizing i j with
  | zero => omega
  | succ fuel inductionHypothesis =>
      intro s
      unfold partitionFrom
      apply bind_rearranged (scanUp_meets leaves left.2 (by omega))
      rintro ⟨i', x⟩ s same ⟨element, lower, upper⟩
      apply bind_rearranged (scanDown_meets leaves positive right.1 (by omega))
      rintro ⟨j', y⟩ s' same' ⟨element', lower', upper'⟩
      dsimp only at element element' lower lower' upper upper' ⊢
      split
      next => exact ⟨.refl l u s'.a, by omega, upper⟩
      next apart =>
        rw [Program.run_bind (run_set2 (by rw [element', same']) (by rw [element, same', same]))]
        have first := rearranged_exchange (l := l) (u := u) s'.a (i := i') (j := j')
          (by omega) (by omega)
        have all := inductionHypothesis (i := i') (j := j') (by omega) (by omega) (by omega)
          { s' with a := exchange s'.a i' j' }
        apply all.consequence
        · rintro m last ⟨later, bounds⟩
          exact ⟨first.trans later, bounds⟩
        · intro _ last later
          exact first.trans later
        · exact id

theorem compared_meets (x y : LuaValue) (s : Sorting World) :
    ((sort_comp x y).run s).Meets
      ⟨fun _ final => final.a = s.a ∧ True, fun _ final => final.a = s.a, endless⟩ :=
  (leaves x y s).weaken fun _ _ same => ⟨same, trivial⟩

theorem orderEnds_rearranges (below : l ≤ u) :
    Rearranges l u endless (fun _ => True) (orderEnds sort_comp l u) := by
  intro s
  rw [orderEnds, run_rawgeti, run_rawgeti]
  apply bind_rearranged (compared_meets leaves _ _ s)
  intro less middle same _
  cases less with
  | true =>
      apply (set2_meets (by rw [same]) (by rw [same])).mpr
      exact ⟨rearranged_exchange middle.a ⟨le_rfl, below⟩ ⟨below, le_rfl⟩, trivial⟩
  | false => exact rearranges_pure trivial middle

theorem medianOfThree_rearranges (lower : l ≤ i) (upper : i ≤ u) :
    Rearranges l u endless (fun _ => True) (medianOfThree sort_comp l i u) := by
  intro s
  rw [medianOfThree, run_rawgeti, run_rawgeti]
  apply bind_rearranged (compared_meets leaves _ _ s)
  intro less middle same _
  cases less with
  | true =>
      apply (set2_meets (by rw [same]) (by rw [same])).mpr
      exact ⟨rearranged_exchange middle.a ⟨lower, upper⟩ ⟨le_rfl, lower.trans upper⟩, trivial⟩
  | false =>
      rw [if_neg Bool.false_ne_true, run_rawgeti]
      apply bind_rearranged (compared_meets leaves _ _ middle)
      intro less last same' _
      cases less with
      | true =>
          apply (set2_meets (by rw [same']) (by rw [same', same])).mpr
          exact ⟨rearranged_exchange last.a ⟨lower, upper⟩ ⟨lower.trans upper, le_rfl⟩, trivial⟩
      | false => exact rearranges_pure trivial last

/-- The element behind the stretch may be drawn into it. -/
theorem partition_rearranges (positive : 1 ≤ l) (lower : l ≤ i) (upper : i ≤ u)
    (room : l < u) :
    Rearranges l (u + 1) endless (fun m => l < m ∧ m ≤ u + 1) (partition sort_comp l i u) := by
  intro s
  rw [partition, run_rawgeti, run_rawgeti, Program.run_bind (run_set2 rfl rfl)]
  have pivot := rearranged_exchange (l := l) (u := u + 1) s.a (i := i) (j := u - 1)
    (by omega) (by omega)
  have scans := (partitionFrom_rearranges (P := s.a i) leaves positive
    (show l ≤ l ∧ l ≤ u by omega) (show l ≤ u - 1 ∧ u - 1 ≤ u by omega)
    (show u + 1 ≤ l + (u + 1) by omega)).mono le_rfl (Nat.le_succ u) id
  have home : ∀ m, l < m ∧ m ≤ u + 1 → Rearranges l (u + 1) endless
      (fun m => l < m ∧ m ≤ u + 1) (do
        let x ← lua_rawgeti (u - 1)
        let y ← lua_rawgeti m
        set2 (u - 1) m y x
        pure m : Program (Sorting World) LuaValue Nat) := by
    intro m bounds s
    rw [run_rawgeti, run_rawgeti, Program.run_bind (run_set2 rfl rfl)]
    exact ⟨rearranged_exchange s.a (by omega) (by omega), bounds⟩
  apply ((scans.bind home) { s with a := exchange s.a i (u - 1) }).consequence
  · rintro m final ⟨later, bounds⟩
    exact ⟨pivot.trans later, bounds⟩
  · intro _ final later
    exact pivot.trans later
  · exact id

end LeavesTable

theorem auxsort_rearranges (leaves : LeavesTable sort_comp True) (positive : 1 ≤ l) :
    Rearranges l (u + 1) True (fun _ => True) (auxsort sort_comp fuel l u) := by
  induction fuel generalizing l u with
  | zero => exact fun _ => trivial
  | succ fuel inductionHypothesis =>
      unfold auxsort
      split
      next below =>
        refine ((orderEnds_rearranges leaves below.le).mono le_rfl (Nat.le_succ u) id).bind ?_
        intro _ _
        split
        next => exact rearranges_pure trivial
        next =>
          have median := medianOfThree_rearranges leaves (l := l) (i := (l + u) / 2) (u := u)
            (by omega) (by omega)
          refine (median.mono le_rfl (Nat.le_succ u) id).bind fun _ _ => ?_
          split
          next => exact rearranges_pure trivial
          next =>
            refine (partition_rearranges leaves positive (by omega) (by omega) below).bind ?_
            intro m bounds
            have lower := (inductionHypothesis (l := l) (u := m - 1) positive).mono le_rfl
              (show m - 1 + 1 ≤ u + 1 by omega) id
            have upper := (inductionHypothesis (l := m + 1) (u := u) (by omega)).mono
              (show l ≤ m + 1 by omega) le_rfl id
            split
            next => exact lower.bind fun _ _ => upper
            next => exact upper.bind fun _ _ => lower
      next => exact rearranges_pure trivial

/-- Whatever the order function says, as long as it leaves the table alone: when sorting
ends, with an error or without, elements have only changed places, at most with the one
behind the last. -/
theorem sort_rearranged (leaves : LeavesTable sort_comp True) (fuel n : Nat)
    (s : Sorting World) :
    ((sort sort_comp fuel n).run s).Meets
      ⟨fun _ final => Rearranged 1 (n + 1) s.a final.a,
        fun _ final => Rearranged 1 (n + 1) s.a final.a, True⟩ :=
  ((auxsort_rearranges leaves le_rfl) s).weaken fun _ _ rearranged => rearranged.1

/-- `true`, `false`, `true`, `false`, `true` -/
def fiveElements : Elements := fun k => if k < 6 then .boolean (k % 2 = 1) else .nil

/-- Counts its calls, says yes to every other one, and raises an error at the tenth. -/
def moody (_ _ : LuaValue) : Program (Sorting Nat) LuaValue Bool :=
  ⟨fun s =>
    if s.world = 9 then
      .raised (.literal "tired") s
    else
      .returned (s.world % 2 == 0) { s with world := s.world + 1 }⟩

theorem moody_leavesTable : LeavesTable moody True := by
  intro x y s
  unfold moody
  dsimp only
  split <;> rfl

/-- The error comes after the pivot has been put behind the scans. -/
theorem sort_rearranged_moody :
    ∃ error final, (sort moody 6 5).run ⟨fiveElements, 0⟩ = .raised error final ∧
      Rearranged 1 6 fiveElements final.a :=
  ⟨_, _, rfl, sort_rearranged moody_leavesTable 6 5 ⟨fiveElements, 0⟩⟩

/-! ## With a strict weak order -/

/-- Among the values of `S` the function decides `less` and leaves the table alone, and
`x <= y`, which is `less y x = false`, is a total preorder. -/
structure WeakOrder (sort_comp : LuaValue → LuaValue → Program (Sorting World) LuaValue Bool)
    (less : LuaValue → LuaValue → Bool) (S : LuaValue → Prop) : Prop where
  decides : ∀ x y, S x → S y → ∀ s, ∃ final,
    (sort_comp x y).run s = .returned (less x y) final ∧ final.a = s.a
  asymm : ∀ x y, S x → S y → less x y = true → less y x = false
  trans : ∀ x y z, S x → S y → S z → less y x = false → less z y = false → less z x = false

def SortedOn (less : LuaValue → LuaValue → Bool) (a : Elements) (l u : Nat) : Prop :=
  ∀ i j, l ≤ i → i < j → j ≤ u → less (a j) (a i) = false

/-- `a[l..i] <= P <= a[j..u]`, and the pivot waits behind the scans. -/
structure Partitioning (less : LuaValue → LuaValue → Bool) (S : LuaValue → Prop) (P : LuaValue)
    (l u : Nat) (a : Elements) (i j : Nat) : Prop where
  bounds : l ≤ i ∧ i ≤ j ∧ j < u
  room : l < j ∧ i + 1 < u
  pivot : a (u - 1) = P
  members : ∀ k, l ≤ k → k ≤ u → S (a k)
  low : ∀ k, l ≤ k → k ≤ i → less P (a k) = false
  high : ∀ k, j ≤ k → k ≤ u → less (a k) P = false

/-- `a[l..m-1] <= a[m] <= a[m+1..u]` -/
structure Split (less : LuaValue → LuaValue → Bool) (a : Elements) (l m u : Nat) : Prop where
  below : ∀ k, l ≤ k → k < m → less (a m) (a k) = false
  above : ∀ k, m < k → k ≤ u → less (a k) (a m) = false

variable {less : LuaValue → LuaValue → Bool} {S : LuaValue → Prop} {b : Elements} {m : Nat}

theorem WeakOrder.irrefl (order : WeakOrder sort_comp less S) {x : LuaValue} (member : S x) :
    less x x = false := by
  by_contra isLess
  have notLess := order.asymm x x member member (Bool.eq_true_of_not_eq_false isLess)
  contradiction

/-- The scan stops at the latest at an element it would stop at. -/
theorem scanUp_stops (order : WeakOrder sort_comp less S) (pivot : S P)
    (members : ∀ k, i < k → k ≤ u → S (s.a k)) (ahead : i < k) (within : k ≤ u)
    (stopper : less (s.a k) P = false) (enough : k - i ≤ fuel) :
    ∃ i' final, (scanUp sort_comp P u fuel i).run s = .returned (i', s.a i') final ∧
      final.a = s.a ∧ i < i' ∧ i' ≤ k ∧ less (s.a i') P = false ∧
      ∀ n, i < n → n < i' → less (s.a n) P = true := by
  induction fuel generalizing i s with
  | zero => omega
  | succ fuel inductionHypothesis =>
      obtain ⟨middle, compared, same⟩ := order.decides (s.a (i + 1)) P
        (members (i + 1) (Nat.lt_succ_self i) (by omega)) pivot s
      rw [scanUp, run_rawgeti, Program.run_bind compared]
      cases isLess : less (s.a (i + 1)) P with
      | false =>
          exact ⟨i + 1, middle, rfl, same, Nat.lt_succ_self i, ahead, isLess, fun n _ _ => by omega⟩
      | true =>
          have notHere : i + 1 ≠ k := by
            rintro rfl
            rw [isLess] at stopper
            contradiction
          obtain ⟨i', final, scanned, kept, later, before, stops, passed⟩ :=
            inductionHypothesis (s := middle) (i := i + 1)
              (by rw [same]; exact fun n lower upper => members n (by omega) upper) (by omega)
              (by rwa [same]) (by omega)
          rw [same] at scanned kept stops passed
          refine ⟨i', final, ?_, kept, by omega, before, stops, fun n lower upper => ?_⟩
          · rw [if_pos rfl, if_neg (show ¬ u < i + 1 by omega)]
            exact scanned
          · by_cases isNext : n = i + 1
            · rw [isNext, isLess]
            · exact passed n (by omega) upper

theorem scanDown_stops (order : WeakOrder sort_comp less S) (pivot : S P)
    (members : ∀ k, l ≤ k → k < j → S (s.a k)) (ahead : k < j) (within : l ≤ k)
    (stopper : less P (s.a k) = false) (enough : j - k ≤ fuel) :
    ∃ j' final, (scanDown sort_comp P l fuel j).run s = .returned (j', s.a j') final ∧
      final.a = s.a ∧ k ≤ j' ∧ j' < j ∧ less P (s.a j') = false ∧
      ∀ n, j' < n → n < j → less P (s.a n) = true := by
  induction fuel generalizing j s with
  | zero => omega
  | succ fuel inductionHypothesis =>
      obtain ⟨middle, compared, same⟩ := order.decides P (s.a (j - 1)) pivot
        (members (j - 1) (by omega) (by omega)) s
      rw [scanDown, run_rawgeti, Program.run_bind compared]
      cases isLess : less P (s.a (j - 1)) with
      | false =>
          exact ⟨j - 1, middle, rfl, same, by omega, by omega, isLess, fun n _ _ => by omega⟩
      | true =>
          have notHere : j - 1 ≠ k := by
            intro isHere
            rw [isHere, stopper] at isLess
            contradiction
          obtain ⟨j', final, scanned, kept, later, before, stops, passed⟩ :=
            inductionHypothesis (s := middle) (j := j - 1)
              (by rw [same]; exact fun n lower upper => members n lower (by omega)) (by omega)
              (by rwa [same]) (by omega)
          rw [same] at scanned kept stops passed
          refine ⟨j', final, ?_, kept, later, by omega, stops, fun n lower upper => ?_⟩
          · rw [if_pos rfl, if_neg (show ¬ j - 1 < l by omega)]
            exact scanned
          · by_cases isNext : n = j - 1
            · rw [isNext, isLess]
            · exact passed n lower (by omega)

/-- What one round of scans finds, and what holds after the exchange. -/
theorem Partitioning.scans (order : WeakOrder sort_comp less S)
    (partitioning : Partitioning less S P l u s.a i j) :
    ∃ i' j' middle final,
      (scanUp sort_comp P u (u + 1) i).run s = .returned (i', s.a i') middle ∧
      (scanDown sort_comp P l (j + 1) j).run middle = .returned (j', s.a j') final ∧
      final.a = s.a ∧ (i < i' ∧ i' < u ∧ l ≤ j' ∧ j' < j) ∧
      (∀ k, l ≤ k → k < i' → less P (s.a k) = false) ∧
      (∀ k, j' < k → k ≤ u → less (s.a k) P = false) ∧
      less (s.a i') P = false ∧ less P (s.a j') = false := by
  obtain ⟨⟨first, ordered, last⟩, ⟨left, right⟩, pivot, members, low, high⟩ := partitioning
  have isMember : S P := by
    rw [← pivot]
    exact members (u - 1) (by omega) (by omega)
  obtain ⟨i', middle, up, same, above, below, stops, passed⟩ := scanUp_stops (s := s)
    (u := u) (i := i) (k := max j (i + 1)) order isMember
    (fun k lower upper => members k (by omega) upper) (by omega) (by omega)
    (high _ (by omega) (by omega)) (show max j (i + 1) - i ≤ u + 1 by omega)
  obtain ⟨j', final, down, same', above', below', stops', passed'⟩ :=
    scanDown_stops (s := middle) (j := j) (l := l) (k := min i (j - 1)) order isMember
      (by rw [same]; exact fun k lower upper => members k lower (by omega)) (by omega) (by omega)
      (by rw [same]; exact low _ (by omega) (by omega))
      (show j - min i (j - 1) ≤ j + 1 by omega)
  rw [same] at down same' stops' passed'
  refine ⟨i', j', middle, final, up, down, same', by omega, fun k lower upper => ?_,
    fun k lower upper => ?_, stops, stops'⟩
  · by_cases known : k ≤ i
    · exact low k lower known
    · exact order.asymm _ _ (members k lower (by omega)) isMember
        (passed k (not_le.mp known) upper)
  · by_cases known : j ≤ k
    · exact high k known upper
    · exact order.asymm _ _ isMember (members k (by omega) upper)
        (passed' k lower (not_le.mp known))

theorem Partitioning.exchanged (partitioning : Partitioning less S P l u a i j) {i' j' : Nat}
    (places : i < i' ∧ i' < u ∧ l ≤ j' ∧ j' < j) (apart : i' ≤ j')
    (lower : ∀ k, l ≤ k → k < i' → less P (a k) = false)
    (upper : ∀ k, j' < k → k ≤ u → less (a k) P = false)
    (stops : less (a i') P = false) (stops' : less P (a j') = false) :
    Partitioning less S P l u (exchange a i' j') i' j' := by
  obtain ⟨⟨first, ordered, last⟩, room, pivot, members, low, high⟩ := partitioning
  have exchanged := rearranged_exchange (l := l) (u := u) a (i := i') (j := j') (by omega)
    (by omega)
  refine ⟨by omega, by omega, ?_, exchanged.forall_inside members, ?_, ?_⟩
  · rw [exchange_of_ne (by omega) (by omega), pivot]
  · intro k above below
    by_cases isHere : k = i'
    · rw [isHere, exchange_left, stops']
    · rw [exchange_of_ne isHere (by omega)]
      exact lower k above (by omega)
  · intro k above below
    by_cases isHere : k = j'
    · rw [isHere, exchange_right, stops]
    · rw [exchange_of_ne (by omega) isHere]
      exact upper k (by omega) below

theorem partitionFrom_splits (order : WeakOrder sort_comp less S)
    (partitioning : Partitioning less S P l u s.a i j) (enough : j - l < fuel) :
    ∃ m final, (partitionFrom sort_comp P l u fuel i j).run s = .returned m final ∧
      Rearranged l u s.a final.a ∧ final.a (u - 1) = P ∧
      (l < m ∧ m < u) ∧ (∀ k, l ≤ k → k < m → less P (final.a k) = false) ∧
      ∀ k, m ≤ k → k ≤ u → less (final.a k) P = false := by
  induction fuel generalizing i j s with
  | zero => omega
  | succ fuel inductionHypothesis =>
      obtain ⟨i', j', middle, last, up, down, same, places, lower, upper, stops, stops'⟩ :=
        partitioning.scans order
      have bounds := partitioning.bounds
      rw [partitionFrom, Program.run_bind up, Program.run_bind down]
      dsimp only
      by_cases crossed : j' < i'
      · rw [if_pos crossed]
        refine ⟨i', last, rfl, ?_⟩
        rw [same]
        refine ⟨.refl l u s.a, partitioning.pivot, by omega, lower, ?_⟩
        exact fun k fromHere within => upper k (by omega) within
      · rw [if_neg crossed, Program.run_bind (run_set2 (by rw [same]) (by rw [same])), same]
        have first := rearranged_exchange (l := l) (u := u) s.a (i := i') (j := j') (by omega)
          (by omega)
        have later := partitioning.exchanged places (not_lt.mp crossed) lower upper stops stops'
        obtain ⟨m, final, partitioned, rearranged, rest⟩ := inductionHypothesis
          (s := { last with a := exchange s.a i' j' }) later (by omega)
        exact ⟨m, final, partitioned, first.trans rearranged, rest⟩

theorem orderEnds_sorts (order : WeakOrder sort_comp less S)
    (members : ∀ k, l ≤ k → k ≤ u → S (s.a k)) (apart : l < u) :
    ∃ final, (orderEnds sort_comp l u).run s = .returned () final ∧
      Rearranged l u s.a final.a ∧ less (final.a u) (final.a l) = false := by
  have first := members l le_rfl apart.le
  have last := members u apart.le le_rfl
  obtain ⟨middle, compared, same⟩ := order.decides _ _ last first s
  rw [orderEnds, run_rawgeti, run_rawgeti, Program.run_bind compared]
  cases isLess : less (s.a u) (s.a l) with
  | false =>
      refine ⟨middle, rfl, ?_⟩
      rw [same]
      exact ⟨.refl l u s.a, isLess⟩
  | true =>
      rw [if_pos rfl, run_set2 (by rw [same]) (by rw [same]), same]
      refine ⟨_, rfl, rearranged_exchange s.a ⟨le_rfl, apart.le⟩ ⟨apart.le, le_rfl⟩, ?_⟩
      dsimp only
      rw [exchange_left, exchange_right]
      exact order.asymm _ _ last first isLess

theorem medianOfThree_sorts (order : WeakOrder sort_comp less S)
    (members : ∀ k, l ≤ k → k ≤ u → S (s.a k)) (lower : l < i) (upper : i < u)
    (ends : less (s.a u) (s.a l) = false) :
    ∃ final, (medianOfThree sort_comp l i u).run s = .returned () final ∧
      Rearranged l u s.a final.a ∧ less (final.a i) (final.a l) = false ∧
      less (final.a u) (final.a i) = false := by
  have first := members l le_rfl (by omega)
  have inner := members i lower.le upper.le
  have last := members u (by omega) le_rfl
  obtain ⟨middle, compared, same⟩ := order.decides _ _ inner first s
  rw [medianOfThree, run_rawgeti, run_rawgeti, Program.run_bind compared]
  cases tooLow : less (s.a i) (s.a l) with
  | true =>
      rw [if_pos rfl, run_set2 (by rw [same]) (by rw [same]), same]
      refine ⟨_, rfl, rearranged_exchange s.a ⟨lower.le, upper.le⟩ ⟨le_rfl, by omega⟩,
        ?_, ?_⟩
      · dsimp only
        rw [exchange_left, exchange_right]
        exact order.asymm _ _ inner first tooLow
      · dsimp only
        rwa [exchange_left, exchange_of_ne (by omega) (by omega)]
  | false =>
      obtain ⟨final, compared', same'⟩ := order.decides _ _ last inner middle
      rw [if_neg Bool.false_ne_true, run_rawgeti, same, Program.run_bind compared']
      rw [same] at same'
      cases tooHigh : less (s.a u) (s.a i) with
      | true =>
          rw [if_pos rfl, run_set2 (by rw [same']) (by rw [same']), same']
          refine ⟨_, rfl, rearranged_exchange s.a ⟨lower.le, upper.le⟩ ⟨by omega, le_rfl⟩,
            ?_, ?_⟩
          · dsimp only
            rwa [exchange_left, exchange_of_ne (by omega) (by omega)]
          · dsimp only
            rw [exchange_left, exchange_right]
            exact order.asymm _ _ last inner tooHigh
      | false =>
          refine ⟨final, rfl, ?_⟩
          rw [same']
          exact ⟨.refl l u s.a, tooLow, tooHigh⟩

theorem Split.lower (split : Split less a l m u) (rearranged : Rearranged l (m - 1) a b)
    (positive : l < m) : Split less b l m u := by
  have middle : b m = a m := rearranged.outside (by omega)
  refine ⟨fun k above below => ?_, fun k above below => ?_⟩
  · rw [middle]
    exact rearranged.forall_inside (p := fun x => less (a m) x = false)
      (fun k above below => split.below k above (by omega)) k above (by omega)
  · rw [middle, rearranged.outside (k := k) (by omega)]
    exact split.above k above below

theorem Split.upper (split : Split less a l m u) (rearranged : Rearranged (m + 1) u a b) :
    Split less b l m u := by
  have middle : b m = a m := rearranged.outside (by omega)
  refine ⟨fun k above below => ?_, fun k above below => ?_⟩
  · rw [middle, rearranged.outside (k := k) (by omega)]
    exact split.below k above below
  · rw [middle]
    exact rearranged.forall_inside (p := fun x => less x (a m) = false)
      (fun k above below => split.above k (by omega) below) k (by omega) below

theorem SortedOn.keep (sorted : SortedOn less a l u) (same : ∀ k, l ≤ k → k ≤ u → b k = a k) :
    SortedOn less b l u := by
  intro i j lower apart upper
  rw [same i lower (by omega), same j (by omega) upper]
  exact sorted i j lower apart upper

theorem Split.sorted (order : WeakOrder sort_comp less S) (split : Split less a l m u)
    (members : ∀ k, l ≤ k → k ≤ u → S (a k)) (within : l ≤ m ∧ m ≤ u)
    (lower : SortedOn less a l (m - 1)) (upper : SortedOn less a (m + 1) u) :
    SortedOn less a l u := by
  intro i j first apart last
  rcases lt_trichotomy j m with left | rfl | right
  · exact lower i j first apart (by omega)
  · exact split.below i first apart
  · rcases lt_trichotomy i m with left | rfl | both
    · exact order.trans _ _ _ (members i first (by omega)) (members m within.1 within.2)
        (members j (by omega) last) (split.below i first left) (split.above j right last)
    · exact split.above j right last
    · exact upper i j both apart last

/-- The pivot is put behind the scans, the rest partitioned, and the pivot put between the
parts. -/
theorem partition_splits (order : WeakOrder sort_comp less S)
    (members : ∀ k, l ≤ k → k ≤ u → S (s.a k)) (lower : l < i) (upper : i + 1 < u)
    (low : less (s.a i) (s.a l) = false) (high : less (s.a u) (s.a i) = false) :
    ∃ m final, (partition sort_comp l i u).run s = .returned m final ∧
      Rearranged l u s.a final.a ∧ (l < m ∧ m < u) ∧ Split less final.a l m u := by
  have first := rearranged_exchange (l := l) (u := u) s.a (i := i) (j := u - 1) (by omega)
    (by omega)
  have isMember : S (s.a i) := members i lower.le (by omega)
  have start : Partitioning less S (s.a i) l u (exchange s.a i (u - 1)) l (u - 1) := by
    refine ⟨by omega, by omega, exchange_right s.a i (u - 1), first.forall_inside members,
      ?_, ?_⟩
    · intro k above below
      obtain rfl : k = l := by omega
      rwa [exchange_of_ne (by omega) (by omega)]
    · intro k above below
      by_cases isLast : k = u
      · rwa [isLast, exchange_of_ne (by omega) (by omega)]
      · obtain rfl : k = u - 1 := by omega
        rw [exchange_right]
        exact order.irrefl isMember
  obtain ⟨m, final, partitioned, rearranged, pivot, within, below, above⟩ :=
    partitionFrom_splits (s := { s with a := exchange s.a i (u - 1) }) order start
      (show u - 1 - l < u + 1 by omega)
  have home := rearranged_exchange (l := l) (u := u) final.a (i := u - 1) (j := m) (by omega)
    (by omega)
  refine ⟨m, { final with a := exchange final.a (u - 1) m }, ?_,
    (first.trans rearranged).trans home, within, ?_, ?_⟩
  · rw [partition, run_rawgeti, run_rawgeti, Program.run_bind (run_set2 rfl rfl),
      Program.run_bind partitioned, run_rawgeti, run_rawgeti,
      Program.run_bind (run_set2 rfl rfl)]
    rfl
  · intro k first before
    dsimp only
    rw [exchange_right, pivot, exchange_of_ne (by omega) (by omega)]
    exact below k first before
  · intro k behind last
    dsimp only
    rw [exchange_right, pivot]
    by_cases isHome : k = u - 1
    · rw [isHome, exchange_left]
      exact above m le_rfl within.2.le
    · rw [exchange_of_ne isHome (by omega)]
      exact above k behind.le last

theorem Split.lower_upper {c : Elements} (order : WeakOrder sort_comp less S)
    (split : Split less a l m u) (members : ∀ k, l ≤ k → k ≤ u → S (a k)) (within : l < m ∧ m < u)
    (lower : Rearranged l (m - 1) a b) (sorted : SortedOn less b l (m - 1))
    (upper : Rearranged (m + 1) u b c) (sorted' : SortedOn less c (m + 1) u) :
    Rearranged l u a c ∧ SortedOn less c l u := by
  have whole : Rearranged l u a c :=
    (lower.mono le_rfl (by omega)).trans (upper.mono (by omega) le_rfl)
  have kept := sorted.keep fun k above upto => upper.outside (k := k) (by omega)
  exact ⟨whole, ((split.lower lower within.1).upper upper).sorted order
    (whole.forall_inside members) ⟨within.1.le, within.2.le⟩ kept sorted'⟩

theorem Split.upper_lower {c : Elements} (order : WeakOrder sort_comp less S)
    (split : Split less a l m u) (members : ∀ k, l ≤ k → k ≤ u → S (a k)) (within : l < m ∧ m < u)
    (upper : Rearranged (m + 1) u a b) (sorted : SortedOn less b (m + 1) u)
    (lower : Rearranged l (m - 1) b c) (sorted' : SortedOn less c l (m - 1)) :
    Rearranged l u a c ∧ SortedOn less c l u := by
  have whole : Rearranged l u a c :=
    (upper.mono (by omega) le_rfl).trans (lower.mono le_rfl (by omega))
  have kept := sorted.keep fun k above upto => lower.outside (k := k) (by omega)
  exact ⟨whole, ((split.upper upper).lower lower within.1).sorted order
    (whole.forall_inside members) ⟨within.1.le, within.2.le⟩ sorted' kept⟩

theorem auxsort_sorts (order : WeakOrder sort_comp less S)
    (members : ∀ k, l ≤ k → k ≤ u → S (s.a k)) (enough : u + 1 - l < fuel) :
    ∃ final, (auxsort sort_comp fuel l u).run s = .returned () final ∧
      Rearranged l u s.a final.a ∧ SortedOn less final.a l u := by
  induction fuel generalizing l u s with
  | zero => omega
  | succ fuel inductionHypothesis =>
      unfold auxsort
      by_cases below : l < u
      · obtain ⟨first, ends, rearranged, outer⟩ := orderEnds_sorts order members below
        rw [if_pos below, Program.run_bind ends]
        by_cases two : u - l = 1
        · rw [if_pos two]
          refine ⟨first, rfl, rearranged, fun i j lower apart upper => ?_⟩
          obtain ⟨rfl, rfl⟩ : i = l ∧ j = u := by omega
          exact outer
        · have members₁ := rearranged.forall_inside members
          obtain ⟨second, median, rearranged₂, low, high⟩ := medianOfThree_sorts
            (i := (l + u) / 2) order members₁ (by omega) (by omega) outer
          have members₂ := rearranged₂.forall_inside members₁
          have before := rearranged.trans rearranged₂
          rw [if_neg two, Program.run_bind median]
          by_cases three : u - l = 2
          · rw [if_pos three]
            have split : Split less second.a l ((l + u) / 2) u := by
              refine ⟨fun k above inner => ?_, fun k behind inner => ?_⟩
              · obtain rfl : k = l := by omega
                exact low
              · obtain rfl : k = u := by omega
                exact high
            exact ⟨second, rfl, before, split.sorted order members₂ (by omega)
              (fun i j _ _ _ => by omega) (fun i j _ _ _ => by omega)⟩
          · obtain ⟨m, third, partitioned, rearranged₃, within, split⟩ := partition_splits order
              members₂ (show l < (l + u) / 2 by omega) (by omega) low high
            have members₃ := rearranged₃.forall_inside members₂
            rw [if_neg three, Program.run_bind partitioned]
            by_cases smaller : m + m < l + u
            · obtain ⟨fourth, lower, rearranged₄, sorted⟩ := inductionHypothesis (l := l)
                (u := m - 1) (fun k above upto => members₃ k above (by omega)) (by omega)
              have members₄ :=
                (rearranged₄.mono le_rfl (show m - 1 ≤ u by omega)).forall_inside members₃
              obtain ⟨fifth, upper, rearranged₅, sorted'⟩ := inductionHypothesis (l := m + 1)
                (u := u) (fun k above upto => members₄ k (by omega) upto) (by omega)
              obtain ⟨later, all⟩ :=
                split.lower_upper order members₃ within rearranged₄ sorted rearranged₅ sorted'
              rw [if_pos smaller, Program.run_bind lower]
              exact ⟨fifth, upper, (before.trans rearranged₃).trans later, all⟩
            · obtain ⟨fourth, upper, rearranged₄, sorted⟩ := inductionHypothesis (l := m + 1)
                (u := u) (fun k above upto => members₃ k (by omega) upto) (by omega)
              have members₄ :=
                (rearranged₄.mono (show l ≤ m + 1 by omega) le_rfl).forall_inside members₃
              obtain ⟨fifth, lower, rearranged₅, sorted'⟩ := inductionHypothesis (l := l)
                (u := m - 1) (fun k above upto => members₄ k above (by omega)) (by omega)
              obtain ⟨later, all⟩ :=
                split.upper_lower order members₃ within rearranged₄ sorted rearranged₅ sorted'
              rw [if_neg smaller, Program.run_bind upper]
              exact ⟨fifth, lower, (before.trans rearranged₃).trans later, all⟩
      · rw [if_neg below]
        exact ⟨s, rfl, .refl l u s.a, fun i j _ _ _ => by omega⟩

/-- With a strict weak order of the elements that leaves the table alone, sorting ends,
rearranges them and leaves none before a lesser one. -/
theorem sort_sorts {n : Nat} (order : WeakOrder sort_comp less S)
    (members : ∀ k, 1 ≤ k → k ≤ n → S (s.a k)) (enough : n < fuel) :
    ∃ final, (sort sort_comp fuel n).run s = .returned () final ∧
      Rearranged 1 n s.a final.a ∧ SortedOn less final.a 1 n :=
  auxsort_sorts order members (by omega)

/-- `false` is less than `true`. -/
def falseFirst : LuaValue → LuaValue → Bool
  | .boolean first, .boolean second => !first && second
  | _, _ => false

/-- The order function counts how often it is called. -/
def countedFalseFirst (x y : LuaValue) : Program (Sorting Nat) LuaValue Bool :=
  ⟨fun s => .returned (falseFirst x y) { s with world := s.world + 1 }⟩

theorem countedFalseFirst_order : WeakOrder countedFalseFirst falseFirst
    fun x => x = .boolean true ∨ x = .boolean false := by
  refine ⟨fun x y _ _ s => ⟨_, rfl, rfl⟩, ?_, ?_⟩
  · rintro x y (rfl | rfl) (rfl | rfl) <;> decide
  · rintro x y z (rfl | rfl) (rfl | rfl) (rfl | rfl) <;> decide

theorem sort_sorts_fiveElements :
    ∃ final, (sort countedFalseFirst 6 5).run ⟨fiveElements, 0⟩ = .returned () final ∧
      Rearranged 1 5 fiveElements final.a ∧ SortedOn falseFirst final.a 1 5 := by
  apply sort_sorts countedFalseFirst_order
  · intro k lower upper
    interval_cases k <;> decide
  · decide

end Sorting

end LuaEngine.Lua
