import Mathlib

/-!
# Chains through an array

The cells of an array are linked by the index of a next cell, if there is one.  No cell
has two before it and no chain comes back to where it began, so a search along a chain
ends.  A cell can be put into a chain behind another, and a cell of a chain can be moved
to a free place.
-/

namespace LuaEngine.System

/-- One cell leads to another along the links. -/
abbrev Leads (next : Nat → Option Nat) : Nat → Nat → Prop :=
  Relation.ReflTransGen fun i j => next i = some j

structure Chained (next : Nat → Option Nat) (size : Nat) : Prop where
  inside : ∀ {i j}, next i = some j → i < size ∧ j < size
  injective : ∀ {i j k}, next i = some k → next j = some k → i = j
  ascending : ∃ rank : Nat → ℚ, ∀ {i j}, next i = some j → rank i < rank j

section Search

variable {next : Nat → Option Nat} {test : Nat → Bool} {size i j : Nat}

/-- The first cell along the chain that passes the test. -/
def seek (next : Nat → Option Nat) (test : Nat → Bool) : Nat → Nat → Option Nat
  | 0, _ => none
  | fuel + 1, i =>
      if test i then
        some i
      else
        match next i with
        | some j => seek next test fuel j
        | none => none

theorem seek_sound {fuel found : Nat} (result : seek next test fuel i = some found) :
    Leads next i found ∧ test found = true := by
  induction fuel generalizing i with
  | zero => contradiction
  | succ fuel inductionHypothesis =>
      unfold seek at result
      split at result
      next passed =>
        obtain rfl := Option.some.inj result
        exact ⟨.refl, passed⟩
      next =>
        split at result
        next j linked =>
          obtain ⟨leads, passed⟩ := inductionHypothesis result
          exact ⟨.head linked leads, passed⟩
        next => contradiction

/-- Whatever else passes the test stands behind what is found. -/
theorem seek_first {fuel found : Nat} (result : seek next test fuel i = some found)
    (leads : Leads next i j) (passed : test j = true) : Leads next found j := by
  induction fuel generalizing i with
  | zero => contradiction
  | succ fuel inductionHypothesis =>
      unfold seek at result
      split at result
      next =>
        obtain rfl := Option.some.inj result
        exact leads
      next failed =>
        rcases Relation.ReflTransGen.cases_head leads with same | ⟨middle, linked, later⟩
        · rw [same] at failed
          contradiction
        · rw [linked] at result
          exact inductionHypothesis result later

/-- The number of links from one cell to another. -/
inductive LeadsIn (next : Nat → Option Nat) : Nat → Nat → Nat → Prop
  | here (i : Nat) : LeadsIn next 0 i i
  | link {i j k steps : Nat} (linked : next i = some j) (later : LeadsIn next steps j k) :
      LeadsIn next (steps + 1) i k

theorem Leads.steps (leads : Leads next i j) : ∃ steps, LeadsIn next steps i j := by
  induction leads using Relation.ReflTransGen.head_induction_on with
  | refl => exact ⟨0, .here j⟩
  | head linked _ inductionHypothesis =>
      obtain ⟨steps, later⟩ := inductionHypothesis
      exact ⟨steps + 1, .link linked later⟩

theorem seek_of_leadsIn {steps fuel : Nat} (leads : LeadsIn next steps i j)
    (passed : test j = true) (enough : steps < fuel) :
    ∃ found, seek next test fuel i = some found := by
  induction leads generalizing fuel with
  | here i =>
      obtain ⟨fuel, rfl⟩ := Nat.exists_eq_succ_of_ne_zero (Nat.ne_zero_of_lt enough)
      exact ⟨i, by rw [seek, if_pos passed]⟩
  | @link i middle k steps linked later inductionHypothesis =>
      obtain ⟨fuel, rfl⟩ := Nat.exists_eq_succ_of_ne_zero (Nat.ne_zero_of_lt enough)
      rw [seek, linked]
      split
      next => exact ⟨i, rfl⟩
      next => exact inductionHypothesis passed (Nat.lt_of_succ_lt_succ enough)

namespace Chained

/-- The cells on the way, the last one first. -/
theorem leadsIn_lt (chained : Chained next size) {steps : Nat}
    (leads : LeadsIn next steps i j) (within : i < size) : steps < size := by
  obtain ⟨rank, ascending⟩ := chained.ascending
  -- the cells on the way are distinct, because their ranks ascend
  suffices passed : ∃ cells : Finset Nat, cells.card = steps + 1 ∧
      ∀ cell ∈ cells, cell < size ∧ rank i ≤ rank cell by
    obtain ⟨cells, card, bounded⟩ := passed
    have subset : cells ⊆ Finset.range size := fun cell membership =>
      Finset.mem_range.mpr (bounded cell membership).1
    have few := Finset.card_le_card subset
    rw [card, Finset.card_range] at few
    exact few
  induction leads with
  | here i => exact ⟨{i}, rfl, by simpa using within⟩
  | @link i middle k steps linked later inductionHypothesis =>
      obtain ⟨cells, card, bounded⟩ := inductionHypothesis (chained.inside linked).2
      have fresh : i ∉ cells := fun membership =>
        absurd (ascending linked) (not_lt.mpr (bounded i membership).2)
      refine ⟨insert i cells, by rw [Finset.card_insert_of_notMem fresh, card], ?_⟩
      intro cell membership
      rcases Finset.mem_insert.mp membership with rfl | earlier
      · exact ⟨within, le_refl _⟩
      · exact ⟨(bounded cell earlier).1, (ascending linked).le.trans (bounded cell earlier).2⟩

/-- A search as long as the array finds what is there. -/
theorem seek_complete (chained : Chained next size) (within : i < size)
    (leads : Leads next i j) (passed : test j = true) :
    ∃ found, seek next test size i = some found := by
  obtain ⟨steps, counted⟩ := leads.steps
  exact seek_of_leadsIn counted passed (chained.leadsIn_lt counted within)

theorem rank_le {rank : Nat → ℚ} (ascending : ∀ {i j}, next i = some j → rank i < rank j)
    (leads : Leads next i j) : rank i ≤ rank j := by
  induction leads with
  | refl => exact le_refl _
  | tail _ linked inductionHypothesis => exact inductionHypothesis.trans (ascending linked).le

theorem antisymm (chained : Chained next size) (forth : Leads next i j)
    (back : Leads next j i) : i = j := by
  obtain ⟨rank, ascending⟩ := chained.ascending
  rcases Relation.ReflTransGen.cases_head forth with same | ⟨middle, linked, later⟩
  · exact same
  · have strict := (ascending linked).trans_le (rank_le ascending (later.trans back))
    exact absurd strict (lt_irrefl _)

theorem ne_of_link (chained : Chained next size) (linked : next i = some j) : i ≠ j := by
  rintro rfl
  obtain ⟨rank, ascending⟩ := chained.ascending
  exact lt_irrefl _ (ascending linked)

end Chained

end Search

/-- A cell no chain goes through. -/
structure Loose (next : Nat → Option Nat) (n : Nat) : Prop where
  last : next n = none
  first : ∀ i, next i ≠ some n

/-! ## Putting a cell behind another -/

section Splice

variable {next : Nat → Option Nat} {size i j m n : Nat}

def splice (next : Nat → Option Nat) (m n : Nat) : Nat → Option Nat :=
  Function.update (Function.update next n (next m)) m (some n)

theorem splice_self : splice next m n m = some n := Function.update_self _ _ _

theorem splice_new (different : m ≠ n) : splice next m n n = next m := by
  rw [splice, Function.update_of_ne different.symm, Function.update_self]

theorem splice_of_ne (notSelf : i ≠ m) (notNew : i ≠ n) : splice next m n i = next i := by
  rw [splice, Function.update_of_ne notSelf, Function.update_of_ne notNew]

theorem splice_cases (different : m ≠ n) (linked : splice next m n i = some j) :
    (i = m ∧ j = n) ∨ (i = n ∧ next m = some j) ∨ (i ≠ m ∧ i ≠ n ∧ next i = some j) := by
  by_cases isSelf : i = m
  · rw [isSelf, splice_self] at linked
    exact .inl ⟨isSelf, (Option.some.inj linked).symm⟩
  · by_cases isNew : i = n
    · rw [isNew, splice_new different] at linked
      exact .inr (.inl ⟨isNew, linked⟩)
    · rw [splice_of_ne isSelf isNew] at linked
      exact .inr (.inr ⟨isSelf, isNew, linked⟩)

theorem Chained.splice (chained : Chained next size) (loose : Loose next n)
    (different : m ≠ n) (within : m < size) (within' : n < size) :
    Chained (splice next m n) size where
  inside linked := by
    rcases splice_cases different linked with ⟨rfl, rfl⟩ | ⟨rfl, onwards⟩ | ⟨-, -, kept⟩
    · exact ⟨within, within'⟩
    · exact ⟨within', (chained.inside onwards).2⟩
    · exact chained.inside kept
  injective {i j k} first second := by
    rcases splice_cases different first with ⟨rfl, rfl⟩ | ⟨rfl, linked⟩ | ⟨notSelf, -, linked⟩
    · rcases splice_cases different second with ⟨rfl, -⟩ | ⟨-, linked'⟩ | ⟨-, -, linked'⟩
      · rfl
      · exact absurd linked' (loose.first _)
      · exact absurd linked' (loose.first _)
    · rcases splice_cases different second with ⟨-, rfl⟩ | ⟨rfl, -⟩ | ⟨notSelf, -, linked'⟩
      · exact absurd linked (loose.first _)
      · rfl
      · exact absurd (chained.injective linked' linked) notSelf
    · rcases splice_cases different second with ⟨-, rfl⟩ | ⟨rfl, linked'⟩ | ⟨-, -, linked'⟩
      · exact absurd linked (loose.first _)
      · exact absurd (chained.injective linked linked') notSelf
      · exact chained.injective linked linked'
  ascending := by
    obtain ⟨rank, ascending⟩ := chained.ascending
    -- the new cell gets a rank between those of its neighbours
    obtain ⟨between, above, below⟩ : ∃ between : ℚ, rank m < between ∧
        ∀ j, next m = some j → between < rank j := by
      cases follows : next m with
      | none => exact ⟨rank m + 1, lt_add_one _, by simp⟩
      | some k =>
          obtain ⟨between, above, below⟩ := exists_between (ascending follows)
          refine ⟨between, above, ?_⟩
          intro j same
          rwa [← Option.some.inj same]
    refine ⟨Function.update rank n between, ?_⟩
    intro i j linked
    rcases splice_cases different linked with ⟨rfl, rfl⟩ | ⟨rfl, onwards⟩ | ⟨-, notNew, kept⟩
    · rwa [Function.update_of_ne different, Function.update_self]
    · have notSame : j ≠ i := fun same => loose.first m (same ▸ onwards)
      rw [Function.update_self, Function.update_of_ne notSame]
      exact below j onwards
    · have notSame : j ≠ n := fun same => loose.first i (same ▸ kept)
      rw [Function.update_of_ne notNew, Function.update_of_ne notSame]
      exact ascending kept

theorem Leads.splice (loose : Loose next n) (different : m ≠ n) (leads : Leads next i j) :
    Leads (splice next m n) i j := by
  induction leads with
  | refl => exact .refl
  | @tail j k _ linked inductionHypothesis =>
      by_cases isSelf : j = m
      · subst isSelf
        have toNew : System.splice next j n j = some n := splice_self
        have fromNew : System.splice next j n n = some k := (splice_new different).trans linked
        exact (inductionHypothesis.tail toNew).tail fromNew
      · have notNew : j ≠ n := by
          rintro rfl
          rw [loose.last] at linked
          contradiction
        exact inductionHypothesis.tail ((splice_of_ne isSelf notNew).trans linked)

/-- What stood behind the cell stands behind the new one. -/
theorem Leads.splice_new (loose : Loose next n) (different : m ≠ n) (leads : Leads next m j)
    (notSelf : j ≠ m) : Leads (System.splice next m n) n j := by
  rcases Relation.ReflTransGen.cases_head leads with same | ⟨middle, linked, later⟩
  · exact absurd same.symm notSelf
  · exact .head ((System.splice_new different).trans linked) (Leads.splice loose different later)

/-- Between other cells the chains go as before. -/
theorem Leads.of_splice (loose : Loose next n) (different : m ≠ n)
    (leads : Leads (System.splice next m n) i j) (notNew : i ≠ n) (notNew' : j ≠ n) :
    Leads next i j := by
  suffices both : (i ≠ n → Leads next i j) ∧ (i = n → Leads next m j) from both.1 notNew
  clear notNew
  induction leads using Relation.ReflTransGen.head_induction_on with
  | refl => exact ⟨fun _ => .refl, fun isNew => absurd isNew notNew'⟩
  | @head i k linked _ inductionHypothesis =>
      rcases splice_cases different linked with
        ⟨rfl, isNew⟩ | ⟨isNew, onwards⟩ | ⟨-, notNew, kept⟩
      · exact ⟨fun _ => inductionHypothesis.2 isNew, fun isNew => absurd isNew different⟩
      · have notSame : k ≠ n := fun same => loose.first m (same ▸ onwards)
        exact ⟨fun notNew => absurd isNew notNew,
          fun _ => .head onwards (inductionHypothesis.1 notSame)⟩
      · have notSame : k ≠ n := fun same => loose.first i (same ▸ kept)
        exact ⟨fun _ => .head kept (inductionHypothesis.1 notSame),
          fun isNew => absurd isNew notNew⟩

theorem Loose.splice (loose : Loose next i) (notSelf : i ≠ m) (notNew : i ≠ n)
    (different : m ≠ n) : Loose (System.splice next m n) i where
  last := (splice_of_ne notSelf notNew).trans loose.last
  first j linked := by
    rcases splice_cases different linked with ⟨-, same⟩ | ⟨-, onwards⟩ | ⟨-, -, kept⟩
    · exact notNew same
    · exact loose.first m onwards
    · exact loose.first j kept

end Splice

/-! ## Moving a cell to a free place -/

section Relocate

variable {next : Nat → Option Nat} {size i j m n before : Nat}

/-- The cell `m`, which stands behind `before`, is moved to `n`. -/
def relocate (next : Nat → Option Nat) (before m n : Nat) : Nat → Option Nat :=
  Function.update (Function.update (Function.update next before (some n)) n (next m)) m none

/-- Where a cell is after the move. -/
def moved (m n i : Nat) : Nat := if i = m then n else i

@[simp]
theorem moved_self : moved m n m = n := if_pos rfl

theorem moved_of_ne (notSelf : i ≠ m) : moved m n i = i := if_neg notSelf

theorem moved_moved (notNew : i ≠ n) : moved n m (moved m n i) = i := by
  by_cases isSelf : i = m
  · rw [isSelf, moved_self, moved_self]
  · rw [moved_of_ne isSelf, moved_of_ne notNew]

theorem moved_ne (different : n ≠ m) : moved m n i ≠ m := by
  unfold moved
  split
  next => exact different
  next notSelf => exact notSelf

theorem relocate_self : relocate next before m n m = none := Function.update_self _ _ _

theorem relocate_new (different : n ≠ m) : relocate next before m n n = next m := by
  rw [relocate, Function.update_of_ne different, Function.update_self]

theorem relocate_before (notSelf : before ≠ m) (notNew : before ≠ n) :
    relocate next before m n before = some n := by
  rw [relocate, Function.update_of_ne notSelf, Function.update_of_ne notNew, Function.update_self]

theorem relocate_of_ne (notBefore : i ≠ before) (notSelf : i ≠ m) (notNew : i ≠ n) :
    relocate next before m n i = next i := by
  rw [relocate, Function.update_of_ne notSelf, Function.update_of_ne notNew,
    Function.update_of_ne notBefore]

theorem Loose.ne_of_link (loose : Loose next n) (linked : next i = some j) : i ≠ n := by
  rintro rfl
  rw [loose.last] at linked
  contradiction

theorem relocate_cases (different : n ≠ m)
    (linked : relocate next before m n i = some j) :
    (i = n ∧ next m = some j) ∨ (i = before ∧ i ≠ m ∧ i ≠ n ∧ j = n) ∨
      (i ≠ before ∧ i ≠ m ∧ i ≠ n ∧ next i = some j) := by
  by_cases isSelf : i = m
  · rw [isSelf, relocate_self] at linked
    contradiction
  · by_cases isNew : i = n
    · rw [isNew, relocate_new different] at linked
      exact .inl ⟨isNew, linked⟩
    · by_cases isBefore : i = before
      · have notSelf : before ≠ m := isBefore ▸ isSelf
        have notNew : before ≠ n := isBefore ▸ isNew
        rw [isBefore, relocate_before notSelf notNew] at linked
        exact .inr (.inl ⟨isBefore, isSelf, isNew, (Option.some.inj linked).symm⟩)
      · rw [relocate_of_ne isBefore isSelf isNew] at linked
        exact .inr (.inr ⟨isBefore, isSelf, isNew, linked⟩)

theorem Chained.relocate (chained : Chained next size) (loose : Loose next n)
    (stands : next before = some m) (within : n < size) :
    Chained (relocate next before m n) size := by
  have different : n ≠ m := fun same => loose.first before (same ▸ stands)
  refine ⟨?_, ?_, ?_⟩
  · intro i j linked
    rcases relocate_cases different linked with ⟨rfl, onwards⟩ | ⟨rfl, -, -, rfl⟩ | ⟨-, -, -, kept⟩
    · exact ⟨within, (chained.inside onwards).2⟩
    · exact ⟨(chained.inside stands).1, within⟩
    · exact chained.inside kept
  · intro i j k first second
    rcases relocate_cases different first with
      ⟨rfl, linked⟩ | ⟨rfl, -, -, rfl⟩ | ⟨notBefore, notSelf, -, linked⟩
    · rcases relocate_cases different second with
        ⟨rfl, -⟩ | ⟨-, -, -, rfl⟩ | ⟨-, notSelf, -, linked'⟩
      · rfl
      · exact absurd linked (loose.first _)
      · exact absurd (chained.injective linked' linked) notSelf
    · rcases relocate_cases different second with
        ⟨-, linked'⟩ | ⟨rfl, -, -, -⟩ | ⟨-, -, -, linked'⟩
      · exact absurd linked' (loose.first _)
      · rfl
      · exact absurd linked' (loose.first _)
    · rcases relocate_cases different second with
        ⟨rfl, linked'⟩ | ⟨-, -, -, rfl⟩ | ⟨-, -, -, linked'⟩
      · exact absurd (chained.injective linked linked') notSelf
      · exact absurd linked (loose.first _)
      · exact chained.injective linked linked'
  · obtain ⟨rank, ascending⟩ := chained.ascending
    refine ⟨Function.update rank n (rank m), ?_⟩
    intro i j linked
    rcases relocate_cases different linked with
      ⟨rfl, onwards⟩ | ⟨rfl, -, notNew, rfl⟩ | ⟨-, -, notNew, kept⟩
    · have notSame : j ≠ i := fun same => loose.first m (same ▸ onwards)
      rw [Function.update_self, Function.update_of_ne notSame]
      exact ascending onwards
    · rw [Function.update_of_ne notNew, Function.update_self]
      exact ascending stands
    · have notSame : j ≠ n := fun same => loose.first i (same ▸ kept)
      rw [Function.update_of_ne notNew, Function.update_of_ne notSame]
      exact ascending kept

/-- The chains go through the new place as they went through the old one. -/
theorem Leads.relocate (chained : Chained next size) (loose : Loose next n)
    (stands : next before = some m) (leads : Leads next i j) :
    Leads (relocate next before m n) (moved m n i) (moved m n j) := by
  have different : n ≠ m := fun same => loose.first before (same ▸ stands)
  induction leads with
  | refl => exact .refl
  | @tail j k _ linked inductionHypothesis =>
      apply inductionHypothesis.tail
      by_cases isSelf : j = m
      · subst isSelf
        rw [moved_self, moved_of_ne (chained.ne_of_link linked).symm, relocate_new different]
        exact linked
      · have notNew : j ≠ n := loose.ne_of_link linked
        rw [moved_of_ne isSelf]
        by_cases toSelf : k = m
        · subst toSelf
          obtain rfl := chained.injective linked stands
          rw [moved_self, relocate_before isSelf notNew]
        · have notBefore : j ≠ before := by
            rintro rfl
            rw [stands] at linked
            exact toSelf (Option.some.inj linked).symm
          rw [moved_of_ne toSelf, relocate_of_ne notBefore isSelf notNew]
          exact linked

/-- And they go through no other places. -/
theorem Leads.of_relocate (chained : Chained next size) (loose : Loose next n)
    (stands : next before = some m) (leads : Leads (System.relocate next before m n) i j)
    (notSelf : i ≠ m) : Leads next (moved n m i) (moved n m j) := by
  have different : n ≠ m := fun same => loose.first before (same ▸ stands)
  induction leads using Relation.ReflTransGen.head_induction_on with
  | refl => exact .refl
  | @head i k linked _ inductionHypothesis =>
      rcases relocate_cases different linked with
        ⟨rfl, onwards⟩ | ⟨rfl, -, notNew, rfl⟩ | ⟨notBefore, -, notNew, kept⟩
      · have notSame : k ≠ m := (chained.ne_of_link onwards).symm
        have notFree : k ≠ i := fun same => loose.first m (same ▸ onwards)
        have later := inductionHypothesis notSame
        rw [moved_of_ne notFree] at later
        rw [moved_self]
        exact .head onwards later
      · have later := inductionHypothesis different
        rw [moved_self] at later
        rw [moved_of_ne notNew]
        exact .head stands later
      · have notFree : k ≠ n := fun same => loose.first i (same ▸ kept)
        have notSame : k ≠ m := by
          rintro rfl
          exact notBefore (chained.injective kept stands)
        have later := inductionHypothesis notSame
        rw [moved_of_ne notFree] at later
        rw [moved_of_ne notNew]
        exact .head kept later

/-- No chain goes through the old place any more. -/
theorem loose_relocate (chained : Chained next size) (loose : Loose next n)
    (stands : next before = some m) : Loose (relocate next before m n) m where
  last := relocate_self
  first j linked := by
    have different : n ≠ m := fun same => loose.first before (same ▸ stands)
    rcases relocate_cases different linked with
      ⟨-, onwards⟩ | ⟨-, -, -, same⟩ | ⟨notBefore, -, -, kept⟩
    · exact chained.ne_of_link onwards rfl
    · exact different same.symm
    · exact notBefore (chained.injective kept stands)

theorem Loose.relocate {k : Nat} (other : Loose next k) (loose : Loose next n)
    (stands : next before = some m) (notNew : k ≠ n) :
    Loose (System.relocate next before m n) k where
  last := by
    by_cases isSelf : k = m
    · rw [isSelf, relocate_self]
    · have notBefore : k ≠ before := other.ne_of_link stands |>.symm
      rw [relocate_of_ne notBefore isSelf notNew, other.last]
  first j linked := by
    have different : n ≠ m := fun same => loose.first before (same ▸ stands)
    rcases relocate_cases different linked with ⟨-, onwards⟩ | ⟨-, -, -, same⟩ | ⟨-, -, -, kept⟩
    · exact other.first m onwards
    · exact notNew same
    · exact other.first j kept

end Relocate

end LuaEngine.System
