import LuaEngine.Lua.HashTablePairs

/-!
# The size of the array part

Before a table grows its keys are counted: how many there are, and how many positive
integers between one power of two and the next.  The array part gets the largest size of
which more than half is in use then.
-/

namespace LuaEngine.Lua

open LuaEngine.Codec LuaEngine.System

/-! ## Logarithms -/

theorem log_2_spec : ∀ x : Fin 256, x ≠ 0 → 1 ≤ log_2.getD x 0 ∧
    2 ^ (log_2.getD x 0 - 1) ≤ x.val ∧ x.val < 2 ^ log_2.getD x 0 := by
  decide +kernel

theorem luaO_log2_spec (x : Nat) (positive : 0 < x) :
    ∃ r : Nat, luaO_log2 x = r ∧ 2 ^ r ≤ x ∧ x < 2 ^ (r + 1) := by
  induction x using Nat.strong_induction_on with
  | _ x inductionHypothesis =>
      unfold luaO_log2
      split
      next large =>
        have shifted : x >>> 8 = x / 256 := Nat.shiftRight_eq_div_pow x 8
        have smaller : x >>> 8 < x := by omega
        have nonzero : 0 < x >>> 8 := by omega
        obtain ⟨r, result, lower, upper⟩ := inductionHypothesis _ smaller nonzero
        refine ⟨8 + r, by rw [result]; rfl, ?_, ?_⟩
        · rw [Nat.pow_add]
          omega
        · rw [Nat.add_assoc, Nat.pow_add]
          omega
      next small =>
        obtain ⟨one, lower, upper⟩ := log_2_spec ⟨x, by omega⟩ fun isZero => by
          rw [Fin.ext_iff] at isZero
          exact positive.ne' isZero
        refine ⟨log_2.getD x 0 - 1, (Nat.cast_sub one).symm, lower, ?_⟩
        rwa [Nat.sub_add_cancel one]

theorem ceillog2_le_iff {x i : Nat} (positive : 0 < x) : ceillog2 x ≤ i ↔ x ≤ 2 ^ i := by
  rcases Nat.eq_or_lt_of_le positive with isOne | more
  · have isZero : ceillog2 x = 0 := by
      rw [← isOne]
      decide +kernel
    rw [isZero, ← isOne]
    exact iff_of_true (Nat.zero_le i) (Nat.one_le_two_pow)
  · obtain ⟨r, result, lower, upper⟩ := luaO_log2_spec (x - 1) (by omega)
    have value : ceillog2 x = r + 1 := by
      rw [ceillog2, result]
      rfl
    rw [value]
    constructor
    · intro below
      have := Nat.pow_le_pow_right Nat.two_pos below
      omega
    · intro bounded
      apply Nat.succ_le_of_lt
      apply (Nat.pow_lt_pow_iff_right Nat.one_lt_two).mp
      omega

theorem le_two_pow_ceillog2 {x : Nat} (positive : 0 < x) : x ≤ 2 ^ ceillog2 x :=
  (ceillog2_le_iff positive).mp le_rfl

namespace LTable

/-! ## Counts -/

/-- The key is an integer between 1 and `n`. -/
def InRange (n : Nat) (key : LuaValue) : Prop := 0 < arrayindex key ∧ arrayindex key ≤ n

instance (n : Nat) (key : LuaValue) : Decidable (InRange n key) :=
  inferInstanceAs (Decidable (_ ∧ _))

/-- The key is counted in `nums[i]`. -/
def slice (i : Nat) (key : LuaValue) : Bool :=
  InRange MAXASIZE key ∧ ceillog2 (arrayindex key).toNat = i

theorem slice_iff {i : Nat} {key : LuaValue} :
    slice i key = true ↔ InRange MAXASIZE key ∧ ceillog2 (arrayindex key).toNat = i :=
  decide_eq_true_iff

theorem inRange_two_pow {j : Nat} {key : LuaValue} (small : j ≤ MAXBITS) :
    InRange (2 ^ j) key ↔ InRange MAXASIZE key ∧ ceillog2 (arrayindex key).toNat < j + 1 := by
  have bound : 2 ^ j ≤ MAXASIZE := Nat.pow_le_pow_right Nat.two_pos small
  rw [InRange, InRange, Nat.lt_succ_iff]
  constructor
  · rintro ⟨positive, upper⟩
    refine ⟨⟨positive, by omega⟩, (ceillog2_le_iff (by omega)).mpr (by omega)⟩
  · rintro ⟨⟨positive, -⟩, logarithm⟩
    have upper := (ceillog2_le_iff (by omega)).mp logarithm
    exact ⟨positive, by omega⟩

theorem sum_slices (keys : List LuaValue) (m : Nat) :
    ∑ i ∈ Finset.range m, keys.countP (slice i) =
      keys.countP fun key => InRange MAXASIZE key ∧ ceillog2 (arrayindex key).toNat < m := by
  induction keys with
  | nil => simp
  | cons key keys inductionHypothesis =>
      have one : (∑ i ∈ Finset.range m, if slice i key = true then 1 else 0) =
          if InRange MAXASIZE key ∧ ceillog2 (arrayindex key).toNat < m then 1 else 0 := by
        by_cases candidate : InRange MAXASIZE key
        · simp [slice, candidate]
        · simp [slice, candidate]
      simp only [List.countP_cons, Finset.sum_add_distrib, inductionHypothesis, one,
        decide_eq_true_eq]

/-- All the slices up to 2^j together. -/
theorem sum_slices_two_pow (keys : List LuaValue) {j : Nat} (small : j ≤ MAXBITS) :
    ∑ i ∈ Finset.range (j + 1), keys.countP (slice i) =
      keys.countP fun key => InRange (2 ^ j) key := by
  rw [sum_slices]
  apply List.countP_congr
  intro key _
  rw [decide_eq_true_eq, decide_eq_true_eq, inRange_two_pow small]

/-- Distinct keys find room in an array of their range. -/
theorem countP_inRange_le {keys : List LuaValue} (nodup : keys.Nodup) (n : Nat) :
    keys.countP (fun key => InRange n key) ≤ n := by
  rw [List.countP_eq_length_filter]
  have inRange : ∀ key ∈ keys.filter fun key => InRange n key, InRange n key :=
    fun key membership => of_decide_eq_true (List.mem_filter.mp membership).2
  have distinct : ((keys.filter fun key => InRange n key).map
      fun key => (arrayindex key).toNat).Nodup := by
    apply (nodup.filter _).map_on
    intro key membership key' membership' same
    have positive := (inRange key membership).1
    have positive' := (inRange key' membership').1
    have indices : arrayindex key = arrayindex key' := by omega
    rw [eq_number_of_arrayindex positive, eq_number_of_arrayindex positive', indices]
  have subset : ((keys.filter fun key => InRange n key).map
      fun key => (arrayindex key).toNat).toFinset ⊆ Finset.Icc 1 n := by
    intro i membership
    obtain ⟨key, inside, rfl⟩ := List.mem_map.mp (List.mem_toFinset.mp membership)
    obtain ⟨positive, upper⟩ := inRange key inside
    rw [Finset.mem_Icc]
    omega
  have few := Finset.card_le_card subset
  rw [List.toFinset_card_of_nodup distinct, List.length_map, Nat.card_Icc,
    Nat.add_sub_cancel] at few
  exact few

theorem countint_eq (key : LuaValue) (nums : Nums) :
    (countint key nums).1 = (if InRange MAXASIZE key then 1 else 0) ∧
      ∀ i, (countint key nums).2 i = nums i + if slice i key = true then 1 else 0 := by
  have unfolded : countint key nums =
      if InRange MAXASIZE key then
        (1, Function.update nums (ceillog2 (arrayindex key).toNat)
          (nums (ceillog2 (arrayindex key).toNat) + 1))
      else
        (0, nums) := rfl
  rw [unfolded]
  by_cases candidate : InRange MAXASIZE key
  · rw [if_pos candidate, if_pos candidate]
    refine ⟨rfl, fun i => ?_⟩
    dsimp only
    by_cases same : i = ceillog2 (arrayindex key).toNat
    · rw [same, Function.update_self, if_pos (slice_iff.mpr ⟨candidate, rfl⟩)]
    · rw [Function.update_of_ne same,
        if_neg fun counted => same (slice_iff.mp counted).2.symm]
      rfl
  · rw [if_neg candidate, if_neg candidate]
    refine ⟨rfl, fun i => ?_⟩
    rw [if_neg fun counted => candidate (slice_iff.mp counted).1]
    rfl

/-! ## Counting the keys -/

/-- Element `i` of the array part, counted from 1, is not nil. -/
def used (t : LTable) (i : Nat) : Bool := t.array.getD (i - 1) .nil ≠ .nil

abbrev arrayKeys (t : LTable) : List LuaValue := t.arrayEntries.map Prod.fst

abbrev liveKeys (t : LTable) : List LuaValue := (liveEntries t.node).map Prod.fst

theorem numusehash_eq (t : LTable) (nums : Nums) :
    (t.numusehash nums).1 = t.liveKeys.length ∧
      (t.numusehash nums).2.1 = t.liveKeys.countP (fun key => InRange MAXASIZE key) ∧
      ∀ i, (t.numusehash nums).2.2 i = nums i + t.liveKeys.countP (slice i) := by
  have counted : ∀ (nodes : List Node) (total ause : Nat) (nums : Nums),
      let result := nodes.foldl countNode (total, ause, nums)
      result.1 = total + ((liveEntries nodes).map Prod.fst).length ∧
        result.2.1 =
          ause + ((liveEntries nodes).map Prod.fst).countP (fun key => InRange MAXASIZE key) ∧
        ∀ i, result.2.2 i = nums i + ((liveEntries nodes).map Prod.fst).countP (slice i) := by
    intro nodes
    induction nodes with
    | nil => simp [liveEntries]
    | cons n nodes inductionHypothesis =>
        intro total ause nums
        rw [List.foldl_cons]
        by_cases unset : n.i_val = .nil
        · have same : liveEntries (n :: nodes) = liveEntries nodes := by simp [liveEntries, unset]
          rw [countNode, if_pos unset, same]
          exact inductionHypothesis total ause nums
        · have more : (liveEntries (n :: nodes)).map Prod.fst =
              n.i_key :: (liveEntries nodes).map Prod.fst := by
            simp [liveEntries, nodeEntry, unset]
          obtain ⟨one, slices⟩ := countint_eq n.i_key nums
          rw [countNode, if_neg unset, more]
          obtain ⟨totals, candidates, each⟩ := inductionHypothesis (total + 1)
            (ause + (countint n.i_key nums).1) (countint n.i_key nums).2
          refine ⟨totals.trans ?_, candidates.trans ?_, fun i => (each i).trans ?_⟩
          · rw [List.length_cons]
            omega
          · rw [List.countP_cons, one]
            simp only [decide_eq_true_eq]
            omega
          · rw [List.countP_cons, slices]
            omega
  have perm : ((liveEntries t.node.reverse).map Prod.fst).Perm t.liveKeys :=
    (((List.reverse_perm t.node).filter _).map _).map _
  obtain ⟨totals, candidates, each⟩ := counted t.node.reverse 0 0 nums
  unfold numusehash
  refine ⟨totals.trans ?_, candidates.trans ?_, fun i => (each i).trans ?_⟩
  · rw [Nat.zero_add, perm.length_eq]
  · rw [Nat.zero_add, perm.countP_eq]
  · rw [perm.countP_eq]

/-- The elements in front of slice `lg`. -/
def seen (size lg : Nat) : Nat := if lg = 0 then 0 else min (2 ^ (lg - 1)) size

theorem seen_succ (size lg : Nat) : seen size (lg + 1) = min (2 ^ lg) size := rfl

theorem seen_le (size lg : Nat) : seen size lg ≤ size := by
  unfold seen
  split
  next => exact Nat.zero_le _
  next => exact min_le_right _ _

theorem seen_mono (size lg : Nat) : seen size lg ≤ seen size (lg + 1) := by
  rw [seen_succ, seen]
  split
  next => exact Nat.zero_le _
  next =>
    exact min_le_min_right _ (Nat.pow_le_pow_right Nat.two_pos (Nat.sub_le _ _))

/-- The elements of slice `lg`. -/
def segment (size lg : Nat) : List Nat :=
  List.range' (seen size lg + 1) (seen size (lg + 1) - seen size lg)

theorem segment_of_seen {size lg : Nat} (all : seen size lg = size) : segment size lg = [] := by
  have same : seen size (lg + 1) = size :=
    le_antisymm (seen_le _ _) (all.symm.le.trans (seen_mono size lg))
  rw [segment, all, same, Nat.sub_self]
  rfl

theorem numusearrayFrom_eq (t : LTable) (slices lg ause : Nat) (nums : Nums) :
    (t.numusearrayFrom slices lg (seen t.sizearray lg + 1) ause nums).1 =
        ause + ∑ l ∈ Finset.Ico lg (lg + slices), (segment t.sizearray l).countP t.used ∧
      ∀ l, (t.numusearrayFrom slices lg (seen t.sizearray lg + 1) ause nums).2 l = nums l +
        if lg ≤ l ∧ l < lg + slices then (segment t.sizearray l).countP t.used else 0 := by
  induction slices generalizing lg ause nums with
  | zero =>
      unfold numusearrayFrom
      refine ⟨by simp, fun l => ?_⟩
      rw [if_neg (by omega)]
      rfl
  | succ slices inductionHypothesis =>
      unfold numusearrayFrom
      dsimp only
      split
      next beyond =>
        have all : ∀ l, lg ≤ l → seen t.sizearray l = t.sizearray := by
          intro l later
          induction l, later using Nat.le_induction with
          | base => exact le_antisymm (seen_le _ _) (Nat.le_of_lt_succ beyond.2)
          | succ l _ same => exact le_antisymm (seen_le _ _) (same.symm.le.trans (seen_mono _ _))
        refine ⟨?_, fun l => ?_⟩
        · rw [Finset.sum_eq_zero]
          · rfl
          · intro l membership
            rw [segment_of_seen (all l (Finset.mem_Ico.mp membership).1)]
            rfl
        · split
          next inside =>
            rw [segment_of_seen (all l inside.1)]
            rfl
          next => rfl
      next =>
        have next : max (seen t.sizearray lg + 1) (min (2 ^ lg) t.sizearray + 1) =
            seen t.sizearray (lg + 1) + 1 := by
          have mono := seen_mono t.sizearray lg
          rw [seen_succ] at mono ⊢
          omega
        have slice : t.countSlice (seen t.sizearray lg + 1) (min (2 ^ lg) t.sizearray) =
            (segment t.sizearray lg).countP t.used := by
          rw [countSlice, segment, seen_succ, Nat.add_sub_add_right]
          rfl
        rw [next, slice]
        obtain ⟨total, each⟩ := inductionHypothesis (lg + 1)
          (ause + (segment t.sizearray lg).countP t.used) (Function.update nums lg
            (nums lg + (segment t.sizearray lg).countP t.used))
        refine ⟨total.trans ?_, fun l => (each l).trans ?_⟩
        · rw [Finset.sum_eq_sum_Ico_succ_bot (by omega : lg < lg + (slices + 1))]
          rw [Nat.add_assoc, Nat.add_right_comm lg 1 slices]
          rfl
        · by_cases same : l = lg
          · rw [same, Function.update_self, if_neg (by omega), if_pos (by omega)]
            rfl
          · rw [Function.update_of_ne same]
            by_cases inside : lg + 1 ≤ l ∧ l < lg + 1 + slices
            · rw [if_pos inside, if_pos (by omega)]
            · rw [if_neg inside, if_neg (by omega)]

/-- Every element of the array part lies in one slice. -/
theorem countP_segment (t : LTable) (lg : Nat) :
    (segment t.sizearray lg).countP t.used =
      (List.range' 1 t.sizearray).countP fun i => t.used i && ceillog2 i = lg := by
  have mono := seen_mono t.sizearray lg
  have bound := seen_le t.sizearray (lg + 1)
  have split : List.range' 1 t.sizearray = List.range' 1 (seen t.sizearray lg) ++
      (segment t.sizearray lg ++ List.range' (seen t.sizearray (lg + 1) + 1)
        (t.sizearray - seen t.sizearray (lg + 1))) := by
    have parts : t.sizearray = seen t.sizearray lg +
        ((seen t.sizearray (lg + 1) - seen t.sizearray lg) +
          (t.sizearray - seen t.sizearray (lg + 1))) := by omega
    conv_lhs => rw [parts, ← List.range'_append_1, ← List.range'_append_1]
    unfold segment
    congr 3
    · omega
    · omega
  -- the logarithm says on which side of the slice an element lies
  have inSlice : ∀ i, 0 < i → i ≤ t.sizearray →
      (ceillog2 i = lg ↔ seen t.sizearray lg < i ∧ i ≤ seen t.sizearray (lg + 1)) := by
    intro i positive inside
    have upper := ceillog2_le_iff (i := lg) positive
    rw [seen_succ, le_min_iff, ← upper, seen]
    split
    next isZero => omega
    next nonzero =>
      have lower := ceillog2_le_iff (i := lg - 1) positive
      rw [min_lt_iff, ← not_le, ← lower]
      omega
  rw [split, List.countP_append, List.countP_append]
  have before : (List.range' 1 (seen t.sizearray lg)).countP
      (fun i => t.used i && ceillog2 i = lg) = 0 := by
    rw [List.countP_eq_zero]
    intro i membership
    rw [List.mem_range'_1] at membership
    have outside := inSlice i (by omega) (by omega)
    simp only [Bool.and_eq_true, decide_eq_true_eq, outside]
    omega
  have behind : (List.range' (seen t.sizearray (lg + 1) + 1)
      (t.sizearray - seen t.sizearray (lg + 1))).countP
        (fun i => t.used i && ceillog2 i = lg) = 0 := by
    rw [List.countP_eq_zero]
    intro i membership
    rw [List.mem_range'_1] at membership
    have outside := inSlice i (by omega) (by omega)
    simp only [Bool.and_eq_true, decide_eq_true_eq, outside]
    omega
  rw [before, behind, Nat.zero_add, Nat.add_zero]
  apply List.countP_congr
  intro i membership
  rw [segment, List.mem_range'_1] at membership
  have inside := inSlice i (by omega) (by omega)
  simp only [Bool.and_eq_true, decide_eq_true_eq, inside]
  exact (and_iff_left (by omega)).symm

theorem countP_arrayKeys (t : LTable) (p : LuaValue → Bool) :
    t.arrayKeys.countP p =
      (List.range' 1 t.sizearray).countP fun i => t.used i && p (.number (cast_num i)) := by
  have indices : (t.array.zipIdx.map Prod.snd).map (fun i => 1 + i) =
      List.range' 1 t.sizearray := by
    rw [List.zipIdx_map_snd, List.map_add_range']
    rfl
  rw [arrayKeys, arrayEntries, List.map_map, List.countP_map, List.countP_filter, ← indices,
    List.map_map, List.countP_map]
  apply List.countP_congr
  rintro ⟨element, i⟩ membership
  have isValue : t.array.getD i .nil = element := (mem_zipIdx.mp membership).2
  simp only [Function.comp_apply, used, arrayEntry, Nat.add_comm 1 i, Nat.add_sub_cancel, isValue,
    Bool.and_comm]

theorem countP_slice_arrayKeys (t : LTable) (bounded : t.sizearray ≤ MAXASIZE) (lg : Nat) :
    t.arrayKeys.countP (slice lg) = (segment t.sizearray lg).countP t.used := by
  rw [countP_arrayKeys, countP_segment]
  apply List.countP_congr
  intro i membership
  rw [List.mem_range'_1] at membership
  have index := arrayindex_nat (i := i) (by omega)
  rw [Bool.and_eq_true, Bool.and_eq_true, slice_iff, InRange, index, Int.toNat_natCast,
    decide_eq_true_eq]
  constructor
  · rintro ⟨isUsed, -, logarithm⟩
    exact ⟨isUsed, logarithm⟩
  · rintro ⟨isUsed, logarithm⟩
    exact ⟨isUsed, ⟨by omega, by omega⟩, logarithm⟩

theorem inRange_arrayKeys {t : LTable} (bounded : t.sizearray ≤ MAXASIZE) {key : LuaValue}
    (membership : key ∈ t.arrayKeys) : InRange t.sizearray key := by
  obtain ⟨⟨key, value⟩, inside, rfl⟩ := List.mem_map.mp membership
  exact ((mem_arrayEntries bounded).mp inside).2.1

theorem numusearray_eq (t : LTable) (bounded : t.sizearray ≤ MAXASIZE) (nums : Nums) :
    (t.numusearray nums).1 = t.arrayKeys.length ∧
      ∀ i, (t.numusearray nums).2 i = nums i + t.arrayKeys.countP (slice i) := by
  obtain ⟨total, each⟩ := t.numusearrayFrom_eq (MAXBITS + 1) 0 0 nums
  have candidates : ∀ key ∈ t.arrayKeys, InRange MAXASIZE key := by
    intro key membership
    obtain ⟨positive, upper⟩ := inRange_arrayKeys bounded membership
    exact ⟨positive, by omega⟩
  refine ⟨total.trans ?_, fun i => (each i).trans ?_⟩
  · rw [Nat.zero_add, Nat.zero_add, Finset.sum_congr rfl fun l _ =>
      (t.countP_slice_arrayKeys bounded l).symm, ← Finset.range_eq_Ico,
      sum_slices_two_pow _ le_rfl]
    rw [List.countP_eq_length]
    intro key membership
    exact decide_eq_true (candidates key membership)
  · rw [t.countP_slice_arrayKeys bounded]
    split
    next => rfl
    next outside =>
      rw [← t.countP_slice_arrayKeys bounded, List.countP_eq_zero.mpr]
      intro key membership counted
      have candidate := candidates key membership
      have logarithm := (slice_iff.mp counted).2
      have small : ceillog2 (arrayindex key).toNat < MAXBITS + 1 :=
        ((inRange_two_pow le_rfl).mp candidate).2
      omega

/-! ## The largest size more than half in use -/

/-- A size for the array part that has been found among 2^0, …, 2^(i-1). -/
structure Best (nums : Nums) (i n na : Nat) : Prop where
  found : (n = 0 ∧ na = 0) ∨ ∃ j, j < i ∧ n = 2 ^ j ∧ na = ∑ l ∈ Finset.range (j + 1), nums l ∧
    2 ^ j / 2 < na
  largest : ∀ j, j < i → 2 ^ j / 2 < ∑ l ∈ Finset.range (j + 1), nums l → 2 ^ j ≤ n

section ComputeSizes

variable {nums : Nums} {narray : Nat}

/-- No later size can be more than half in use. -/
theorem Best.finish {i k n na : Nat} (best : Best nums i n na)
    (full : ∀ j, i ≤ j → ∑ l ∈ Finset.range (j + 1), nums l ≤ 2 ^ j / 2) (later : i ≤ k) :
    Best nums k n na := by
  obtain ⟨found, largest⟩ := best
  refine ⟨?_, ?_⟩
  · rcases found with zero | ⟨j, below, rest⟩
    · exact .inl zero
    · exact .inr ⟨j, by omega, rest⟩
  · intro j below more
    rcases Nat.lt_or_ge j i with earlier | beyond
    · exact largest j earlier more
    · exact absurd more (Nat.not_lt.mpr (full j beyond))

theorem half_two_pow_succ (j : Nat) : 2 ^ (j + 1) / 2 = 2 ^ j := by
  rw [Nat.pow_succ, Nat.mul_div_cancel _ Nat.two_pos]

theorem half_le_half {i j : Nat} (later : i ≤ j) : 2 ^ i / 2 ≤ 2 ^ j / 2 :=
  Nat.div_le_div_right (Nat.pow_le_pow_right Nat.two_pos later)

theorem computesizesFrom_best (few : ∀ j, ∑ l ∈ Finset.range (j + 1), nums l ≤ 2 ^ j)
    (total : ∀ j, ∑ l ∈ Finset.range j, nums l ≤ narray) {rest i n na : Nat}
    (best : Best nums i n na) :
    Best nums (i + rest)
      (computesizesFrom nums narray rest i (∑ l ∈ Finset.range i, nums l) na n).1
      (computesizesFrom nums narray rest i (∑ l ∈ Finset.range i, nums l) na n).2 := by
  induction rest generalizing i n na with
  | zero => exact best
  | succ rest inductionHypothesis =>
      unfold computesizesFrom
      dsimp only
      split
      next more =>
        rw [← Finset.sum_range_succ]
        generalize isPrefix : ∑ l ∈ Finset.range (i + 1), nums l = a
        have next : Best nums (i + 1) (if 0 < nums i ∧ 2 ^ i / 2 < a then 2 ^ i else n)
            (if 0 < nums i ∧ 2 ^ i / 2 < a then a else na) := by
          by_cases larger : 0 < nums i ∧ 2 ^ i / 2 < a
          · rw [if_pos larger, if_pos larger]
            refine ⟨.inr ⟨i, Nat.lt_succ_self i, rfl, isPrefix.symm, larger.2⟩, ?_⟩
            intro j below _
            exact Nat.pow_le_pow_right Nat.two_pos (Nat.le_of_lt_succ below)
          · rw [if_neg larger, if_neg larger]
            obtain ⟨found, largest⟩ := best
            refine ⟨?_, ?_⟩
            · rcases found with zero | ⟨j, below, rest⟩
              · exact .inl zero
              · exact .inr ⟨j, by omega, rest⟩
            · intro j below isMore
              rcases Nat.lt_or_ge j i with earlier | beyond
              · exact largest j earlier isMore
              · obtain rfl : j = i := by omega
                rw [isPrefix] at isMore
                -- the slice is empty, so the size before is in use completely
                have empty : nums j = 0 := by
                  by_contra nonempty
                  exact larger ⟨Nat.pos_of_ne_zero nonempty, isMore⟩
                rw [Finset.sum_range_succ, empty, Nat.add_zero] at isPrefix
                exfalso
                cases j with
                | zero =>
                    rw [Finset.sum_range_zero] at isPrefix
                    omega
                | succ j =>
                    have bound := few j
                    rw [isPrefix] at bound
                    rw [half_two_pow_succ] at isMore
                    omega
        split
        next all =>
          apply next.finish _ (by omega)
          intro j later
          have bound := few i
          rw [isPrefix, all] at bound
          have half : 2 ^ i ≤ 2 ^ j / 2 := by
            rw [← half_two_pow_succ]
            exact half_le_half later
          exact (total (j + 1)).trans (bound.trans half)
        next =>
          have result := inductionHypothesis next
          rw [isPrefix, Nat.add_right_comm] at result
          exact result
      next less =>
        apply best.finish _ (by omega)
        intro j later
        exact (total (j + 1)).trans ((Nat.le_of_not_lt less).trans (half_le_half later))

theorem computesizes_best (few : ∀ j, ∑ l ∈ Finset.range (j + 1), nums l ≤ 2 ^ j)
    (total : ∀ j, ∑ l ∈ Finset.range j, nums l ≤ narray) :
    Best nums (MAXBITS + 1) (computesizes nums narray).1 (computesizes nums narray).2 := by
  have start : Best nums 0 0 0 := ⟨.inl ⟨rfl, rfl⟩, fun j below => absurd below (Nat.not_lt_zero j)⟩
  have best := @computesizesFrom_best nums narray few total (MAXBITS + 1) 0 0 0 start
  rw [Finset.sum_range_zero, Nat.zero_add] at best
  exact best

end ComputeSizes

/-- The size the array part gets for these keys. -/
structure ArraySize (keys : List LuaValue) (n : Nat) : Prop where
  power : n = 0 ∨ ∃ j, j ≤ MAXBITS ∧ n = 2 ^ j
  more : n ≠ 0 → n / 2 < keys.countP fun key => InRange n key
  largest : ∀ j, j ≤ MAXBITS → 2 ^ j / 2 < keys.countP (fun key => InRange (2 ^ j) key) → 2 ^ j ≤ n

theorem ArraySize.bounded {keys : List LuaValue} {n : Nat} (size : ArraySize keys n) :
    n ≤ MAXASIZE := by
  rcases size.power with zero | ⟨j, small, isPower⟩
  · omega
  · rw [isPower]
    exact Nat.pow_le_pow_right Nat.two_pos small

theorem computesizes_eq {keys : List LuaValue} (nodup : keys.Nodup) {nums : Nums}
    (counts : ∀ i, nums i = keys.countP (slice i)) :
    ∃ n, computesizes nums (keys.countP fun key => InRange MAXASIZE key) =
        (n, keys.countP fun key => InRange n key) ∧ ArraySize keys n := by
  have prefixes : ∀ m, ∑ l ∈ Finset.range m, nums l = ∑ l ∈ Finset.range m, keys.countP (slice l) :=
    fun m => Finset.sum_congr rfl fun l _ => counts l
  have powers : ∀ j, j ≤ MAXBITS → ∑ l ∈ Finset.range (j + 1), nums l =
      keys.countP fun key => InRange (2 ^ j) key :=
    fun j small => (prefixes _).trans (sum_slices_two_pow keys small)
  have few : ∀ j, ∑ l ∈ Finset.range (j + 1), nums l ≤ 2 ^ j := by
    intro j
    rw [prefixes, sum_slices]
    refine le_trans (List.countP_mono_left ?_) (countP_inRange_le nodup (2 ^ j))
    intro key _ counted
    obtain ⟨⟨positive, -⟩, below⟩ := of_decide_eq_true counted
    have upper := (ceillog2_le_iff (by omega)).mp (Nat.le_of_lt_succ below)
    exact decide_eq_true ⟨positive, by omega⟩
  have total : ∀ j, ∑ l ∈ Finset.range j, nums l ≤
      keys.countP fun key => InRange MAXASIZE key := by
    intro j
    rw [prefixes, sum_slices]
    apply List.countP_mono_left
    intro key _ counted
    exact decide_eq_true (of_decide_eq_true counted).1
  obtain ⟨found, largest⟩ := computesizes_best few total
  generalize computesizes nums (keys.countP fun key => InRange MAXASIZE key) = sizes
    at found largest
  obtain ⟨n, na⟩ := sizes
  have larger : ∀ j, j ≤ MAXBITS →
      2 ^ j / 2 < keys.countP (fun key => InRange (2 ^ j) key) → 2 ^ j ≤ n := by
    intro j small isMore
    apply largest j (Nat.lt_succ_of_le small)
    rwa [powers j small]
  refine ⟨n, ?_⟩
  rcases found with ⟨noSize, none⟩ | ⟨j, below, isPower, elements, isMore⟩
  · dsimp only at noSize none
    have nowhere : keys.countP (fun key => InRange n key) = 0 := by
      have few := countP_inRange_le nodup n
      omega
    refine ⟨by rw [nowhere, none], .inl noSize, fun nonzero => absurd noSize nonzero, larger⟩
  · dsimp only at isPower elements isMore
    have small : j ≤ MAXBITS := Nat.le_of_lt_succ below
    rw [powers j small, ← isPower] at elements
    refine ⟨by rw [elements], .inr ⟨j, small, isPower⟩, fun _ => ?_, larger⟩
    rw [← elements]
    rwa [← isPower] at isMore

/-- The keys a table that grows for a new key has to hold. -/
def keysWith (t : LTable) (ek : LuaValue) : List LuaValue := ek :: t.pairs.map Prod.fst

/-- The counts of `rehash` are those of the keys: the array part gets its best size, and
the node vector as many nodes as there are other keys. -/
theorem rehash_eq (hashes : Hashes) (grow : Grow) (t : LTable) (ek : LuaValue)
    (bounded : t.sizearray ≤ MAXASIZE) (nodup : (t.keysWith ek).Nodup) :
    ∃ n, ArraySize (t.keysWith ek) n ∧
      t.rehash hashes grow ek =
        t.resize hashes grow n ((t.keysWith ek).countP fun key => ¬ InRange n key) := by
  obtain ⟨arrayTotal, arraySlices⟩ := t.numusearray_eq bounded fun _ => 0
  obtain ⟨hashTotal, hashCandidates, hashSlices⟩ := t.numusehash_eq (t.numusearray fun _ => 0).2
  obtain ⟨one, slices⟩ := countint_eq ek (t.numusehash (t.numusearray fun _ => 0).2).2.2
  have split : ∀ p : LuaValue → Bool, (t.keysWith ek).countP p =
      t.arrayKeys.countP p + t.liveKeys.countP p + if p ek = true then 1 else 0 := by
    intro p
    rw [keysWith, List.countP_cons, pairs, List.map_append, List.countP_append]
  have counts : ∀ i, (countint ek (t.numusehash (t.numusearray fun _ => 0).2).2.2).2 i =
      (t.keysWith ek).countP (slice i) := by
    intro i
    rw [slices, hashSlices, arraySlices, split, Nat.zero_add]
  have candidates : (t.numusearray fun _ => 0).1 +
      (t.numusehash (t.numusearray fun _ => 0).2).2.1 +
        (countint ek (t.numusehash (t.numusearray fun _ => 0).2).2.2).1 =
      (t.keysWith ek).countP fun key => InRange MAXASIZE key := by
    have all : t.arrayKeys.countP (fun key => InRange MAXASIZE key) = t.arrayKeys.length := by
      rw [List.countP_eq_length]
      intro key membership
      obtain ⟨positive, upper⟩ := inRange_arrayKeys bounded membership
      exact decide_eq_true ⟨positive, by omega⟩
    rw [split, all, arrayTotal, hashCandidates, one]
    simp only [decide_eq_true_eq]
  obtain ⟨n, result, size⟩ := computesizes_eq nodup counts
  refine ⟨n, size, ?_⟩
  unfold rehash
  dsimp only
  rw [candidates, result]
  dsimp only
  congr 1
  have totals : (t.numusearray fun _ => 0).1 +
      (t.numusehash (t.numusearray fun _ => 0).2).1 + 1 = (t.keysWith ek).length := by
    rw [arrayTotal, hashTotal, keysWith, List.length_cons, pairs, List.map_append,
      List.length_append]
  have both := (t.keysWith ek).length_eq_countP_add_countP fun key => decide (InRange n key)
  rw [totals, both, Nat.add_sub_cancel_left]
  apply List.countP_congr
  intro key _
  simp

end LTable

end LuaEngine.Lua
