import LuaEngine.Lua.HashTableSizes

/-!
# Growing

A table grows by putting everything it holds into a fresh node vector that was counted
to have room for it.  Nothing grows again while that goes on, so a new key costs at most
one rehash.
-/

namespace LuaEngine.Lua

open LuaEngine.Codec LuaEngine.System

namespace LTable

variable {hashes : Hashes} {t t' : LTable} {key value k v : LuaValue} {n nh : Nat}

/-! ## One assignment after another -/

def storeAll (hashes : Hashes) (grow : Grow) (t : LTable) (entries : List Entry) :
    Except TableError LTable :=
  entries.foldlM (fun t entry => do
    let (t, slot) ← t.luaH_setWith hashes grow entry.1
    .ok (t.write slot entry.2)) t

/-- The number of the entries that need a node. -/
def outsiders (size : Nat) (entries : List Entry) : Nat :=
  (entries.map Prod.fst).countP fun key => ¬ InRange size key

/-- All the entries have been assigned. -/
structure StoredAll (hashes : Hashes) (t t' : LTable) (entries : List Entry) : Prop where
  laidOut : LaidOut hashes t'
  sizearray : t'.sizearray = t.sizearray
  sizenode : t'.sizenode = t.sizenode
  isDummy : t'.isDummy = t.isDummy
  maps : ∀ k v, v ≠ .nil →
    (t'.Maps k v ↔ (k, v) ∈ entries ∨ (k ∉ entries.map Prod.fst ∧ t.Maps k v))
  taken : t'.taken.card ≤ t.taken.card + outsiders t.sizearray entries
  addressed : Addressed hashes t → Addressed hashes t'

theorem LaidOut.storeAll (laidOut : LaidOut hashes t) {entries : List Entry}
    (valid : ∀ entry ∈ entries, entry.1.isKey = true) (nodup : (entries.map Prod.fst).Nodup)
    (room : t.taken.card + outsiders t.sizearray entries ≤ t.sizenode)
    (nodes : t.isDummy = true → outsiders t.sizearray entries = 0) (grow : Grow) :
    ∃ t', t.storeAll hashes grow entries = .ok t' ∧ StoredAll hashes t t' entries := by
  induction entries generalizing t with
  | nil =>
      refine ⟨t, rfl, laidOut, rfl, rfl, rfl, fun k v _ => ?_, Nat.le_add_right _ _, id⟩
      simp
  | cons entry entries inductionHypothesis =>
      obtain ⟨key, value⟩ := entry
      have count : outsiders t.sizearray ((key, value) :: entries) =
          outsiders t.sizearray entries + if t.InArray key then 0 else 1 := by
        simp only [outsiders, List.map_cons, List.countP_cons, decide_eq_true_eq]
        by_cases inside : InRange t.sizearray key
        · rw [if_neg (not_not_intro inside), if_pos (show t.InArray key from inside)]
        · rw [if_pos inside, if_neg (show ¬ t.InArray key from inside)]
      rw [count] at room nodes
      rw [List.map_cons, List.nodup_cons] at nodup
      have place : t.InArray key ∨ t.Roomy := by
        by_cases inside : t.InArray key
        · exact .inl inside
        · right
          rw [if_neg inside] at room nodes
          refine ⟨?_, by omega⟩
          by_contra isDummy
          have := nodes (by simpa using isDummy)
          omega
      obtain ⟨t₁, slot, success, stored⟩ :=
        laidOut.luaH_setWith_of_room (valid _ List.mem_cons_self) place grow
      have first : Stored hashes t (t₁.write slot value) key value := stored value
      have few := first.taken
      obtain ⟨t', later, all⟩ := inductionHypothesis first.laidOut
        (fun entry membership => valid entry (List.mem_cons_of_mem _ membership)) nodup.2
        (by rw [first.sizearray, first.sizenode]; omega)
        (by
          rw [first.sizearray, first.isDummy]
          intro isDummy
          have := nodes isDummy
          omega)
      refine ⟨t', ?_, all.laidOut, all.sizearray.trans first.sizearray,
        all.sizenode.trans first.sizenode, all.isDummy.trans first.isDummy, ?_, ?_,
        fun addressed => all.addressed (first.addressed addressed)⟩
      · rw [LTable.storeAll, List.foldlM_cons, success]
        exact later
      · intro k v isValue
        rw [all.maps k v isValue, first.maps k v isValue, List.map_cons, List.mem_cons,
          List.mem_cons, Prod.mk.injEq]
        by_cases same : k = key
        · subst same
          have absent : (k, v) ∉ entries := fun membership =>
            nodup.1 (List.mem_map.mpr ⟨_, membership, rfl⟩)
          simp [absent, nodup.1]
        · simp [same]
      · have more := all.taken
        rw [first.sizearray] at more
        rw [count]
        omega

/-! ## The fresh table -/

/-- The table before anything is inserted again. -/
def emptied (t : LTable) (n nh : Nat) : LTable where
  array := (t.array ++ List.replicate (n - t.sizearray) LuaValue.nil).take n
  node := if nh = 0 then [dummynode_] else List.replicate (2 ^ ceillog2 nh) dummynode_
  isDummy := nh = 0
  lastfree := if nh = 0 then 0 else 2 ^ ceillog2 nh

theorem sizearray_emptied (t : LTable) (n nh : Nat) : (t.emptied n nh).sizearray = n := by
  change ((t.array ++ List.replicate (n - t.array.length) LuaValue.nil).take n).length = n
  rw [List.length_take, List.length_append, List.length_replicate]
  omega

theorem sizenode_emptied (t : LTable) (n nh : Nat) :
    (t.emptied n nh).sizenode = if nh = 0 then 1 else 2 ^ ceillog2 nh := by
  change (if nh = 0 then [dummynode_] else List.replicate (2 ^ ceillog2 nh) dummynode_).length = _
  split
  next => rfl
  next => exact List.length_replicate

theorem gnode_emptied (t : LTable) (n nh i : Nat) : (t.emptied n nh).gnode i = dummynode_ := by
  have all : ∀ node ∈ (t.emptied n nh).node, node = dummynode_ := by
    intro node membership
    change node ∈ (if nh = 0 then [dummynode_] else List.replicate (2 ^ ceillog2 nh) dummynode_)
      at membership
    split at membership
    next => exact List.mem_singleton.mp membership
    next => exact List.eq_of_mem_replicate membership
  rw [gnode, List.getD_eq_getElem?_getD]
  cases found : (t.emptied n nh).node[i]? with
  | none => rfl
  | some node => exact all node (List.mem_of_getElem? found)

theorem getD_emptied (t : LTable) (n nh i : Nat) :
    (t.emptied n nh).array.getD i .nil = if i < n then t.array.getD i .nil else .nil := by
  change ((t.array ++ List.replicate (n - t.sizearray) LuaValue.nil).take n).getD i .nil = _
  rw [List.getD_eq_getElem?_getD, List.getElem?_take]
  split
  next =>
    rw [List.getElem?_append, List.getD_eq_getElem?_getD]
    split
    next => rfl
    next beyond =>
      rw [List.getElem?_replicate, List.getElem?_eq_none (not_lt.mp beyond)]
      split
      next => rfl
      next => rfl
  next => rfl

theorem laidOut_emptied (hashes : Hashes) (t : LTable) (n nh : Nat) :
    LaidOut hashes (t.emptied n nh) := by
  have nodes := t.gnode_emptied n nh
  have keys : ∀ i, (t.emptied n nh).key i = .nil := fun i => congrArg Node.i_key (nodes i)
  have links : ∀ i, (t.emptied n nh).gnext i = none := fun i => congrArg Node.next (nodes i)
  refine ⟨⟨?_, ⟨?_, ?_, 0, ?_⟩, ?_, ?_, ?_, ?_, ?_, ?_, ?_, ?_⟩, ?_, ?_, ?_⟩
  · rw [sizenode_emptied]
    split
    next => exact ⟨0, rfl⟩
    next => exact ⟨_, rfl⟩
  · intro i j linked
    rw [links] at linked
    contradiction
  · intro i j k linked
    rw [links] at linked
    contradiction
  · intro i j linked
    rw [links] at linked
    contradiction
  · intro i _
    refine ⟨⟨links i, fun j linked => ?_⟩, congrArg Node.i_val (nodes i)⟩
    rw [links] at linked
    contradiction
  · exact fun i used => absurd (keys i) used
  · exact fun i used => absurd (keys i) used
  · exact fun i used => absurd (keys i) used
  · exact fun i j _ used => absurd (keys i) used
  · exact fun i _ => congrArg Node.i_val (nodes i)
  · exact fun i used => absurd (keys i) used
  · intro i isDead
    have alive : (t.emptied n nh).isDead i = false := congrArg Node.dead (nodes i)
    rw [alive] at isDead
    contradiction
  · intro notDummy i above below
    have nonzero : nh ≠ 0 := of_decide_eq_false notDummy
    rw [sizenode_emptied, if_neg nonzero] at below
    change (if nh = 0 then 0 else 2 ^ ceillog2 nh) ≤ i at above
    rw [if_neg nonzero] at above
    omega
  · rw [sizenode_emptied]
    change (if nh = 0 then 0 else 2 ^ ceillog2 nh) ≤ _
    split
    next => exact Nat.zero_le _
    next => exact le_rfl
  · intro isDummy
    exact ⟨if_pos (of_decide_eq_true isDummy), keys⟩

theorem addressed_emptied (hashes : Hashes) (t : LTable) (n nh : Nat) :
    Addressed hashes (t.emptied n nh) := by
  have keys : ∀ i, (t.emptied n nh).key i = .nil :=
    fun i => congrArg Node.i_key (t.gnode_emptied n nh i)
  exact ⟨fun i collectable => absurd (keys i) (notNil_of_iscollectable collectable),
    fun i _ collectable => absurd (keys i) (notNil_of_iscollectable collectable)⟩

theorem taken_emptied (t : LTable) (n nh : Nat) : (t.emptied n nh).taken = ∅ := by
  rw [Finset.eq_empty_iff_forall_notMem]
  intro i membership
  exact mem_taken.mp membership (congrArg Node.i_key (t.gnode_emptied n nh i))

theorem maps_emptied (isValue : v ≠ .nil) :
    (t.emptied n nh).Maps k v ↔
      InRange n k ∧ t.array.getD (arrayindex k - 1).toNat .nil = v := by
  have size := t.sizearray_emptied n nh
  by_cases inside : (t.emptied n nh).InArray k
  · have inRange : InRange n k := by
      rw [← size]
      exact inside
    obtain ⟨positive, upper⟩ := inRange
    rw [maps_of_inArray inside, getD_emptied, if_pos (by omega)]
    exact (and_iff_right ⟨positive, upper⟩).symm
  · rw [maps_of_not_inArray inside]
    constructor
    · rintro ⟨i, -, holds⟩
      exact absurd (holds.symm.trans (congrArg Node.i_val (t.gnode_emptied n nh i))) isValue
    · rintro ⟨inRange, -⟩
      rw [← size] at inRange
      exact absurd inRange inside

/-! ## The entries that are inserted again -/

/-- The elements of the vanishing slice. -/
def vanishing (t : LTable) (n : Nat) : List Entry :=
  ((t.array.zipIdx.drop n).filter fun element => element.1 ≠ .nil).map arrayEntry

def reinserted (t : LTable) (n : Nat) : List Entry :=
  t.vanishing n ++ (liveEntries t.node).reverse

theorem drop_zipIdx {α : Type} (values : List α) (m n : Nat) :
    (values.zipIdx m).drop n = (values.zipIdx m).filter fun element => m + n ≤ element.2 := by
  induction values generalizing m n with
  | nil => simp
  | cons value values inductionHypothesis =>
      rw [List.zipIdx_cons]
      cases n with
      | zero =>
          rw [List.drop_zero, eq_comm, List.filter_eq_self]
          rintro ⟨element, i⟩ membership
          apply decide_eq_true
          rcases List.mem_cons.mp membership with same | later
          · rw [same]
            exact le_rfl
          · have := (List.mk_mem_zipIdx_iff_le_and_getElem?_sub.mp later).1
            dsimp only
            omega
      | succ n =>
          rw [List.drop_succ_cons, inductionHypothesis, List.filter_cons_of_neg]
          · apply List.filter_congr
            intro element _
            rw [Nat.add_right_comm, Nat.add_assoc]
          · simp

theorem mem_vanishing (bounded : t.sizearray ≤ MAXASIZE) :
    (k, v) ∈ t.vanishing n ↔ (k, v) ∈ t.arrayEntries ∧ ¬ InRange n k := by
  simp only [vanishing, arrayEntries, drop_zipIdx, List.mem_map, List.mem_filter,
    decide_eq_true_eq, Nat.zero_add]
  constructor
  · rintro ⟨⟨element, i⟩, ⟨⟨inside, beyond⟩, isValue⟩, same⟩
    have within : i < t.sizearray := (mem_zipIdx.mp inside).1
    refine ⟨⟨_, ⟨inside, isValue⟩, same⟩, ?_⟩
    obtain ⟨rfl, -⟩ := Prod.ext_iff.mp same
    rw [arrayEntry, InRange, arrayindex_nat (by dsimp only; omega)]
    dsimp only at beyond ⊢
    omega
  · rintro ⟨⟨⟨element, i⟩, ⟨inside, isValue⟩, same⟩, beyond⟩
    have within : i < t.sizearray := (mem_zipIdx.mp inside).1
    refine ⟨_, ⟨⟨inside, ?_⟩, isValue⟩, same⟩
    obtain ⟨rfl, -⟩ := Prod.ext_iff.mp same
    rw [arrayEntry, InRange, arrayindex_nat (by dsimp only; omega)] at beyond
    dsimp only at beyond ⊢
    omega

theorem vanishing_sublist (t : LTable) (n : Nat) :
    List.Sublist (t.vanishing n) t.arrayEntries :=
  ((List.drop_sublist n _).filter _).map arrayEntry

/-- The keys that are inserted again are keys of the table. -/
theorem reinserted_subperm (t : LTable) (n : Nat) : (t.reinserted n).Subperm t.pairs := by
  unfold reinserted pairs
  exact (t.vanishing_sublist n).subperm.append (List.reverse_perm _).subperm

namespace Scattered

theorem nodup_reinserted (scattered : Scattered hashes t) (bounded : t.sizearray ≤ MAXASIZE)
    (n : Nat) : ((t.reinserted n).map Prod.fst).Nodup := by
  obtain ⟨entries, perm, sublist⟩ := t.reinserted_subperm n
  rw [← (perm.map Prod.fst).nodup_iff]
  exact (sublist.map Prod.fst).nodup (scattered.nodup_keys bounded)

theorem valid_pairs (scattered : Scattered hashes t) (bounded : t.sizearray ≤ MAXASIZE)
    {entry : Entry} (membership : entry ∈ t.pairs) : entry.1.isKey = true := by
  obtain ⟨k, v⟩ := entry
  obtain ⟨isValue, maps⟩ := (scattered.mem_pairs bounded).mp membership
  by_cases inside : t.InArray k
  · rw [eq_number_of_arrayindex inside.1]
    rfl
  · obtain ⟨i, rfl, holds⟩ := (maps_of_not_inArray inside).mp maps
    exact scattered.valid i (scattered.key_of_val (holds ▸ isValue))

/-- What is inserted again, and what stays in the array part, is what the table holds. -/
theorem maps_reinserted (scattered : Scattered hashes t) (bounded : t.sizearray ≤ MAXASIZE)
    (n nh : Nat) (isValue : v ≠ .nil) :
    (k, v) ∈ t.reinserted n ∨
        (k ∉ (t.reinserted n).map Prod.fst ∧ (t.emptied n nh).Maps k v) ↔ t.Maps k v := by
  have entries : (k, v) ∈ t.reinserted n ↔
      (t.Maps k v ∧ t.InArray k ∧ ¬ InRange n k) ∨ (t.Maps k v ∧ ¬ t.InArray k) := by
    rw [reinserted, List.mem_append, List.mem_reverse, mem_vanishing bounded,
      mem_arrayEntries bounded, mem_liveEntries]
    by_cases inside : t.InArray k
    · rw [maps_of_inArray inside]
      have apart : ¬ t.Live k v := fun live => scattered.not_inArray_of_live isValue live inside
      tauto
    · rw [maps_of_not_inArray inside]
      tauto
  rw [maps_emptied isValue]
  constructor
  · rintro (again | ⟨-, inRange, holds⟩)
    · rcases entries.mp again with ⟨maps, -⟩ | ⟨maps, -⟩
      · exact maps
      · exact maps
    · have inside : t.InArray k := by
        refine ⟨inRange.1, ?_⟩
        by_contra beyond
        have positive := inRange.1
        apply isValue
        rw [← holds, List.getD_eq_getElem?_getD, List.getElem?_eq_none]
        · rfl
        · change t.sizearray ≤ _
          omega
      exact (maps_of_inArray inside).mpr holds
  · intro maps
    by_cases inside : t.InArray k
    · by_cases inRange : InRange n k
      · right
        refine ⟨?_, inRange, (maps_of_inArray inside).mp maps⟩
        intro membership
        obtain ⟨⟨k, v'⟩, again, rfl⟩ := List.mem_map.mp membership
        rw [reinserted, List.mem_append, List.mem_reverse, mem_vanishing bounded,
          mem_liveEntries] at again
        rcases again with ⟨-, outside⟩ | ⟨isValue', live⟩
        · exact outside inRange
        · exact scattered.not_inArray_of_live isValue' live inside
      · exact .inl (entries.mpr (.inl ⟨maps, inside, inRange⟩))
    · exact .inl (entries.mpr (.inr ⟨maps, inside⟩))

end Scattered

/-! ## `resize` -/

theorem foldlM_reinsertNode (grow : Grow) (t : LTable) (nodes : List Node) :
    nodes.foldlM (reinsertNode hashes grow) t = t.storeAll hashes grow (liveEntries nodes) := by
  induction nodes generalizing t with
  | nil => rfl
  | cons n nodes inductionHypothesis =>
      rw [List.foldlM_cons, reinsertNode]
      by_cases unset : n.i_val = .nil
      · have same : liveEntries (n :: nodes) = liveEntries nodes := by simp [liveEntries, unset]
        rw [if_pos unset, same]
        exact inductionHypothesis t
      · have more : liveEntries (n :: nodes) = nodeEntry n :: liveEntries nodes := by
          simp [liveEntries, unset]
        rw [if_neg unset, more, storeAll, List.foldlM_cons]
        apply congrArg₂ Bind.bind rfl
        funext t
        exact inductionHypothesis t

theorem foldlM_reinsertArray (grow : Grow) (t : LTable) (elements : List (LuaValue × Nat))
    (bounded : ∀ element ∈ elements, element.2 < MAXASIZE) :
    elements.foldlM (reinsertArray hashes grow) t =
      t.storeAll hashes grow
        ((elements.filter fun element => element.1 ≠ .nil).map arrayEntry) := by
  induction elements generalizing t with
  | nil => rfl
  | cons element elements inductionHypothesis =>
      have later := fun t => inductionHypothesis t fun element membership =>
        bounded element (List.mem_cons_of_mem _ membership)
      have upper : (element.2 : Int) < 2 ^ 26 := by
        exact_mod_cast bounded element List.mem_cons_self
      rw [List.foldlM_cons, reinsertArray]
      by_cases unset : element.1 = .nil
      · rw [if_pos unset, List.filter_cons_of_neg (by simpa using unset)]
        exact later t
      · rw [if_neg unset, List.filter_cons_of_pos (by simpa using unset), List.map_cons, storeAll,
          List.foldlM_cons, luaH_setnumWith_eq (by omega) (by omega)]
        apply congrArg₂ Bind.bind rfl
        funext t
        exact later t

theorem storeAll_append (grow : Grow) (t : LTable) (first second : List Entry) :
    t.storeAll hashes grow (first ++ second) =
      t.storeAll hashes grow first >>= fun t => t.storeAll hashes grow second :=
  List.foldlM_append

theorem resize_eq (grow : Grow) (bounded : t.sizearray ≤ MAXASIZE)
    (small : nh = 0 ∨ ceillog2 nh ≤ MAXBITS) :
    t.resize hashes grow n nh = (t.emptied n nh).storeAll hashes grow (t.reinserted n) := by
  let grown : LTable := { t with
    array := t.array ++ List.replicate (n - t.sizearray) LuaValue.nil }
  have larger : (if t.sizearray < n then t.setarrayvector n else t) = grown := by
    split
    next => rfl
    next fits =>
      have same : grown = { t with array := t.array ++ List.replicate 0 LuaValue.nil } := by
        rw [← Nat.sub_eq_zero_of_le (not_lt.mp fits)]
      rw [same, List.replicate_zero, List.append_nil]
  have vector : grown.setnodevector nh = .ok { t.emptied n nh with array := grown.array } := by
    unfold setnodevector
    by_cases isZero : nh = 0
    · simp [isZero, emptied]
    · rw [if_neg isZero]
      dsimp only
      rw [if_neg (not_lt.mpr (small.resolve_left isZero))]
      simp [isZero, emptied]
  have slice : grown.array.zipIdx.drop n = t.array.zipIdx.drop n := by
    rcases Nat.lt_or_ge t.sizearray n with more | fits
    · have short : t.array.length ≤ n := more.le
      rw [List.drop_eq_nil_of_le, List.drop_eq_nil_of_le]
      · rwa [List.length_zipIdx]
      · change ((t.array ++ List.replicate (n - t.array.length) LuaValue.nil).zipIdx).length ≤ n
        rw [List.length_zipIdx, List.length_append, List.length_replicate]
        omega
    · have same : grown.array = t.array ++ List.replicate 0 LuaValue.nil := by
        rw [← Nat.sub_eq_zero_of_le fits]
      rw [same, List.replicate_zero, List.append_nil]
  have elements : ∀ element ∈ t.array.zipIdx.drop n, element.2 < MAXASIZE := by
    intro element membership
    have within := (mem_zipIdx.mp (List.mem_of_mem_drop membership)).1
    exact within.trans_le bounded
  have nodes : liveEntries t.node.reverse = (liveEntries t.node).reverse := by
    rw [liveEntries, liveEntries, List.filter_reverse, List.map_reverse]
  rw [resize, larger, vector]
  change ((grown.array.zipIdx.drop n).foldlM (reinsertArray hashes grow) (t.emptied n nh) >>=
    fun t' => t.node.reverse.foldlM (reinsertNode hashes grow) t') = _
  rw [slice, foldlM_reinsertArray grow _ _ elements, reinserted, storeAll_append]
  apply congrArg₂ Bind.bind rfl
  funext t'
  rw [foldlM_reinsertNode, nodes]

theorem resize_overflow (grow : Grow) (large : MAXBITS < ceillog2 nh) :
    t.resize hashes grow n nh = .error (.runerror "table overflow") := by
  have nonzero : nh ≠ 0 := by
    rintro rfl
    exact absurd large (by decide +kernel)
  rw [resize, setnodevector, if_neg nonzero]
  dsimp only
  rw [if_pos large]
  rfl

/-- The table holds what it held, and the sizes are the new ones. -/
structure Resized (hashes : Hashes) (t t' : LTable) (n nh : Nat) : Prop where
  laidOut : LaidOut hashes t'
  sizearray : t'.sizearray = n
  sizenode : t'.sizenode = if nh = 0 then 1 else 2 ^ ceillog2 nh
  isDummy : t'.isDummy = decide (nh = 0)
  maps : ∀ k v, v ≠ .nil → (t'.Maps k v ↔ t.Maps k v)
  taken : t'.taken.card ≤ outsiders n t.pairs
  /-- The dead keys are left behind. -/
  addressed : Addressed hashes t'

theorem Scattered.resize (scattered : Scattered hashes t) (bounded : t.sizearray ≤ MAXASIZE)
    (small : nh = 0 ∨ ceillog2 nh ≤ MAXBITS) (room : outsiders n t.pairs ≤ nh) (grow : Grow) :
    ∃ t', t.resize hashes grow n nh = .ok t' ∧ Resized hashes t t' n nh := by
  have few : outsiders n (t.reinserted n) ≤ outsiders n t.pairs := by
    rw [outsiders, outsiders, List.countP_map, List.countP_map]
    exact (t.reinserted_subperm n).countP_le _
  have size := t.sizearray_emptied n nh
  have valid : ∀ entry ∈ t.reinserted n, entry.1.isKey = true := fun entry membership =>
    scattered.valid_pairs bounded ((t.reinserted_subperm n).subset membership)
  have none : (t.emptied n nh).taken.card = 0 := by rw [taken_emptied, Finset.card_empty]
  have fits : (t.emptied n nh).taken.card +
      outsiders (t.emptied n nh).sizearray (t.reinserted n) ≤ (t.emptied n nh).sizenode := by
    rw [none, size, sizenode_emptied]
    split
    next isZero => omega
    next nonzero =>
      have := le_two_pow_ceillog2 (Nat.pos_of_ne_zero nonzero)
      omega
  have nodes : (t.emptied n nh).isDummy = true →
      outsiders (t.emptied n nh).sizearray (t.reinserted n) = 0 := by
    intro isDummy
    have isZero : nh = 0 := of_decide_eq_true isDummy
    rw [size]
    omega
  obtain ⟨t', success, stored⟩ := (laidOut_emptied hashes t n nh).storeAll valid
    (scattered.nodup_reinserted bounded n) fits nodes grow
  refine ⟨t', (resize_eq grow bounded small).trans success, stored.laidOut,
    stored.sizearray.trans size, stored.sizenode.trans (t.sizenode_emptied n nh), stored.isDummy,
    ?_, ?_, stored.addressed (addressed_emptied hashes t n nh)⟩
  · intro k v isValue
    rw [stored.maps k v isValue]
    exact scattered.maps_reinserted bounded n nh isValue
  · have more := stored.taken
    rw [none, size] at more
    omega

/-! ## `rehash` -/

theorem Absent.nodup_keysWith (absent : Absent hashes t key) (bounded : t.sizearray ≤ MAXASIZE) :
    (t.keysWith key).Nodup := by
  have scattered := absent.scattered
  rw [keysWith, List.nodup_cons]
  refine ⟨?_, scattered.nodup_keys bounded⟩
  intro membership
  obtain ⟨⟨k, v⟩, inside, rfl⟩ := List.mem_map.mp membership
  obtain ⟨isValue, maps⟩ := (scattered.mem_pairs bounded).mp inside
  obtain ⟨i, isKey, holds⟩ := (maps_of_not_inArray absent.outside).mp maps
  have alive := scattered.alive_of_val (holds ▸ isValue)
  rw [absent.absent i isKey] at alive
  contradiction

theorem outsiders_keysWith (t : LTable) (key : LuaValue) (n : Nat) :
    ((t.keysWith key).countP fun key => ¬ InRange n key) =
      outsiders n t.pairs + if InRange n key then 0 else 1 := by
  rw [keysWith, List.countP_cons, outsiders]
  simp only [decide_eq_true_eq, ite_not]

/-- Either there are too many keys for any node vector, or the table grows and has a place
for the new key. -/
theorem Absent.rehash_cases (absent : Absent hashes t key) (bounded : t.sizearray ≤ MAXASIZE)
    (grow : Grow) :
    ∃ n, ArraySize (t.keysWith key) n ∧
      ((2 ^ MAXBITS < ((t.keysWith key).countP fun key => ¬ InRange n key) ∧
          t.rehash hashes grow key = .error (.runerror "table overflow")) ∨
        (((t.keysWith key).countP fun key => ¬ InRange n key) ≤ 2 ^ MAXBITS ∧
          ∃ t', t.rehash hashes grow key = .ok t' ∧
            Resized hashes t t' n ((t.keysWith key).countP fun key => ¬ InRange n key) ∧
            (t'.InArray key ∨ t'.Roomy))) := by
  obtain ⟨n, size, result⟩ := rehash_eq hashes grow t key bounded (absent.nodup_keysWith bounded)
  refine ⟨n, size, ?_⟩
  rw [result, outsiders_keysWith]
  generalize isCount : (outsiders n t.pairs + if InRange n key then 0 else 1) = nh
  have small : nh = 0 ∨ (ceillog2 nh ≤ MAXBITS ↔ nh ≤ 2 ^ MAXBITS) := by
    rcases Nat.eq_zero_or_pos nh with isZero | positive
    · exact .inl isZero
    · exact .inr (ceillog2_le_iff positive)
  rcases Nat.lt_or_ge (2 ^ MAXBITS) nh with many | few
  · left
    refine ⟨many, resize_overflow grow ?_⟩
    rcases small with isZero | bound
    · rw [isZero] at many
      exact absurd many (Nat.not_lt_zero _)
    · exact not_le.mp (mt bound.mp (not_le.mpr many))
  · right
    obtain ⟨t', success, resized⟩ := @Scattered.resize hashes t n nh absent.scattered bounded
      (small.imp_right fun bound => bound.mpr few) (by omega) grow
    refine ⟨few, t', success, resized, ?_⟩
    by_cases inRange : InRange n key
    · left
      rw [InArray, resized.sizearray]
      exact inRange
    · right
      rw [if_neg inRange] at isCount
      have nonzero : nh ≠ 0 := by omega
      have taken := resized.taken
      refine ⟨?_, ?_⟩
      · rw [resized.isDummy]
        exact decide_eq_false nonzero
      · rw [resized.sizenode, if_neg nonzero]
        have := le_two_pow_ceillog2 (Nat.pos_of_ne_zero nonzero)
        omega

end LTable

end LuaEngine.Lua
