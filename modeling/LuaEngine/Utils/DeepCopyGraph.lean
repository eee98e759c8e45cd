import LuaEngine.Utils.DeepCopy

/-!
# What `deepCopy` preserves

The copy is the unfolding of the original: a tree in which a table stands once
for each way to reach its original.  It has the shape of the original only when
that is a tree itself, and its metatables only where `getmetatable` tells them.
-/

namespace LuaEngine.Utils

open LuaEngine.Lua LuaEngine.System

namespace DeepCopy

/-- The original of a table according to a record of copies. -/
def originalOf (log : List (Nat × Nat)) (n : Nat) : Nat :=
  ((log.find? fun copy => copy.2 = n).map Prod.fst).getD n

theorem originalOf_eq {log : List (Nat × Nat)} (functional : (log.map Prod.snd).Nodup)
    {h n : Nat} (recorded : (h, n) ∈ log) : originalOf log n = h := by
  unfold originalOf
  cases found : log.find? fun copy => decide (copy.2 = n) with
  | none =>
      have none := List.find?_eq_none.mp found (h, n) recorded
      simp at none
  | some copy =>
      have same : copy.2 = n := by simpa using List.find?_some found
      have equality := List.inj_on_of_nodup_map functional (List.mem_of_find?_eq_some found)
        recorded same
      rw [equality]
      rfl

theorem Copied.mapHandle {log : List (Nat × Nat)} (functional : (log.map Prod.snd).Nodup)
    {value copy : LuaValue} (copied : Copied log value copy) :
    copy.mapHandle (originalOf log) = value := by
  cases copied with
  | plain isPlain => exact LuaValue.mapHandle_plain isPlain _
  | table recorded => exact congrArg LuaValue.table (originalOf_eq functional recorded)

/-- A finished call: the record holds just the copies it made. -/
structure Finished (heap : Heap) (object copy : LuaValue) (final : CopyState) : Prop where
  grown : Grown heap ⟨heap, []⟩ final none final.searchTable copy.handle.toList
  copied : Copied final.searchTable object copy

namespace Finished

variable {heap : Heap} {object copy : LuaValue} {final : CopyState}

theorem nodup (finished : Finished heap object copy final) :
    (final.searchTable.map Prod.snd).Nodup := finished.grown.nodup

theorem entries (finished : Finished heap object copy final) {h n : Nat}
    (recorded : (h, n) ∈ final.searchTable) :
    (final.heap.table n).entries.map (Entry.mapHandle (originalOf final.searchTable)) =
      (heap.table h).entries := by
  have related := (finished.grown.copies (h, n) recorded).entries.imp
    (S := fun entry copy => entry = Entry.mapHandle (originalOf final.searchTable) copy)
    fun _ _ both => Prod.ext (both.1.mapHandle finished.nodup).symm
      (both.2.mapHandle finished.nodup).symm
  rw [← List.forall₂_map_right_iff (R := Eq), List.forall₂_eq_eq_eq] at related
  exact related.symm

/-- Every table in reach of the copy is one of those made. -/
theorem recorded (finished : Finished heap object copy final) {n : Nat}
    (reached : final.heap.Reaches copy n) :
    (originalOf final.searchTable n, n) ∈ final.searchTable := by
  suffices known : ∃ h, (h, n) ∈ final.searchTable by
    obtain ⟨h, recorded⟩ := known
    rw [originalOf_eq finished.nodup recorded]
    exact recorded
  obtain ⟨root, rfl, path⟩ := reached
  induction path with
  | refl => exact finished.copied.exists_recorded rfl
  | tail _ step inductionHypothesis =>
      obtain ⟨h, recorded⟩ := inductionHypothesis
      obtain ⟨entry, membership, isTable⟩ := Heap.mem_children.mp step
      have related := (finished.grown.copies _ recorded).entries
      obtain ⟨original, -, keyCopied, valueCopied⟩ := exists_original related membership
      rcases isTable with isKey | isValue
      · exact keyCopied.exists_recorded isKey
      · exact valueCopied.exists_recorded isValue

theorem covering {root n : Nat} (finished : Finished heap (.table root) (.table n) final) :
    Covering final.heap.children n heap.children root (originalOf final.searchTable) where
  rooted := LuaValue.table.inj (finished.copied.mapHandle finished.nodup)
  children m path := by
    have recorded := finished.recorded ⟨n, rfl, path⟩
    have same := finished.entries recorded
    rw [Heap.children, Table.map_children, same]
    exact .refl _

/-- No copy is made for two occurrences. -/
theorem tree {n : Nat} (finished : Finished heap object (.table n) final) :
    TreeFrom final.heap.children n := by
  have once : ((final.searchTable.flatMap fun copy => final.heap.children copy.2) ++ [n]).Nodup :=
    finished.grown.once.nodup_iff.mpr finished.nodup
  obtain ⟨inner, -, apart⟩ := List.nodup_append.mp once
  obtain ⟨each, pairwise⟩ := List.nodup_flatMap.mp inner
  have recorded : ∀ m, ReachableFrom final.heap.children n m →
      (originalOf final.searchTable m, m) ∈ final.searchTable :=
    fun m path => finished.recorded ⟨n, rfl, path⟩
  constructor
  · intro m path membership
    apply apart n ?_ n (List.mem_singleton.mpr rfl) rfl
    exact List.mem_flatMap.mpr ⟨_, recorded m path, membership⟩
  · intro m path
    exact each _ (recorded m path)
  · intro first second child firstPath secondPath firstMembership secondMembership
    by_contra different
    have symmetric : Std.Symm (Function.onFun List.Disjoint
        fun copy : Nat × Nat => final.heap.children copy.2) :=
      ⟨fun _ _ separate => List.Disjoint.symm separate⟩
    have disjoint := pairwise.forall (recorded first firstPath) (recorded second secondPath)
      fun same => different (congrArg Prod.snd same)
    exact disjoint firstMembership secondMembership

end Finished

end DeepCopy

open DeepCopy

section Calls

variable {graph : TableGraph} {fuel : Nat} {copy : LuaValue} {final : CopyState}

theorem finished_of_returned
    (returned : deepCopy fuel graph.heap graph.object = .returned copy final) :
    Settled graph.heap fuel graph.object ∧ Finished graph.heap graph.object copy final := by
  have meets := func_meets graph.closed fuel graph.object ⟨graph.heap, []⟩ graph.holds (.refl _)
  rw [show (func fuel graph.object).run ⟨graph.heap, []⟩ = .returned copy final from returned]
    at meets
  obtain ⟨settled, made, grown, copied⟩ := meets
  have log := grown.log
  rw [List.append_nil] at log
  rw [← log] at grown copied
  exact ⟨settled, grown, copied⟩

theorem DeepCopy.Settled.acyclic (settled : Settled graph.heap fuel graph.object) :
    graph.Acyclic := by
  rintro h ⟨root, isTable, path⟩
  exact (settled.bounded root isTable).noCycleFrom h path

theorem returned_of_acyclic (acyclic : graph.Acyclic)
    (accepted : ∀ h, graph.heap.Reaches graph.object h → graph.heap.Accepted h) :
    ∃ fuel copy final, deepCopy fuel graph.heap graph.object = .returned copy final := by
  have bounded : ∀ h, graph.object = .table h →
      Bounded (ChildOf graph.heap.children) graph.heap.size h := by
    intro h isTable
    have noCycle : NoCycleFrom (ChildOf graph.heap.children) h := by
      intro other path
      exact acyclic other ⟨h, isTable, path⟩
    have enough := noCycle.bounded_card (Finset.range graph.heap.size) fun other path =>
      Finset.mem_range.mpr (graph.closed.inside graph.holds ⟨h, isTable, path⟩)
    rwa [Finset.card_range] at enough
  have meets := func_meets graph.closed graph.heap.size graph.object ⟨graph.heap, []⟩
    graph.holds (.refl _)
  obtain ⟨copy, final, returned, -⟩ := meets.returns
    (fun _ _ ⟨h, reached, refused⟩ => refused (accepted h reached))
    (fun ⟨h, isTable, unbounded⟩ => unbounded (bounded h isTable))
  exact ⟨graph.heap.size, copy, final, returned⟩

theorem returns_iff (graph : TableGraph) :
    (∃ fuel copy final, deepCopy fuel graph.heap graph.object = .returned copy final) ↔
      graph.Acyclic ∧ ∀ h, graph.heap.Reaches graph.object h → graph.heap.Accepted h := by
  constructor
  · rintro ⟨fuel, copy, final, returned⟩
    obtain ⟨settled, -⟩ := finished_of_returned returned
    exact ⟨settled.acyclic, settled.accepted⟩
  · rintro ⟨acyclic, accepted⟩
    exact returned_of_acyclic acyclic accepted

end Calls

namespace DeepCopy.Finished

variable {graph : TableGraph} {copy : LuaValue} {final : CopyState}

theorem created (finished : Finished graph.heap graph.object copy final) {n : Nat}
    (reached : final.heap.Reaches copy n) : graph.heap.size ≤ n ∧ n < final.heap.size :=
  finished.grown.mem_bounds (finished.recorded reached)

/-- The entries of a copy are the entries of its original, one for one. -/
theorem bijOn (finished : Finished graph.heap graph.object copy final) {n : Nat}
    (reached : final.heap.Reaches copy n) :
    Set.BijOn (Entry.mapHandle (originalOf final.searchTable))
      {entry | entry ∈ (final.heap.table n).entries}
      {entry | entry ∈ (graph.heap.table (originalOf final.searchTable n)).entries} := by
  have same := finished.entries (finished.recorded reached)
  have distinct : ((final.heap.table n).entries.map
      (Entry.mapHandle (originalOf final.searchTable))).Nodup := by
    rw [same]
    exact List.Nodup.of_map _ (graph.heap.table _).distinct
  refine ⟨?_, ?_, ?_⟩
  · intro entry membership
    rw [Set.mem_ofPred_eq, ← same]
    exact List.mem_map_of_mem membership
  · intro first firstMembership second secondMembership equality
    exact List.inj_on_of_nodup_map distinct firstMembership secondMembership equality
  · intro entry membership
    rw [Set.mem_ofPred_eq, ← same] at membership
    exact List.mem_map.mp membership

theorem reaches_original (finished : Finished graph.heap graph.object copy final) {n : Nat}
    (reached : final.heap.Reaches copy n) :
    graph.heap.Reaches graph.object (originalOf final.searchTable n) := by
  obtain ⟨root, isTable, path⟩ := reached
  have rooted := finished.copied.mapHandle finished.nodup
  rw [isTable] at rooted
  refine ⟨originalOf final.searchTable root, rooted.symm, ?_⟩
  rw [isTable, ← rooted] at finished
  exact finished.covering.reachable path

theorem exists_copy (finished : Finished graph.heap graph.object copy final) {h : Nat}
    (reached : graph.heap.Reaches graph.object h) :
    ∃ n, final.heap.Reaches copy n ∧ originalOf final.searchTable n = h := by
  obtain ⟨root, isTable, path⟩ := reached
  rw [isTable] at finished
  obtain ⟨n, isCopy⟩ : ∃ n, copy = .table n := by
    generalize object : LuaValue.table root = value at finished
    cases finished.copied with
    | plain isPlain =>
        rw [← object] at isPlain
        contradiction
    | table => exact ⟨_, rfl⟩
  subst isCopy
  obtain ⟨m, copyPath, same⟩ := finished.covering.surjective path
  exact ⟨m, ⟨n, rfl, copyPath⟩, same⟩

end DeepCopy.Finished

/-- It returns when there is no cycle and every metatable is accepted, and then the
result is made of new copies, table by table, and nothing else has changed. -/
theorem deepCopy_unfolds (graph : TableGraph) :
    ((∃ fuel copy final, deepCopy fuel graph.heap graph.object = .returned copy final) ↔
      (∀ h, graph.heap.Reaches graph.object h →
        ¬ Relation.TransGen (ChildOf graph.heap.children) h h) ∧
      ∀ h, graph.heap.Reaches graph.object h →
        ∀ m, (graph.heap.table h).metatable = some m →
          (graph.heap.table m).rawget (.literal "__metatable") = .nil ∨
            ∃ t, (graph.heap.table m).rawget (.literal "__metatable") = .table t) ∧
    ∀ fuel copy final, deepCopy fuel graph.heap graph.object = .returned copy final →
      (∀ n, final.heap.Reaches copy n → graph.heap.size ≤ n ∧ n < final.heap.size) ∧
      (∃ original : Nat → Nat, copy.mapHandle original = graph.object ∧
        ∀ n, final.heap.Reaches copy n → original n < graph.heap.size ∧
          Set.BijOn (Entry.mapHandle original) {entry | entry ∈ (final.heap.table n).entries}
            {entry | entry ∈ (graph.heap.table (original n)).entries}) ∧
      ∀ h < graph.heap.size, final.heap.table h = graph.heap.table h := by
  constructor
  · rw [returns_iff]
    apply and_congr_right
    intro _
    apply forall₂_congr
    intro h _
    exact graph.heap.accepted_iff h
  · intro fuel copy final returned
    obtain ⟨-, finished⟩ := finished_of_returned returned
    refine ⟨fun n reached => finished.created reached, ?_, finished.grown.heapExtends.table⟩
    refine ⟨originalOf final.searchTable, finished.copied.mapHandle finished.nodup, ?_⟩
    intro n reached
    exact ⟨(finished.grown.copies _ (finished.recorded reached)).old, finished.bijOn reached⟩

/-! ## Metatables -/

/-- The call returns, and each copy in the result has the metatable of the table it
was copied from. -/
def KeepsMetatables (graph : TableGraph) : Prop :=
  ∃ fuel copy final, deepCopy fuel graph.heap graph.object = .returned copy final ∧
    ∀ h n, (h, n) ∈ final.searchTable → final.heap.Reaches copy n →
      (final.heap.table n).metatable = (graph.heap.table h).metatable

/-- `getmetatable` tells the metatable when its `__metatable` field is not set, or is
the metatable itself. -/
theorem handle_getmetatable (heap : Heap) (h : Nat) :
    heap.Accepted h ∧ (heap.luaB_getmetatable h).handle = (heap.table h).metatable ↔
      ∀ m, (heap.table h).metatable = some m →
        (heap.table m).rawget (.literal "__metatable") = .nil ∨
          (heap.table m).rawget (.literal "__metatable") = .table m := by
  unfold Heap.Accepted Heap.luaB_getmetatable Heap.luaL_getmetafield
  cases metatable : (heap.table h).metatable with
  | none => simp [LuaValue.handle]
  | some m =>
      simp only [Option.some.injEq, forall_eq']
      split
      next unprotected => simp [unprotected, LuaValue.handle]
      next isSet =>
        rw [LuaValue.handle_eq_some]
        constructor
        · rintro ⟨-, itself⟩
          exact .inr itself
        · rintro (notSet | itself)
          · exact absurd notSet isSet
          · rw [itself]
            exact ⟨.inr rfl, rfl⟩

theorem keepsMetatables_iff (graph : TableGraph) (acyclic : graph.Acyclic) :
    KeepsMetatables graph ↔
      ∀ h, graph.heap.Reaches graph.object h → ∀ m, (graph.heap.table h).metatable = some m →
        (graph.heap.table m).rawget (.literal "__metatable") = .nil ∨
          (graph.heap.table m).rawget (.literal "__metatable") = .table m := by
  constructor
  · rintro ⟨fuel, copy, final, returned, kept⟩ h reached
    obtain ⟨settled, finished⟩ := finished_of_returned returned
    obtain ⟨n, isCopy, rfl⟩ := finished.exists_copy reached
    have recorded := finished.recorded isCopy
    apply (handle_getmetatable graph.heap _).mp
    refine ⟨settled.accepted _ reached, ?_⟩
    rw [← kept _ n recorded isCopy]
    exact (finished.grown.copies _ recorded).metatable.symm
  · intro told
    obtain ⟨fuel, copy, final, returned⟩ := returned_of_acyclic acyclic
      fun h reached => ((handle_getmetatable graph.heap h).mpr (told h reached)).1
    refine ⟨fuel, copy, final, returned, ?_⟩
    intro h n recorded isCopy
    obtain ⟨-, finished⟩ := finished_of_returned returned
    have reached := finished.reaches_original isCopy
    rw [originalOf_eq finished.nodup recorded] at reached
    rw [(finished.grown.copies _ recorded).metatable]
    exact ((handle_getmetatable graph.heap h).mpr (told h reached)).2

theorem acyclic_of_ascending {graph : TableGraph}
    (ascending : ∀ h, ∀ child ∈ graph.heap.children h, h < child) : graph.Acyclic := by
  have above : ∀ {h d}, Relation.TransGen (ChildOf graph.heap.children) h d → h < d := by
    intro h d path
    induction path with
    | single step => exact ascending _ _ step
    | tail _ step inductionHypothesis => exact inductionHypothesis.trans (ascending _ _ step)
  intro h _ cycle
  exact lt_irrefl h (above cycle)

/-- An object that holds another one of its class. -/
def instanceHeap : Heap :=
  ⟨[(Table.empty.rawset (.literal "child") (.table 1) rfl).setMetatable (some 2),
    Table.empty.setMetatable (some 2), .empty]⟩

theorem instanceHeap_closed : instanceHeap.Closed := Heap.closed_of_tables (by decide)

theorem instanceHeap_holds : instanceHeap.Holds (.table 0) := by decide

theorem instanceHeap_ascending : ∀ h, ∀ child ∈ instanceHeap.children h, h < child
  | 0 => by decide
  | 1 => by decide
  | 2 => by decide
  | _ + 3 => fun _ membership => absurd membership List.not_mem_nil

def instanceGraph : TableGraph := ⟨instanceHeap, .table 0, instanceHeap_closed, instanceHeap_holds⟩

theorem keepsMetatables_instance : KeepsMetatables instanceGraph := by
  apply (keepsMetatables_iff instanceGraph (acyclic_of_ascending instanceHeap_ascending)).mpr
  intro h _ m isMetatable
  match h with
  | 0 =>
      obtain rfl : 2 = m := Option.some.inj isMetatable
      exact .inl rfl
  | 1 =>
      obtain rfl : 2 = m := Option.some.inj isMetatable
      exact .inl rfl
  | 2 => contradiction
  | _ + 3 => contradiction

/-- The class says that its metatable is locked. -/
def lockedHeap : Heap :=
  ⟨[Table.empty.setMetatable (some 1),
    Table.empty.rawset (.literal "__metatable") (.literal "locked") rfl]⟩

theorem lockedHeap_closed : lockedHeap.Closed := Heap.closed_of_tables (by decide)

theorem lockedHeap_holds : lockedHeap.Holds (.table 0) := by decide

theorem lockedHeap_ascending : ∀ h, ∀ child ∈ lockedHeap.children h, h < child
  | 0 => by decide
  | 1 => by decide
  | _ + 2 => fun _ membership => absurd membership List.not_mem_nil

def lockedGraph : TableGraph := ⟨lockedHeap, .table 0, lockedHeap_closed, lockedHeap_holds⟩

theorem locked_object_not_copied :
    ¬ ∀ graph : TableGraph, graph.Acyclic → KeepsMetatables graph := by
  intro keeps
  obtain ⟨fuel, copy, final, returned, -⟩ :=
    keeps lockedGraph (acyclic_of_ascending lockedHeap_ascending)
  obtain ⟨settled, -⟩ := finished_of_returned returned
  have accepted := settled.accepted 0 (.self _ 0)
  revert accepted
  decide +kernel

/-! ## The shape of the graph -/

/-- The call returns, and a renaming takes the tables in reach of the object to those
in reach of the result, one to one, and the entries of each to those of the other. -/
def PreservesGraph (graph : TableGraph) : Prop :=
  ∃ fuel copy final, deepCopy fuel graph.heap graph.object = .returned copy final ∧
    ∃ rename : Nat → Nat, graph.object.mapHandle rename = copy ∧
      Set.BijOn rename {h | graph.heap.Reaches graph.object h}
        {n | final.heap.Reaches copy n} ∧
      ∀ h, graph.heap.Reaches graph.object h →
        graph.heap.size ≤ rename h ∧
        Entry.mapHandle rename '' {entry | entry ∈ (graph.heap.table h).entries} =
          {entry | entry ∈ (final.heap.table (rename h)).entries}

theorem tree_of_preservesGraph {graph : TableGraph} (preserved : PreservesGraph graph) {root : Nat}
    (isTable : graph.object = .table root) : TreeFrom graph.heap.children root := by
  obtain ⟨fuel, copy, final, returned, rename, rooted, bijection, entries⟩ := preserved
  obtain ⟨-, finished⟩ := finished_of_returned returned
  rw [isTable] at rooted
  subst rooted
  have covering : Covering graph.heap.children root final.heap.children (rename root) rename := by
    refine ⟨rfl, ?_⟩
    intro h path
    apply Table.children_perm
    · apply bijection.injOn.mono
      intro child step
      exact ⟨root, isTable, path.tail step⟩
    · exact (entries h ⟨root, isTable, path⟩).2
  exact covering.tree finished.tree

theorem preservesGraph_of_tree {graph : TableGraph}
    (accepted : ∀ h, graph.heap.Reaches graph.object h → graph.heap.Accepted h)
    (tree : ∀ root, graph.object = .table root → TreeFrom graph.heap.children root) :
    PreservesGraph graph := by
  have acyclic : graph.Acyclic := by
    rintro h ⟨root, isTable, path⟩
    exact (tree root isTable).noCycle h path
  obtain ⟨fuel, copy, final, returned⟩ := returned_of_acyclic acyclic accepted
  obtain ⟨-, finished⟩ := finished_of_returned returned
  have bijection : Set.BijOn (originalOf final.searchTable) {n | final.heap.Reaches copy n}
      {h | graph.heap.Reaches graph.object h} := by
    refine ⟨fun n reached => finished.reaches_original reached, ?_,
      fun h reached => finished.exists_copy reached⟩
    rintro n ⟨r, isCopy, path⟩ m ⟨r', isCopy', path'⟩ same
    rw [isCopy, LuaValue.table.injEq] at isCopy'
    subst isCopy' isCopy
    have isTable := (finished.copied.mapHandle finished.nodup).symm
    rw [isTable] at finished
    exact finished.covering.injective (tree _ isTable) path path' same
  let rename := Function.invFunOn (originalOf final.searchTable) {n | final.heap.Reaches copy n}
  have inverse : Set.InvOn rename (originalOf final.searchTable)
      {n | final.heap.Reaches copy n} {h | graph.heap.Reaches graph.object h} :=
    bijection.invOn_invFunOn
  have back := bijection.symm inverse.symm
  refine ⟨fuel, copy, final, returned, rename, ?_, back, ?_⟩
  · rw [← finished.copied.mapHandle finished.nodup]
    apply LuaValue.mapHandle_cancel
    intro n isCopy
    rw [LuaValue.handle_eq_some] at isCopy
    rw [isCopy] at inverse
    exact inverse.1 (Heap.Reaches.self final.heap n)
  · intro h reached
    have isCopy := back.mapsTo reached
    have original : originalOf final.searchTable (rename h) = h := inverse.2 reached
    refine ⟨(finished.created isCopy).1, ?_⟩
    have same := finished.entries (finished.recorded isCopy)
    rw [original] at same
    have restored : ∀ entry ∈ (final.heap.table (rename h)).entries,
        Entry.mapHandle rename (Entry.mapHandle (originalOf final.searchTable) entry) =
          entry := by
      intro entry membership
      apply Entry.mapHandle_cancel
      intro child isChild
      apply inverse.1
      obtain ⟨r, isTable, path⟩ := isCopy
      exact ⟨r, isTable, path.tail (List.mem_flatMap.mpr ⟨entry, membership, isChild⟩)⟩
    ext entry
    rw [← same]
    constructor
    · rintro ⟨_, membership, rfl⟩
      obtain ⟨made, isEntry, rfl⟩ := List.mem_map.mp membership
      rw [restored made isEntry]
      exact isEntry
    · intro isEntry
      exact ⟨_, List.mem_map_of_mem isEntry, restored entry isEntry⟩

/-- Without metatables the copy has the shape of the original exactly when that is a
tree. -/
theorem preservesGraph_iff (graph : TableGraph)
    (plain : ∀ h, graph.heap.Reaches graph.object h → (graph.heap.table h).metatable = none) :
    PreservesGraph graph ↔
      ∀ root, graph.object = .table root → TreeFrom graph.heap.children root := by
  constructor
  · intro preserved root isTable
    exact tree_of_preservesGraph preserved isTable
  · apply preservesGraph_of_tree
    intro h reached
    apply (graph.heap.accepted_iff h).mpr
    intro m isMetatable
    rw [plain h reached] at isMetatable
    contradiction

/-- A table in a table. -/
def nestedHeap : Heap := ⟨[Table.empty.rawset (.boolean true) (.table 1) rfl, .empty]⟩

theorem nestedHeap_closed : nestedHeap.Closed := Heap.closed_of_tables (by decide)

theorem nestedHeap_holds : nestedHeap.Holds (.table 0) := by decide

theorem nestedHeap_plain (h : Nat) : (nestedHeap.table h).metatable = none :=
  Heap.forall_table (P := fun table => table.metatable = none) (by decide) rfl h

theorem nestedHeap_children : ∀ h, nestedHeap.children h = if h = 0 then [1] else []
  | 0 => rfl
  | 1 => rfl
  | _ + 2 => rfl

def nestedGraph : TableGraph := ⟨nestedHeap, .table 0, nestedHeap_closed, nestedHeap_holds⟩

theorem nested_preservesGraph : PreservesGraph nestedGraph := by
  apply (preservesGraph_iff nestedGraph fun h _ => nestedHeap_plain h).mpr
  intro root isTable
  obtain rfl : 0 = root := LuaValue.table.inj isTable
  constructor
  · intro h _ membership
    rw [show nestedGraph.heap.children h = _ from nestedHeap_children h] at membership
    split at membership <;> simp at membership
  · intro h _
    rw [show nestedGraph.heap.children h = _ from nestedHeap_children h]
    split <;> simp
  · intro first second child _ _ firstMembership secondMembership
    rw [show nestedGraph.heap.children first = _ from nestedHeap_children first] at firstMembership
    rw [show nestedGraph.heap.children second = _ from nestedHeap_children second]
      at secondMembership
    split at firstMembership
    next isFirst =>
      split at secondMembership
      next isSecond => rw [isFirst, isSecond]
      next => contradiction
    next => contradiction

/-- A table that contains itself. -/
def selfHeap : Heap := ⟨[Table.empty.rawset (.boolean true) (.table 0) rfl]⟩

theorem selfHeap_closed : selfHeap.Closed := Heap.closed_of_tables (by decide)

theorem selfHeap_holds : selfHeap.Holds (.table 0) := by decide

theorem selfHeap_plain (h : Nat) : (selfHeap.table h).metatable = none :=
  Heap.forall_table (P := fun table => table.metatable = none) (by decide) rfl h

def selfGraph : TableGraph := ⟨selfHeap, .table 0, selfHeap_closed, selfHeap_holds⟩

theorem self_reference_not_copied :
    ¬ ∀ graph : TableGraph,
      (∀ h, graph.heap.Reaches graph.object h → (graph.heap.table h).metatable = none) →
        PreservesGraph graph := by
  intro preserves
  have tree := tree_of_preservesGraph (preserves selfGraph fun h _ => selfHeap_plain h) rfl
  exact tree.orphan 0 .refl (by decide)

end LuaEngine.Utils
