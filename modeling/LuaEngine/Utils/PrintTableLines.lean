import LuaEngine.Utils.PrintTable

/-!
# What `printTable` prints

The walk ends, since every table expanded leaves one name fewer that is not in
the cache.  A key that is neither a string nor a number stops it, and the name on
an opening line is that of the table around the one it opens.
-/

namespace LuaEngine.Utils

open LuaEngine.Codec LuaEngine.Lua LuaEngine.System

namespace PrintTable

variable {rendering : Rendering} {heap : Heap}

/-! ## Entries -/

/-- The line of an entry is joined from the right: what follows the key is a string. -/
theorem exists_tail (labelled : Labelled rendering heap) {e : Nat} (inside : e < heap.size)
    {val : LuaValue} (named : val.handle = none → rendering.Named val) :
    ∃ tail, ∀ indent pos, entryLine rendering (.table e) indent pos val =
      (rendering.concat (.localvar "pos" pos) (.string tail) >>= fun joined =>
        rendering.concat (.literal "[") (.localvar "pos" joined)) >>= fun joined =>
          rendering.concat (.string indent) joined := by
  cases val with
  | table h =>
      refine ⟨ascii "] => " ++ (labelled.label e ++ ascii " \x7b"), ?_⟩
      intro indent pos
      rw [entryLine, labelled.tostring_table e inside]
      rfl
  | string s => exact ⟨ascii "] => \"" ++ (s ++ ascii "\""), fun _ _ => rfl⟩
  | _ =>
      obtain ⟨s, isName⟩ := named rfl
      refine ⟨ascii "] => " ++ s, ?_⟩
      intro indent pos
      simp only [entryLine, isName]
      rfl

theorem printable_of_isText (labelled : Labelled rendering heap) {e : Nat}
    (inside : e < heap.size) {entry : Entry} (isText : entry.1.IsText)
    (named : entry.2.handle = none → rendering.Named entry.2) (indent : Bytes) :
    Printable rendering (.table e) indent entry := by
  obtain ⟨key, isKey⟩ := rendering.exists_text isText
  obtain ⟨tail, isLine⟩ := exists_tail labelled inside named
  constructor
  · rw [isLine, rendering.concat_text isKey rfl]
    exact ⟨_, rfl⟩
  · intro h _
    rw [Rendering.str_len, isKey]
    exact ⟨_, rfl⟩

/-! ## Calls -/

section Calls

variable (labelled : Labelled rendering heap)

/-- What is known of a call for a table. -/
def tablePost (h : Nat) (fuel : Nat) : Postcondition PrintState LuaValue Unit where
  returned _ final := ∃ tables lines, labelled.Visited ⟨[], [], []⟩ final [h] tables lines
  raised _ final := labelled.Once final ∧ Blocked rendering heap h
  unfinished := fuel ≤ heap.size

theorem printTable_table_meets (closed : heap.Closed) (fuel : Nat) {h : Nat}
    (inside : h < heap.size) :
    (printTable rendering fuel heap (.table h)).Meets (tablePost labelled h fuel) := by
  have begun := Labelled.Visited.plainLine labelled ⟨[], [], []⟩ (.outermost (.table h))
    (labelled.label h ++ ascii " \x7b") fun t => Line.noConfusion
  have once : labelled.Once ⟨[], [], []⟩ :=
    ⟨List.nodup_nil, fun _ membership => absurd membership List.not_mem_nil⟩
  simp only [printTable, Program.bind_meets]
  apply (print_meets_ok (labelled.title_prints inside)).mpr
  apply (labelled.subPrintTable_meets closed fuel h (spaces 2) _ inside
    (begun.once once)).consequence
  · rintro _ next ⟨tables, lines, visited⟩
    dsimp only
    rw [LuaValue.literal, print_string_meets]
    dsimp only
    rw [print_string_meets]
    have ended := Labelled.Visited.plainLine labelled next .ending (ascii "\x7d")
      fun t => Line.noConfusion
    have closed := Labelled.Visited.plainLine labelled
      { next with output := next.output ++ [⟨.ending, ascii "\x7d"⟩] } .blank []
      fun t => Line.noConfusion
    exact ⟨_, _, ((begun.andThen visited).andThen ended).andThen closed⟩
  · exact fun _ _ blocked => blocked
  · intro enough
    apply enough.trans
    apply (Finset.card_filter_le _ _).trans
    rw [Finset.card_range]

theorem printTable_plain {value : LuaValue} (plain : value.handle = none) (fuel : Nat) :
    printTable rendering fuel heap value = Program.run (do
      subPrintTable rendering heap fuel value (spaces 2)
      print rendering .blank (.ok (.string []))) ⟨[], [], []⟩ := by
  cases value with
  | table h => contradiction
  | _ => rfl

/-- Nothing is expanded, and no line is about a table. -/
structure Shallow (value : LuaValue) (final : PrintState) : Prop where
  expanded : final.expanded = []
  lines : ∀ printed ∈ final.output, printed.line = .plain value ∨ printed.line = .blank

theorem Shallow.silent (value : LuaValue) (printCache : List LuaValue) :
    Shallow value ⟨printCache, [], []⟩ :=
  ⟨rfl, fun _ membership => absurd membership List.not_mem_nil⟩

theorem Shallow.references {value : LuaValue} {final : PrintState}
    (shallow : Shallow value final) : references final.output = [] := by
  apply List.filterMap_eq_nil_iff.mpr
  intro printed membership
  rcases shallow.lines printed membership with line | line
  · rw [line]
    rfl
  · rw [line]
    rfl

/-- A value that is no table is printed on a line of its own, if `tostring` gives it
a name. -/
theorem printTable_plain_meets (rendering : Rendering) (heap : Heap) (fuel : Nat)
    {value : LuaValue} (plain : value.handle = none) :
    (printTable rendering (fuel + 1) heap value).Meets
      ⟨fun _ final => Shallow value final,
        fun _ final => Shallow value final ∧ ¬ rendering.Named value, False⟩ := by
  rw [printTable_plain plain, Program.bind_meets, subPrintTable_plain plain]
  cases isName : rendering.luaB_tostring value with
  | error error =>
      have unnamed : ¬ rendering.Named value := by
        rintro ⟨s, isString⟩
        rw [isName] at isString
        contradiction
      simp [cached, isName, unnamed, Shallow.silent]
  | ok name =>
      by_cases valid : name.isKey = true
      · cases prints : printed rendering (do
            let name ← rendering.luaB_tostring value
            rendering.luaV_concat [.string (spaces 2), name]) with
        | error error =>
            have unnamed : ¬ rendering.Named value := by
              rintro ⟨s, isString⟩
              rw [isString] at prints
              contradiction
            have silent : ¬ Prints rendering (do
                let name ← rendering.luaB_tostring value
                rendering.luaV_concat [.string (spaces 2), name]) := by
              rintro ⟨text, isText⟩
              rw [prints] at isText
              contradiction
            rw [isName] at silent
            simp only [cached, cache, isName, valid, Program.bind_meets, Program.lift_ok,
              Program.pure_meets, Program.get_meets, Program.modify_meets, List.not_mem_nil,
              decide_false, Bool.false_eq_true, if_false, if_true]
            exact print_meets_error silent fun _ => ⟨.silent value _, unnamed⟩
        | ok text =>
            rw [isName] at prints
            simp only [cached, cache, isName, valid, Program.bind_meets, Program.lift_ok,
              Program.pure_meets, Program.get_meets, Program.modify_meets, List.not_mem_nil,
              decide_false, Bool.false_eq_true, if_false, if_true]
            apply (print_meets_ok prints).mpr
            dsimp only
            rw [print_string_meets]
            exact ⟨rfl, by simp⟩
      · have unnamed : ¬ rendering.Named value := by
          rintro ⟨s, isString⟩
          rw [isName, Except.ok.injEq] at isString
          rw [isString] at valid
          contradiction
        by_cases isNil : name = .nil
        · subst isNil
          simp [cached, cache, isName, LuaValue.isKey, unnamed, Shallow.silent]
        · simp [cached, cache, isName, valid, isNil, unnamed, Shallow.silent]

/-- A walk that returns has expanded just the tables in reach. -/
theorem Labelled.Visited.mem_expanded {labelled : Labelled rendering heap}
    (closed : heap.Closed) {h : Nat} (isTable : h < heap.size) {final : PrintState}
    {tables : List Nat} {lines : List Printed}
    (visited : labelled.Visited ⟨[], [], []⟩ final [h] tables lines) (e : Nat) :
    e ∈ tables ↔ ReachableFrom heap.valueChildren h e := by
  have cached : ∀ e < heap.size, labelled.name e ∈ final.printCache → e ∈ tables := by
    intro e inside membership
    rw [visited.cache, List.append_nil, List.mem_reverse] at membership
    obtain ⟨other, isOther, same⟩ := List.mem_map.mp membership
    rw [← labelled.name_injective (visited.inside other isOther) inside same]
    exact isOther
  constructor
  · intro membership
    obtain ⟨root, isRoot, path⟩ := visited.reached e membership
    rw [List.mem_singleton.mp isRoot] at path
    exact path
  · intro path
    induction path with
    | refl => exact cached h isTable (visited.met h (List.mem_singleton.mpr rfl))
    | @tail parent child before step inductionHypothesis =>
        obtain ⟨entry, membership, isValue⟩ := Heap.mem_valueChildren.mp step
        exact cached child (closed.value parent entry membership child isValue)
          (visited.closed parent inductionHypothesis child step)

end Calls

end PrintTable

open PrintTable

section Walk

variable {rendering : Rendering} {graph : TableGraph}

theorem printTable_finishes (labelled : Labelled rendering graph.heap) {fuel : Nat}
    (enough : graph.heap.size < fuel) :
    printTable rendering fuel graph.heap graph.object ≠ .unfinished := by
  intro unfinished
  cases isTable : graph.object.handle with
  | none =>
      obtain ⟨fuel, rfl⟩ := Nat.exists_eq_succ_of_ne_zero (Nat.ne_zero_of_lt enough)
      have meets := printTable_plain_meets rendering graph.heap fuel isTable
      rw [unfinished] at meets
      exact meets
  | some h =>
      rw [LuaValue.handle_eq_some] at isTable
      have meets := printTable_table_meets labelled graph.closed fuel (graph.holds h isTable)
      rw [← isTable, unfinished] at meets
      exact absurd meets (Nat.not_le.mpr enough)

/-- Every key is a string or a number. -/
def TextKeys (graph : TableGraph) : Prop :=
  ∀ h, graph.heap.ReachesByValue graph.object h →
    ∀ entry ∈ (graph.heap.table h).entries, entry.1.IsText

theorem textKeys_of_tables {graph : TableGraph}
    (keys : ∀ table ∈ graph.heap.tables, ∀ entry ∈ table.entries, entry.1.IsText) :
    TextKeys graph := fun h _ =>
  Heap.forall_table keys (fun _ membership => absurd membership List.not_mem_nil) h

/-- `tostring` returns a string for the object and for every value in reach, tables
apart. -/
structure NamedValues (rendering : Rendering) (graph : TableGraph) : Prop where
  object : graph.object.handle = none → rendering.Named graph.object
  value : ∀ h, graph.heap.ReachesByValue graph.object h →
    ∀ entry ∈ (graph.heap.table h).entries, entry.2.handle = none → rendering.Named entry.2

theorem not_blocked (labelled : Labelled rendering graph.heap) (keys : TextKeys graph)
    (named : NamedValues rendering graph) {h : Nat} (isTable : graph.object = .table h) :
    ¬ Blocked rendering graph.heap h := by
  rintro ⟨e, path, entry, membership, indent, unprintable⟩
  have reached : graph.heap.ReachesByValue graph.object e := ⟨h, isTable, path⟩
  have inside := graph.closed.insideByValue graph.holds reached
  exact unprintable (printable_of_isText labelled inside (keys e reached entry membership)
    (named.value e reached entry membership) indent)

/-- The occurrences of a table: as the object, and as a value of a table expanded. -/
def occurrences (graph : TableGraph) (final : PrintState) : List Nat :=
  graph.object.handle.toList ++ final.expanded.flatMap graph.heap.valueChildren

theorem printTable_visits (labelled : Labelled rendering graph.heap) (keys : TextKeys graph)
    (named : NamedValues rendering graph) {fuel : Nat} (enough : graph.heap.size < fuel) :
    ∃ final, printTable rendering fuel graph.heap graph.object = .returned () final ∧
      (∀ h, h ∈ final.expanded ↔ graph.heap.ReachesByValue graph.object h) ∧
      (references final.output ++ final.expanded).Perm (occurrences graph final) ∧
      ∀ printed ∈ final.output, labelled.Starred printed := by
  cases isTable : graph.object.handle with
  | none =>
      obtain ⟨fuel, rfl⟩ := Nat.exists_eq_succ_of_ne_zero (Nat.ne_zero_of_lt enough)
      obtain ⟨_, final, returned, shallow⟩ :=
        (printTable_plain_meets rendering graph.heap fuel isTable).returns
          (fun _ _ both => both.2 (named.object isTable)) id
      refine ⟨final, returned, ?_, ?_, ?_⟩
      · intro h
        rw [shallow.expanded]
        constructor
        · exact fun membership => absurd membership List.not_mem_nil
        · rintro ⟨root, isRoot, -⟩
          rw [isRoot] at isTable
          contradiction
      · rw [occurrences, isTable, shallow.expanded, shallow.references]
        exact .nil
      · intro printed membership h isReference
        rcases shallow.lines printed membership with line | line
        · rw [line] at isReference
          contradiction
        · rw [line] at isReference
          contradiction
  | some h =>
      rw [LuaValue.handle_eq_some] at isTable
      obtain ⟨_, final, returned, tables, lines, visited⟩ :=
        (printTable_table_meets labelled graph.closed fuel (graph.holds h isTable)).returns
          (fun _ _ both => not_blocked labelled keys named isTable both.2)
          (Nat.not_le.mpr enough)
      have expanded := visited.expanded
      have output := visited.output
      rw [List.nil_append] at expanded output
      refine ⟨final, ?_, ?_, ?_, ?_⟩
      · rw [isTable]
        exact returned
      · intro e
        rw [expanded, visited.mem_expanded graph.closed (graph.holds h isTable)]
        constructor
        · exact fun path => ⟨h, isTable, path⟩
        · rintro ⟨root, isRoot, path⟩
          rw [isTable, LuaValue.table.injEq] at isRoot
          rw [isRoot]
          exact path
      · rw [occurrences, isTable, expanded, output]
        exact visited.balance
      · rw [output]
        exact visited.starred

end Walk

/-- A rendering without metamethods, for fewer than ten tables. -/
def unadorned : Rendering where
  lua_number2str _ := ascii "0"
  lua_topointer value := ascii "0x" ++ [48 + UInt8.ofNat (value.handle.getD 0)]
  tostringTM _ := none
  concatTM _ _ := none

/-- A userdata whose `__tostring` raises. -/
def raising : Rendering where
  lua_number2str _ := ascii "0"
  lua_topointer _ := ascii "0x1"
  tostringTM
    | .userdata _ => some (.error (.literal "no name"))
    | _ => none
  concatTM _ _ := none

end LuaEngine.Utils
