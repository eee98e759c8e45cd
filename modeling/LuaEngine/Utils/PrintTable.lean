import LuaEngine.Lua.Text
import LuaEngine.System.Graph
import LuaEngine.System.Outcome

/-!
# `Utils.printTable`

A depth-first walk through the values of a table.  `printCache` holds the
rendered names of the tables met; a table whose name is in it is printed as a
back reference.
-/

namespace LuaEngine.Utils

open LuaEngine.Codec LuaEngine.Lua LuaEngine.System

/-- What a line is printed for. -/
inductive Line where
  | outermost (t : LuaValue)
  | opening (indent : Bytes) (pos val : LuaValue)
  | field (pos val : LuaValue)
  | closing
  | backReference (t : LuaValue)
  | plain (t : LuaValue)
  | ending
  | blank
  deriving DecidableEq

structure Printed where
  line : Line
  text : Bytes
  deriving DecidableEq

/-- The keys of `printCache`, the lines printed, and the tables whose entries have
been gone through, in this order. -/
structure PrintState where
  printCache : List LuaValue
  output : List Printed
  expanded : List Nat
  deriving DecidableEq

abbrev PrintProgram := Program PrintState LuaValue

namespace PrintTable

section Code

variable (rendering : Rendering)

/-- `print(argument)` -/
def print (line : Line) (argument : Except LuaValue LuaValue) : PrintProgram Unit := do
  let value ← Program.lift argument
  let text ← Program.lift (rendering.luaB_print value)
  Program.modify fun state => { state with output := state.output ++ [⟨line, text⟩] }

/-- `printCache[tostring(t)] = true` -/
def cache (t : LuaValue) : PrintProgram Unit := do
  let name ← Program.lift (rendering.luaB_tostring t)
  if name.isKey then
    Program.modify fun state => { state with printCache := name :: state.printCache }
  else if name = .nil then
    Program.raise (.literal "table index is nil")
  else
    Program.raise (.literal "table index is NaN")

def cached (t : LuaValue) : PrintProgram Bool := do
  let name ← Program.lift (rendering.luaB_tostring t)
  let state ← Program.get
  pure (name ∈ state.printCache)

/-- The argument of the first `print` for an entry of `t`.  The opening line of a
table carries the name of `t`. -/
def entryLine (t : LuaValue) (indent : Bytes) (pos : LuaValue) :
    LuaValue → Except LuaValue LuaValue
  | .table _ => do
      let name ← rendering.luaB_tostring t
      rendering.luaV_concat [.string indent, .literal "[", .localvar "pos" pos, .literal "] => ",
        name, .literal " \x7b"]
  | .string s =>
      rendering.luaV_concat [.string indent, .literal "[", .localvar "pos" pos, .literal "] => \"",
        .string s, .literal "\""]
  | val => do
      let name ← rendering.luaB_tostring val
      rendering.luaV_concat [.string indent, .literal "[", .localvar "pos" pos, .literal "] => ",
        name]

def expand (h : Nat) : PrintProgram Unit :=
  Program.modify fun state => { state with expanded := state.expanded ++ [h] }

/-- One iteration of the loop in `subPrintTable`. -/
def printEntry (subPrintTable : LuaValue → Bytes → PrintProgram Unit) (t : LuaValue)
    (indent : Bytes) (entry : Entry) : PrintProgram Unit :=
  match entry.2 with
  | .table _ => do
      print rendering (.opening indent entry.1 entry.2)
        (entryLine rendering t indent entry.1 entry.2)
      let len ← Program.lift (rendering.str_len entry.1)
      subPrintTable entry.2 (indent ++ spaces (len + 8))
      let len ← Program.lift (rendering.str_len entry.1)
      print rendering .closing
        (rendering.luaV_concat [.string indent, .string (spaces (len + 6)), .literal "\x7d"])
  | _ =>
      print rendering (.field entry.1 entry.2) (entryLine rendering t indent entry.1 entry.2)

/-- The fuel bounds how deep the calls nest. -/
def subPrintTable (heap : Heap) : Nat → LuaValue → Bytes → PrintProgram Unit
  | 0, _, _ => Program.unfinished
  | fuel + 1, t, indent => do
      if ← cached rendering t then
        print rendering (.backReference t) do
          let name ← rendering.luaB_tostring t
          rendering.luaV_concat [.string indent, .literal "*", name]
      else
        cache rendering t
        match t with
        | .table h =>
            expand h
            Program.forEach (printEntry rendering (subPrintTable heap fuel) t indent)
              (heap.table h).entries
        | _ =>
            print rendering (.plain t) do
              let name ← rendering.luaB_tostring t
              rendering.luaV_concat [.string indent, name]

end Code

end PrintTable

open PrintTable in
/-- `printCache` is empty when a call begins. -/
def printTable (rendering : Rendering) (fuel : Nat) (heap : Heap) (t : LuaValue) :
    Outcome PrintState LuaValue Unit :=
  Program.run (do
    match t with
    | .table _ =>
        print rendering (.outermost t) do
          let name ← rendering.luaB_tostring t
          rendering.luaV_concat [name, .literal " \x7b"]
        subPrintTable rendering heap fuel t (spaces 2)
        print rendering .ending (.ok (.literal "\x7d"))
    | _ => subPrintTable rendering heap fuel t (spaces 2)
    print rendering .blank (.ok (.string []))) ⟨[], [], []⟩

namespace PrintTable

/-! ## Lines -/

/-- The text `print` gets out of its argument. -/
def printed (rendering : Rendering) (argument : Except LuaValue LuaValue) :
    Except LuaValue Bytes :=
  argument >>= rendering.luaB_print

def Prints (rendering : Rendering) (argument : Except LuaValue LuaValue) : Prop :=
  ∃ text, printed rendering argument = .ok text

/-- The iteration for the entry raises nothing of its own. -/
structure Printable (rendering : Rendering) (t : LuaValue) (indent : Bytes) (entry : Entry) :
    Prop where
  line : Prints rendering (entryLine rendering t indent entry.1 entry.2)
  len : ∀ h, entry.2 = .table h → ∃ n, rendering.str_len entry.1 = .ok n

/-- An entry of a table in reach that cannot be printed. -/
def Blocked (rendering : Rendering) (heap : Heap) (h : Nat) : Prop :=
  ∃ e, ReachableFrom heap.valueChildren h e ∧ ∃ entry ∈ (heap.table e).entries,
    ∃ indent, ¬ Printable rendering (.table e) indent entry

/-- The table a back reference is printed for. -/
def Line.reference : Line → Option Nat
  | .backReference t => t.handle
  | _ => none

def references (lines : List Printed) : List Nat :=
  lines.filterMap fun printed => Line.reference printed.line

@[simp]
theorem references_append (first second : List Printed) :
    references (first ++ second) = references first ++ references second :=
  List.filterMap_append

variable {rendering : Rendering}

theorem print_meets_ok {line : Line} {argument : Except LuaValue LuaValue} {text : Bytes}
    {state : PrintState} {post : Postcondition PrintState LuaValue Unit}
    (prints : printed rendering argument = .ok text) :
    ((print rendering line argument).run state).Meets post ↔
      post.returned () { state with output := state.output ++ [⟨line, text⟩] } := by
  cases argument with
  | error error => contradiction
  | ok value =>
      have isText : rendering.luaB_print value = .ok text := prints
      simp [print, isText]

theorem print_string_meets {line : Line} {text : Bytes} {state : PrintState}
    {post : Postcondition PrintState LuaValue Unit} :
    ((print rendering line (.ok (.string text))).run state).Meets post ↔
      post.returned () { state with output := state.output ++ [⟨line, text⟩] } :=
  print_meets_ok rfl

theorem print_meets_error {line : Line} {argument : Except LuaValue LuaValue}
    {state : PrintState} {post : Postcondition PrintState LuaValue Unit}
    (silent : ¬ Prints rendering argument) (raised : ∀ error, post.raised error state) :
    ((print rendering line argument).run state).Meets post := by
  cases argument with
  | error error => exact raised error
  | ok value =>
      cases isText : rendering.luaB_print value with
      | ok text => exact absurd ⟨text, isText⟩ silent
      | error error =>
          simp [print, isText, raised error]

theorem printEntry_plain {subPrintTable : LuaValue → Bytes → PrintProgram Unit} {t : LuaValue}
    {indent : Bytes} {entry : Entry} (plain : entry.2.handle = none) :
    printEntry rendering subPrintTable t indent entry =
      print rendering (.field entry.1 entry.2)
        (entryLine rendering t indent entry.1 entry.2) := by
  unfold printEntry
  split
  next isTable =>
    rw [isTable] at plain
    contradiction
  next => rfl

theorem printEntry_table {subPrintTable : LuaValue → Bytes → PrintProgram Unit} {t : LuaValue}
    {indent : Bytes} {entry : Entry} {h : Nat} (isTable : entry.2 = .table h) :
    printEntry rendering subPrintTable t indent entry = (do
      print rendering (.opening indent entry.1 entry.2)
        (entryLine rendering t indent entry.1 entry.2)
      let len ← Program.lift (rendering.str_len entry.1)
      subPrintTable entry.2 (indent ++ spaces (len + 8))
      let len ← Program.lift (rendering.str_len entry.1)
      print rendering .closing
        (rendering.luaV_concat [.string indent, .string (spaces (len + 6)), .literal "\x7d"])) := by
  unfold printEntry
  split
  next => rfl
  next notTable => exact absurd isTable (notTable h)

theorem closing_prints (indent padding : Bytes) :
    printed rendering (rendering.luaV_concat
      [.string indent, .string padding, .literal "\x7d"]) =
        .ok (indent ++ (padding ++ ascii "\x7d")) := rfl

section Entry

variable {subPrintTable : LuaValue → Bytes → PrintProgram Unit} {t : LuaValue} {indent : Bytes}
  {entry : Entry} {state : PrintState} {post : Postcondition PrintState LuaValue Unit}

theorem printEntry_plain_meets (plain : entry.2.handle = none)
    (returned : ∀ text, Printable rendering t indent entry → post.returned ()
      { state with output := state.output ++ [⟨.field entry.1 entry.2, text⟩] })
    (raised : ¬ Printable rendering t indent entry → ∀ error, post.raised error state) :
    ((printEntry rendering subPrintTable t indent entry).run state).Meets post := by
  rw [printEntry_plain plain]
  by_cases prints : Prints rendering (entryLine rendering t indent entry.1 entry.2)
  · obtain ⟨text, isText⟩ := prints
    apply (print_meets_ok isText).mpr
    refine returned text ⟨⟨text, isText⟩, ?_⟩
    intro h isTable
    rw [isTable] at plain
    contradiction
  · exact print_meets_error prints (raised fun printable => prints printable.line)

/-- The opening line may be printed and the length of its key still raise. -/
theorem printEntry_table_meets {h : Nat} (isTable : entry.2 = .table h)
    (raised : ¬ Printable rendering t indent entry → ∀ error, post.raised error state)
    (raisedOpened : ∀ text, printed rendering (entryLine rendering t indent entry.1 (.table h)) =
      .ok text → ¬ Printable rendering t indent entry → ∀ error, post.raised error
        { state with output := state.output ++ [⟨.opening indent entry.1 (.table h), text⟩] })
    (inner : ∀ text n, printed rendering (entryLine rendering t indent entry.1 (.table h)) =
      .ok text → Printable rendering t indent entry →
        ((subPrintTable (.table h) (indent ++ spaces (n + 8))).run
          { state with
            output := state.output ++ [⟨.opening indent entry.1 (.table h), text⟩] }).Meets
          ⟨fun _ next => post.returned ()
            { next with
              output := next.output ++ [⟨.closing, indent ++ (spaces (n + 6) ++ ascii "\x7d")⟩] },
            post.raised, post.unfinished⟩) :
    ((printEntry rendering subPrintTable t indent entry).run state).Meets post := by
  rw [printEntry_table isTable, Program.bind_meets]
  by_cases prints : Prints rendering (entryLine rendering t indent entry.1 entry.2)
  · obtain ⟨text, isText⟩ := prints
    apply (print_meets_ok isText).mpr
    have opened := isText
    rw [isTable] at opened
    cases len : rendering.str_len entry.1 with
    | error error =>
        rw [isTable]
        refine raisedOpened text opened ?_ error
        intro printable
        obtain ⟨n, isLen⟩ := printable.len h isTable
        rw [len] at isLen
        contradiction
    | ok n =>
        simp only [Program.lift_ok, Program.bind_meets, Program.pure_meets]
        rw [isTable]
        apply (inner text n opened ⟨⟨text, isText⟩, fun _ _ => ⟨n, len⟩⟩).weaken
        intro _ _ closes
        exact (print_meets_ok (closing_prints indent _)).mpr closes
  · exact print_meets_error prints (raised fun printable => prints printable.line)

end Entry

theorem subPrintTable_plain {heap : Heap} {t : LuaValue} (plain : t.handle = none) (fuel : Nat)
    (indent : Bytes) :
    subPrintTable rendering heap (fuel + 1) t indent = (do
      if ← cached rendering t then
        print rendering (.backReference t) do
          let name ← rendering.luaB_tostring t
          rendering.luaV_concat [.string indent, .literal "*", name]
      else
        cache rendering t
        print rendering (.plain t) do
          let name ← rendering.luaB_tostring t
          rendering.luaV_concat [.string indent, name]) := by
  cases t with
  | table h => contradiction
  | _ => rfl

/-! ## Names -/

/-- Every table has a name of its own. -/
structure Labelled (rendering : Rendering) (heap : Heap) where
  label : Nat → Bytes
  tostring_table : ∀ h < heap.size,
    rendering.luaB_tostring (.table h) = .ok (.string (label h))
  injective : ∀ h < heap.size, ∀ h' < heap.size, label h = label h' → h = h'

namespace Labelled

variable {heap : Heap} (labelled : Labelled rendering heap)

def name (h : Nat) : LuaValue := .string (labelled.label h)

theorem name_injective {h h' : Nat} (inside : h < heap.size) (inside' : h' < heap.size)
    (same : labelled.name h = labelled.name h') : h = h' :=
  labelled.injective h inside h' inside' (LuaValue.string.inj same)

theorem cached_meets {h : Nat} (inside : h < heap.size) {state : PrintState}
    {post : Postcondition PrintState LuaValue Bool} :
    ((cached rendering (.table h)).run state).Meets post ↔
      (labelled.name h ∈ state.printCache → post.returned true state) ∧
        (labelled.name h ∉ state.printCache → post.returned false state) := by
  simp only [cached, labelled.tostring_table h inside, Program.bind_meets, Program.lift_ok,
    Program.pure_meets, Program.get_meets]
  by_cases met : labelled.name h ∈ state.printCache
  · have isMet : LuaValue.string (labelled.label h) ∈ state.printCache := met
    simp [met, isMet]
  · have notMet : LuaValue.string (labelled.label h) ∉ state.printCache := met
    simp [met, notMet]

theorem cache_meets {h : Nat} (inside : h < heap.size) {state : PrintState}
    {post : Postcondition PrintState LuaValue Unit} :
    ((cache rendering (.table h)).run state).Meets post ↔
      post.returned () { state with printCache := labelled.name h :: state.printCache } := by
  simp [cache, labelled.tostring_table h inside, name, LuaValue.isKey]

/-- How many tables are not yet in the cache. -/
def uncached (state : PrintState) : Nat :=
  ((Finset.range heap.size).filter fun h => labelled.name h ∉ state.printCache).card

theorem uncached_mono {before after : PrintState}
    (grows : before.printCache ⊆ after.printCache) :
    labelled.uncached after ≤ labelled.uncached before := by
  apply Finset.card_le_card
  intro h membership
  rw [Finset.mem_filter] at membership ⊢
  exact ⟨membership.1, fun earlier => membership.2 (grows earlier)⟩

theorem uncached_lt {before after : PrintState} {h : Nat} (inside : h < heap.size)
    (grows : before.printCache ⊆ after.printCache) (new : labelled.name h ∈ after.printCache)
    (fresh : labelled.name h ∉ before.printCache) :
    labelled.uncached after < labelled.uncached before := by
  apply Finset.card_lt_card
  apply Finset.ssubset_iff_subset_ne.mpr
  constructor
  · intro other membership
    rw [Finset.mem_filter] at membership ⊢
    exact ⟨membership.1, fun earlier => membership.2 (grows earlier)⟩
  · intro same
    have membership : h ∈ (Finset.range heap.size).filter
        fun h => labelled.name h ∉ before.printCache :=
      Finset.mem_filter.mpr ⟨Finset.mem_range.mpr inside, fresh⟩
    rw [← same, Finset.mem_filter] at membership
    exact membership.2 new

/-- A back reference is a star and the name of its table. -/
def Starred (printed : Printed) : Prop :=
  ∀ h, printed.line = .backReference (.table h) →
    ∃ indent, printed.text = indent ++ ascii "*" ++ labelled.label h

/-- What a stretch of the walk has done: the tables expanded in it, the lines printed,
and for each occurrence of a table among the roots and the values of those expanded
either its expansion or a back reference. -/
structure Visited (before after : PrintState) (roots tables : List Nat)
    (lines : List Printed) : Prop where
  expanded : after.expanded = before.expanded ++ tables
  cache : after.printCache = (tables.map labelled.name).reverse ++ before.printCache
  output : after.output = before.output ++ lines
  inside : ∀ e ∈ tables, e < heap.size
  fresh : ∀ e ∈ tables, labelled.name e ∉ before.printCache
  nodup : tables.Nodup
  met : ∀ root ∈ roots, labelled.name root ∈ after.printCache
  closed : ∀ e ∈ tables, ∀ child ∈ heap.valueChildren e,
    labelled.name child ∈ after.printCache
  reached : ∀ e ∈ tables, ∃ root ∈ roots, ReachableFrom heap.valueChildren root e
  balance : (references lines ++ tables).Perm (roots ++ tables.flatMap heap.valueChildren)
  starred : ∀ printed ∈ lines, labelled.Starred printed
  printable : ∀ e ∈ tables, ∀ entry ∈ (heap.table e).entries,
    ∃ indent, Printable rendering (.table e) indent entry

/-- No table is expanded twice, and those expanded are in the cache. -/
structure Once (state : PrintState) : Prop where
  nodup : state.expanded.Nodup
  cached : ∀ e ∈ state.expanded, labelled.name e ∈ state.printCache

namespace Visited

variable {labelled} {before middle after : PrintState} {roots others tables more : List Nat}
  {lines rest : List Printed}

theorem refl (labelled : Labelled rendering heap) (state : PrintState) :
    labelled.Visited state state [] [] [] where
  expanded := (List.append_nil _).symm
  cache := rfl
  output := (List.append_nil _).symm
  inside _ membership := absurd membership List.not_mem_nil
  fresh _ membership := absurd membership List.not_mem_nil
  nodup := List.nodup_nil
  met _ membership := absurd membership List.not_mem_nil
  closed _ membership := absurd membership List.not_mem_nil
  reached _ membership := absurd membership List.not_mem_nil
  balance := .nil
  starred _ membership := absurd membership List.not_mem_nil
  printable _ membership := absurd membership List.not_mem_nil

theorem grows (visited : labelled.Visited before after roots tables lines) :
    before.printCache ⊆ after.printCache := by
  rw [visited.cache]
  exact List.subset_append_right _ _

theorem cached (visited : labelled.Visited before after roots tables lines) {e : Nat}
    (membership : e ∈ tables) : labelled.name e ∈ after.printCache := by
  rw [visited.cache]
  apply List.mem_append_left
  rw [List.mem_reverse]
  exact List.mem_map_of_mem membership

theorem andThen (visited : labelled.Visited before middle roots tables lines)
    (later : labelled.Visited middle after others more rest) :
    labelled.Visited before after (roots ++ others) (tables ++ more) (lines ++ rest) where
  expanded := by rw [later.expanded, visited.expanded, List.append_assoc]
  cache := by
    rw [later.cache, visited.cache, List.map_append, List.reverse_append, List.append_assoc]
  output := by rw [later.output, visited.output, List.append_assoc]
  inside e membership := (List.mem_append.mp membership).elim (visited.inside e) (later.inside e)
  fresh e membership := by
    rcases List.mem_append.mp membership with earlier | new
    · exact visited.fresh e earlier
    · exact fun old => later.fresh e new (visited.grows old)
  nodup := by
    apply List.Nodup.append visited.nodup later.nodup
    intro e earlier new
    exact later.fresh e new (visited.cached earlier)
  met root membership := by
    rcases List.mem_append.mp membership with earlier | new
    · exact later.grows (visited.met root earlier)
    · exact later.met root new
  closed e membership child step := by
    rcases List.mem_append.mp membership with earlier | new
    · exact later.grows (visited.closed e earlier child step)
    · exact later.closed e new child step
  reached e membership := by
    rcases List.mem_append.mp membership with earlier | new
    · obtain ⟨root, isRoot, path⟩ := visited.reached e earlier
      exact ⟨root, List.mem_append_left _ isRoot, path⟩
    · obtain ⟨root, isRoot, path⟩ := later.reached e new
      exact ⟨root, List.mem_append_right _ isRoot, path⟩
  balance := by
    rw [references_append, List.flatMap_append]
    apply List.perm_iff_count.mpr
    intro h
    have first := visited.balance.count_eq h
    have second := later.balance.count_eq h
    simp only [List.count_append] at first second ⊢
    omega
  starred printed membership :=
    (List.mem_append.mp membership).elim (visited.starred printed) (later.starred printed)
  printable e membership :=
    (List.mem_append.mp membership).elim (visited.printable e) (later.printable e)

/-- A line, which stands for the table it refers back to, if it does. -/
theorem line {state : PrintState} {printed : Printed}
    (met : ∀ root ∈ roots, labelled.name root ∈ state.printCache)
    (balance : references [printed] = roots) (starred : labelled.Starred printed) :
    labelled.Visited state { state with output := state.output ++ [printed] } roots []
      [printed] where
  expanded := (List.append_nil _).symm
  cache := rfl
  output := rfl
  inside _ membership := absurd membership List.not_mem_nil
  fresh _ membership := absurd membership List.not_mem_nil
  nodup := List.nodup_nil
  met := met
  closed _ membership := absurd membership List.not_mem_nil
  reached _ membership := absurd membership List.not_mem_nil
  balance := by
    rw [balance]
    exact .refl _
  starred other membership := by
    rw [List.mem_singleton.mp membership]
    exact starred
  printable _ membership := absurd membership List.not_mem_nil

theorem plainLine (labelled : Labelled rendering heap) (state : PrintState) (kind : Line)
    (text : Bytes) (plain : ∀ t, kind ≠ .backReference t) :
    labelled.Visited state { state with output := state.output ++ [⟨kind, text⟩] } [] []
      [⟨kind, text⟩] := by
  apply line
  · exact fun _ membership => absurd membership List.not_mem_nil
  · cases kind with
    | backReference t => exact absurd rfl (plain t)
    | _ => rfl
  · exact fun h isReference => absurd isReference (plain _)

theorem backReference {state : PrintState} {h : Nat} (met : labelled.name h ∈ state.printCache)
    (indent : Bytes) :
    labelled.Visited state
      { state with
        output := state.output ++
          [⟨.backReference (.table h), indent ++ (ascii "*" ++ labelled.label h)⟩] }
      [h] [] [⟨.backReference (.table h), indent ++ (ascii "*" ++ labelled.label h)⟩] := by
  apply line
  · intro root membership
    rw [List.mem_singleton.mp membership]
    exact met
  · rfl
  · intro other isReference
    rw [Line.backReference.injEq, LuaValue.table.injEq] at isReference
    rw [← isReference]
    exact ⟨indent, (List.append_assoc _ _ _).symm⟩

/-- The expansion of a table, from what its loop did with its values. -/
theorem expand {h : Nat} (inside : h < heap.size) (fresh : labelled.name h ∉ before.printCache)
    (visited : labelled.Visited
      { before with
        printCache := labelled.name h :: before.printCache
        expanded := before.expanded ++ [h] }
      after (heap.valueChildren h) tables lines)
    (printable : ∀ entry ∈ (heap.table h).entries,
      ∃ indent, Printable rendering (.table h) indent entry) :
    labelled.Visited before after [h] (h :: tables) lines where
  expanded := by
    rw [visited.expanded, List.append_assoc]
    rfl
  cache := by
    rw [visited.cache, List.map_cons, List.reverse_cons, List.append_assoc]
    rfl
  output := visited.output
  inside e membership := by
    rcases List.mem_cons.mp membership with rfl | later
    · exact inside
    · exact visited.inside e later
  fresh e membership := by
    rcases List.mem_cons.mp membership with rfl | later
    · exact fresh
    · exact fun old => visited.fresh e later (List.mem_cons_of_mem _ old)
  nodup := by
    apply List.nodup_cons.mpr
    refine ⟨?_, visited.nodup⟩
    intro again
    exact visited.fresh h again List.mem_cons_self
  met root membership := by
    rw [List.mem_singleton.mp membership]
    exact visited.grows List.mem_cons_self
  closed e membership := by
    rcases List.mem_cons.mp membership with rfl | later
    · exact visited.met
    · exact visited.closed e later
  reached e membership := by
    refine ⟨h, List.mem_singleton.mpr rfl, ?_⟩
    rcases List.mem_cons.mp membership with rfl | later
    · exact .refl
    · obtain ⟨child, step, path⟩ := visited.reached e later
      exact .head step path
  balance := by
    apply List.perm_middle.trans
    exact visited.balance.cons h
  starred := visited.starred
  printable e membership := by
    rcases List.mem_cons.mp membership with rfl | later
    · exact printable
    · exact visited.printable e later

theorem once (visited : labelled.Visited before after roots tables lines)
    (earlier : labelled.Once before) : labelled.Once after := by
  constructor
  · rw [visited.expanded]
    apply List.Nodup.append earlier.nodup visited.nodup
    intro e old new
    exact visited.fresh e new (earlier.cached e old)
  · intro e membership
    rw [visited.expanded] at membership
    rcases List.mem_append.mp membership with old | new
    · exact visited.grows (earlier.cached e old)
    · exact visited.cached new

end Visited

/-- What is known of the call of `subPrintTable` for a table. -/
def visitPost (fuel h : Nat) (before : PrintState) : Postcondition PrintState LuaValue Unit where
  returned _ after := ∃ tables lines, labelled.Visited before after [h] tables lines
  raised _ after := labelled.Once after ∧ Blocked rendering heap h
  unfinished := fuel ≤ labelled.uncached before

/-- The loop for `h`, in which the values of some entries are visited. -/
structure Looping (h : Nat) (indent : Bytes) (before after : PrintState) (done : List Entry)
    (tables : List Nat) (lines : List Printed) : Prop where
  visited : labelled.Visited before after (done.flatMap fun entry => entry.2.handle.toList)
    tables lines
  printable : ∀ entry ∈ done, Printable rendering (.table h) indent entry

theorem Looping.andThen {labelled : Labelled rendering heap} {h : Nat} {indent : Bytes}
    {before state after : PrintState} {done : List Entry} {entry : Entry}
    {tables more : List Nat} {lines rest : List Printed}
    (looping : labelled.Looping h indent before state done tables lines)
    {roots : List Nat} (visited : labelled.Visited state after roots more rest)
    (values : entry.2.handle.toList = roots)
    (printable : Printable rendering (.table h) indent entry) :
    labelled.Looping h indent before after (done ++ [entry]) (tables ++ more)
      (lines ++ rest) := by
  constructor
  · rw [List.flatMap_append, List.flatMap_singleton, values]
    exact looping.visited.andThen visited
  · intro other membership
    rcases List.mem_append.mp membership with earlier | last
    · exact looping.printable other earlier
    · rw [List.mem_singleton.mp last]
      exact printable

section Loop

variable {labelled} {fuel h : Nat} {indent : Bytes} {before state : PrintState}
  {done : List Entry} {entry : Entry} {tables : List Nat} {lines : List Printed}

/-- One iteration: the entry is printed and its table visited, or it cannot be
printed, or something in reach of it cannot. -/
theorem printEntry_meets (closed : heap.Closed)
    (inner : ∀ h indent state, h < heap.size → labelled.Once state →
      ((subPrintTable rendering heap fuel (.table h) indent).run state).Meets
        (labelled.visitPost fuel h state))
    (membership : entry ∈ (heap.table h).entries) (once : labelled.Once before)
    (looping : labelled.Looping h indent before state done tables lines) :
    ((printEntry rendering (subPrintTable rendering heap fuel) (.table h) indent entry).run
        state).Meets
      ⟨fun _ next => ∃ tables lines,
          labelled.Looping h indent before next (done ++ [entry]) tables lines,
        fun _ after => labelled.Once after ∧ Blocked rendering heap h,
        fuel ≤ labelled.uncached before⟩ := by
  have onceNow := looping.visited.once once
  have blocked : ¬ Printable rendering (.table h) indent entry → Blocked rendering heap h :=
    fun unprintable => ⟨h, .refl, entry, membership, indent, unprintable⟩
  cases isTable : entry.2.handle with
  | none =>
      apply printEntry_plain_meets isTable
      · intro text printable
        have visited := Visited.plainLine labelled state (.field entry.1 entry.2) text
          fun t => Line.noConfusion
        refine ⟨_, _, looping.andThen visited ?_ printable⟩
        rw [isTable]
        rfl
      · exact fun unprintable _ => ⟨onceNow, blocked unprintable⟩
  | some child =>
      rw [LuaValue.handle_eq_some] at isTable
      have opened := fun text => Visited.plainLine labelled state
        (.opening indent entry.1 (.table child)) text fun t => Line.noConfusion
      apply printEntry_table_meets isTable
      · exact fun unprintable _ => ⟨onceNow, blocked unprintable⟩
      · exact fun text _ unprintable _ => ⟨(opened text).once onceNow, blocked unprintable⟩
      · intro text n isText printable
        have childInside : child < heap.size := closed.value h entry membership child isTable
        apply (inner child _ _ childInside ((opened text).once onceNow)).consequence
        · rintro _ next ⟨more, rest, visited⟩
          have closing := Visited.plainLine labelled next .closing
            (indent ++ (spaces (n + 6) ++ ascii "\x7d")) fun t => Line.noConfusion
          refine ⟨_, _, looping.andThen (((opened text).andThen visited).andThen closing) ?_
            printable⟩
          rw [isTable]
          rfl
        · rintro _ final ⟨onceFinal, e, path, other, isEntry, unprintable⟩
          have step : child ∈ heap.valueChildren h :=
            Heap.mem_valueChildren.mpr ⟨entry, membership, isTable⟩
          exact ⟨onceFinal, e, .head step path, other, isEntry, unprintable⟩
        · intro enough
          apply enough.trans
          exact labelled.uncached_mono (looping.visited.andThen (opened text)).grows

/-- The state in which the loop for `h` begins. -/
def begun (labelled : Labelled rendering heap) (h : Nat) (state : PrintState) : PrintState :=
  ⟨labelled.name h :: state.printCache, state.output, state.expanded ++ [h]⟩

theorem once_begun (fresh : labelled.name h ∉ state.printCache) (once : labelled.Once state) :
    labelled.Once (labelled.begun h state) := by
  constructor
  · apply List.Nodup.append once.nodup (List.nodup_singleton h)
    intro e old new
    rw [List.mem_singleton.mp new] at old
    exact fresh (once.cached h old)
  · intro e membership
    rcases List.mem_append.mp membership with old | new
    · exact List.mem_cons_of_mem _ (once.cached e old)
    · rw [List.mem_singleton.mp new]
      exact List.mem_cons_self

theorem loop_meets (closed : heap.Closed)
    (inner : ∀ h indent state, h < heap.size → labelled.Once state →
      ((subPrintTable rendering heap fuel (.table h) indent).run state).Meets
        (labelled.visitPost fuel h state))
    (once : labelled.Once before) :
    ((Program.forEach (printEntry rendering (subPrintTable rendering heap fuel) (.table h) indent)
      (heap.table h).entries).run before).Meets
        ⟨fun _ after => ∃ tables lines,
          labelled.Looping h indent before after (heap.table h).entries tables lines,
        fun _ after => labelled.Once after ∧ Blocked rendering heap h,
        fuel ≤ labelled.uncached before⟩ := by
  apply Program.forEach_meets (motive := fun done next =>
    ∃ tables lines, labelled.Looping h indent before next done tables lines)
  · exact ⟨[], [], .refl labelled before, fun _ membership => absurd membership List.not_mem_nil⟩
  · rintro done entry rest split next ⟨tables, lines, looping⟩
    apply printEntry_meets closed inner _ once looping
    rw [split]
    simp

end Loop

theorem title_prints {h : Nat} (inside : h < heap.size) :
    printed rendering (do
      let name ← rendering.luaB_tostring (.table h)
      rendering.luaV_concat [name, .literal " \x7b"]) =
        .ok (labelled.label h ++ ascii " \x7b") := by
  rw [labelled.tostring_table h inside]
  rfl

theorem star_prints {h : Nat} (inside : h < heap.size) (indent : Bytes) :
    printed rendering (do
      let name ← rendering.luaB_tostring (.table h)
      rendering.luaV_concat [.string indent, .literal "*", name]) =
        .ok (indent ++ (ascii "*" ++ labelled.label h)) := by
  rw [labelled.tostring_table h inside]
  rfl

theorem subPrintTable_meets (closed : heap.Closed) (fuel h : Nat) (indent : Bytes)
    (state : PrintState) (inside : h < heap.size) (once : labelled.Once state) :
    ((subPrintTable rendering heap fuel (.table h) indent).run state).Meets
      (labelled.visitPost fuel h state) := by
  induction fuel generalizing h indent state with
  | zero => exact Nat.zero_le _
  | succ fuel inductionHypothesis =>
      apply Program.bind_meets.mpr
      apply (labelled.cached_meets inside).mpr
      constructor
      · intro met
        apply (print_meets_ok (labelled.star_prints inside indent)).mpr
        exact ⟨_, _, .backReference met indent⟩
      · intro fresh
        apply Program.bind_meets.mpr
        apply (labelled.cache_meets inside).mpr
        apply Program.bind_meets.mpr
        apply Program.modify_meets.mpr
        apply (loop_meets closed inductionHypothesis (once_begun fresh once)).consequence
        · rintro _ after ⟨tables, lines, looping⟩
          refine ⟨_, _, looping.visited.expand inside fresh ?_⟩
          intro entry membership
          exact ⟨indent, looping.printable entry membership⟩
        · exact fun _ _ blocked => blocked
        · intro enough
          apply Nat.succ_le_of_lt
          apply lt_of_le_of_lt enough
          exact labelled.uncached_lt inside (List.subset_cons_self _ _) List.mem_cons_self fresh

end Labelled

end PrintTable

end LuaEngine.Utils
