import LuaEngine.Utils.PrintTableLines

/-!
# The keys `printTable` can print

Every line of an entry is joined from its key.  Without metamethods only strings
and numbers can be joined, and `tostring` gives every value a name.
-/

namespace LuaEngine.Utils

open LuaEngine.Codec LuaEngine.Lua LuaEngine.System

/-- No value has a metamethod, and tables are at different addresses. -/
structure Plain (rendering : Rendering) (heap : Heap) : Prop where
  tostring : ∀ value, rendering.tostringTM value = none
  concat : ∀ first second, rendering.concatTM first second = none
  address : ∀ h < heap.size, ∀ h' < heap.size,
    rendering.lua_topointer (.table h) = rendering.lua_topointer (.table h') → h = h'

/-- A call returns, once it is given fuel enough. -/
def Returns (rendering : Rendering) (graph : TableGraph) : Prop :=
  ∃ fuel final, printTable rendering fuel graph.heap graph.object = .returned () final

namespace PrintTable

variable {rendering : Rendering} {heap : Heap}

theorem tostring_plain (plain : Plain rendering heap) (value : LuaValue) :
    rendering.luaB_tostring value = .ok (.string (rendering.defaultString value)) := by
  simp only [Rendering.luaB_tostring, plain.tostring, ite_self]

def labelledPlain (plain : Plain rendering heap) : Labelled rendering heap where
  label h := ascii "table: " ++ rendering.lua_topointer (.table h)
  tostring_table h _ := tostring_plain plain (.table h)
  injective h inside h' inside' same :=
    plain.address h inside h' inside' (List.append_cancel_left same)

theorem isText_of_printable (plain : Plain rendering heap) {e : Nat} (inside : e < heap.size)
    {entry : Entry} {indent : Bytes} (printable : Printable rendering (.table e) indent entry) :
    entry.1.IsText := by
  by_contra notText
  obtain ⟨tail, isLine⟩ := exists_tail (labelledPlain plain) inside
    fun _ => ⟨_, tostring_plain plain entry.2⟩
  have raised := @Rendering.concat_error rendering (.localvar "pos" entry.1)
    (rendering.text_eq_none notText) tail (plain.concat _ _)
  obtain ⟨text, prints⟩ := printable.line
  rw [isLine, raised] at prints
  contradiction

end PrintTable

open PrintTable

section Keys

variable {rendering : Rendering} {graph : TableGraph}

theorem namedValues_plain (plain : Plain rendering graph.heap) : NamedValues rendering graph where
  object _ := ⟨_, tostring_plain plain graph.object⟩
  value _ _ entry _ _ := ⟨_, tostring_plain plain entry.2⟩

theorem textKeys_of_returns (plain : Plain rendering graph.heap)
    (returns : Returns rendering graph) : TextKeys graph := by
  obtain ⟨fuel, final, returned⟩ := returns
  rintro e ⟨h, isTable, path⟩ entry membership
  have isInside := graph.holds h isTable
  have meets := printTable_table_meets (labelledPlain plain) graph.closed fuel isInside
  rw [← isTable, returned] at meets
  obtain ⟨tables, lines, visited⟩ := meets
  have expanded : e ∈ tables := (visited.mem_expanded graph.closed isInside e).mpr path
  obtain ⟨indent, printable⟩ := visited.printable e expanded entry membership
  exact isText_of_printable plain (visited.inside e expanded) printable

theorem returns_of_textKeys (plain : Plain rendering graph.heap) (keys : TextKeys graph) :
    Returns rendering graph := by
  obtain ⟨final, returned, -⟩ := printTable_visits (labelledPlain plain) keys
    (namedValues_plain plain) (Nat.lt_succ_self graph.heap.size)
  exact ⟨_, final, returned⟩

/-- Without metamethods a call returns exactly when every key in reach is a string or a
number. -/
theorem printTable_returns_iff (plain : Plain rendering graph.heap) :
    Returns rendering graph ↔ TextKeys graph := by
  constructor
  · exact textKeys_of_returns plain
  · exact returns_of_textKeys plain

end Keys

/-- `{k = {}}` -/
def innerHeap : Heap := ⟨[Table.empty.rawset (.string [107]) (.table 1) rfl, .empty]⟩

theorem innerHeap_closed : innerHeap.Closed := Heap.closed_of_tables (by decide)

theorem innerHeap_holds : innerHeap.Holds (.table 0) := by decide

theorem innerHeap_plain : Plain unadorned innerHeap where
  tostring _ := rfl
  concat _ _ := rfl
  address := by decide +kernel

def innerGraph : TableGraph := ⟨innerHeap, .table 0, innerHeap_closed, innerHeap_holds⟩

theorem innerGraph_textKeys : TextKeys innerGraph := textKeys_of_tables (by decide)

theorem inner_returns : Returns unadorned innerGraph :=
  (printTable_returns_iff innerHeap_plain).mpr innerGraph_textKeys

/-- `{[false] = true}` -/
def flagHeap : Heap := ⟨[Table.empty.rawset (.boolean false) (.boolean true) rfl]⟩

theorem flagHeap_closed : flagHeap.Closed := Heap.closed_of_tables (by decide)

theorem flagHeap_holds : flagHeap.Holds (.table 0) := by decide

theorem flagHeap_plain : Plain unadorned flagHeap where
  tostring _ := rfl
  concat _ _ := rfl
  address := by decide +kernel

def flagGraph : TableGraph := ⟨flagHeap, .table 0, flagHeap_closed, flagHeap_holds⟩

theorem boolean_key_raises : Plain unadorned flagGraph.heap ∧ ¬ Returns unadorned flagGraph := by
  refine ⟨flagHeap_plain, ?_⟩
  intro returns
  have keys := textKeys_of_returns flagHeap_plain returns
  rcases keys 0 ⟨0, rfl, .refl⟩ (.boolean false, .boolean true) (List.mem_singleton.mpr rfl) with
    ⟨s, isString⟩ | ⟨n, isNumber⟩
  · contradiction
  · contradiction

end LuaEngine.Utils
