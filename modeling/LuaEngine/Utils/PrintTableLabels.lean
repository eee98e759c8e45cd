import LuaEngine.Utils.PrintTableKeys

/-!
# The labels `printTable` prints

The opening line for a value that is a table should carry its name, so that a
later back reference finds it.  The line carries the name of the table around it,
and the first value that is another table shows it.
-/

namespace LuaEngine.Utils

open LuaEngine.Codec LuaEngine.Lua LuaEngine.System

/-- The line neither opens a table among the values nor refers back to one. -/
def Line.Neutral (line : Line) : Prop :=
  ∀ indent pos h, line ≠ .opening indent pos (.table h) ∧ line ≠ .backReference (.table h)

namespace PrintTable

/-- The opening line that carries the name. -/
def openingLine (rendering : Rendering) (indent : Bytes) (pos : LuaValue) (name : Bytes) :
    Except LuaValue LuaValue :=
  rendering.luaV_concat [.string indent, .literal "[", .localvar "pos" pos, .literal "] => ",
    .string name, .literal " \x7b"]

namespace Labelled

variable {rendering : Rendering} {heap : Heap} (labelled : Labelled rendering heap)

/-- The line opens the table under its own name. -/
def Opens (h : Nat) (printed : Printed) : Prop :=
  (printed.line = .outermost (.table h) ∧ printed.text = labelled.label h ++ ascii " \x7b") ∨
    ∃ indent pos, printed.line = .opening indent pos (.table h) ∧
      PrintTable.printed rendering (openingLine rendering indent pos (labelled.label h)) =
        .ok printed.text

/-- A line is right if it opens a table under its own name, or refers back to a line
before it that does. -/
def RightAfter (earlier : List Printed) (printed : Printed) : Prop :=
  (∀ indent pos h, printed.line = .opening indent pos (.table h) → labelled.Opens h printed) ∧
    ∀ h, printed.line = .backReference (.table h) →
      (∃ indent, printed.text = indent ++ ascii "*" ++ labelled.label h) ∧
        ∃ opened ∈ earlier, labelled.Opens h opened

def RightLines (lines : List Printed) : Prop :=
  ∀ earlier printed later, lines = earlier ++ printed :: later →
    labelled.RightAfter earlier printed

end Labelled

end PrintTable

open PrintTable

/-- However far a call gets, every label it has printed is that of the right table. -/
def PrintsRightLabels {rendering : Rendering} {graph : TableGraph}
    (labelled : Labelled rendering graph.heap) : Prop :=
  ∀ fuel final, (printTable rendering fuel graph.heap graph.object).final = some final →
    labelled.RightLines final.output

namespace PrintTable

variable {rendering : Rendering} {heap : Heap}

/-- The first element of a list with a property that some element has. -/
theorem exists_first {α : Type} (property : α → Prop) {element : α} (holds : property element)
    (before after : List α) :
    ∃ front first back, before ++ element :: after = front ++ first :: back ∧ property first ∧
      ∀ other ∈ front, other ∈ before ∧ ¬ property other := by
  induction before with
  | nil =>
      refine ⟨[], element, after, rfl, holds, ?_⟩
      exact fun _ membership => absurd membership List.not_mem_nil
  | cons head before inductionHypothesis =>
      by_cases earlier : property head
      · refine ⟨[], head, before ++ element :: after, rfl, earlier, ?_⟩
        exact fun _ membership => absurd membership List.not_mem_nil
      · obtain ⟨front, first, back, split, holdsFirst, others⟩ := inductionHypothesis
        refine ⟨head :: front, first, back, congrArg (List.cons head) split, holdsFirst, ?_⟩
        intro other membership
        rcases List.mem_cons.mp membership with rfl | later
        · exact ⟨List.mem_cons_self, earlier⟩
        · exact ⟨List.mem_cons_of_mem _ (others other later).1, (others other later).2⟩

namespace Labelled

variable {labelled : Labelled rendering heap}

theorem RightLines.nil (labelled : Labelled rendering heap) : labelled.RightLines [] := by
  intro earlier printed later split
  simp at split

theorem RightLines.append {lines : List Printed} {printed : Printed}
    (right : labelled.RightLines lines) (next : labelled.RightAfter lines printed) :
    labelled.RightLines (lines ++ [printed]) := by
  intro earlier other later split
  rcases List.eq_nil_or_concat' later with rfl | ⟨rest, last, rfl⟩
  · obtain ⟨same, isLast⟩ := List.append_inj' split rfl
    rw [← same, ← List.singleton_inj.mp isLast]
    exact next
  · rw [← List.cons_append, ← List.append_assoc] at split
    exact right earlier other rest (List.append_inj' split rfl).1

theorem rightAfter_neutral {earlier : List Printed} {printed : Printed}
    (neutral : printed.line.Neutral) : labelled.RightAfter earlier printed := by
  constructor
  · exact fun indent pos h isOpening => absurd isOpening (neutral indent pos h).1
  · exact fun h isReference => absurd isReference (neutral [] .nil h).2

theorem RightLines.neutral {lines : List Printed} {line : Line} (text : Bytes)
    (right : labelled.RightLines lines) (neutral : line.Neutral) :
    labelled.RightLines (lines ++ [⟨line, text⟩]) :=
  right.append (rightAfter_neutral neutral)

theorem entryLine_table {h v : Nat} (inside : h < heap.size) (indent : Bytes) (pos : LuaValue) :
    entryLine rendering (.table h) indent pos (.table v) =
      openingLine rendering indent pos (labelled.label h) := by
  rw [entryLine, labelled.tostring_table h inside]
  rfl

/-! ## The loop over a table that holds no other table -/

/-- The walk has opened no table but `h`, and every label is right. -/
structure Alone (labelled : Labelled rendering heap) (h : Nat) (state : PrintState) : Prop where
  cache : state.printCache = [labelled.name h]
  right : labelled.RightLines state.output
  opened : ∃ opened ∈ state.output, labelled.Opens h opened

theorem Alone.neutral {h : Nat} {state : PrintState} {line : Line} (text : Bytes)
    (alone : labelled.Alone h state) (neutral : line.Neutral) :
    labelled.Alone h { state with output := state.output ++ [⟨line, text⟩] } := by
  obtain ⟨opened, membership, opens⟩ := alone.opened
  exact ⟨alone.cache, alone.right.neutral text neutral, opened,
    List.mem_append_left _ membership, opens⟩

theorem Alone.opening {h : Nat} {state : PrintState} {indent text : Bytes} {pos : LuaValue}
    (alone : labelled.Alone h state)
    (isText : printed rendering (openingLine rendering indent pos (labelled.label h)) =
      .ok text) :
    labelled.Alone h
      { state with output := state.output ++ [⟨.opening indent pos (.table h), text⟩] } := by
  have opens : labelled.Opens h ⟨.opening indent pos (.table h), text⟩ :=
    .inr ⟨indent, pos, rfl, isText⟩
  refine ⟨alone.cache, ?_, _, List.mem_append_right _ (List.mem_singleton.mpr rfl), opens⟩
  apply alone.right.append
  refine ⟨?_, fun _ isReference => Line.noConfusion isReference⟩
  intro _ _ v isOpening
  rw [Line.opening.injEq, LuaValue.table.injEq] at isOpening
  rw [← isOpening.2.2]
  exact opens

theorem Alone.backReference {h : Nat} {state : PrintState} (indent : Bytes)
    (alone : labelled.Alone h state) :
    labelled.Alone h
      { state with
        output := state.output ++
          [⟨.backReference (.table h), indent ++ (ascii "*" ++ labelled.label h)⟩] } := by
  obtain ⟨opened, membership, opens⟩ := alone.opened
  refine ⟨alone.cache, ?_, opened, List.mem_append_left _ membership, opens⟩
  apply alone.right.append
  refine ⟨fun _ _ _ isOpening => Line.noConfusion isOpening, ?_⟩
  intro v isReference
  rw [Line.backReference.injEq, LuaValue.table.injEq] at isReference
  rw [← isReference]
  exact ⟨⟨indent, (List.append_assoc _ _ _).symm⟩, opened, membership, opens⟩

/-- A value that is the table itself: its opening line, a back reference, and the end. -/
theorem self_entry_meets {fuel h : Nat} {indent : Bytes} {entry : Entry} {state : PrintState}
    (inside : h < heap.size) (isSelf : entry.2 = .table h) (alone : labelled.Alone h state) :
    ((printEntry rendering (subPrintTable rendering heap fuel) (.table h) indent entry).run
        state).Meets
      ⟨fun _ next => labelled.Alone h next ∧ Printable rendering (.table h) indent entry,
        fun _ final => labelled.RightLines final.output ∧
          ¬ Printable rendering (.table h) indent entry, True⟩ := by
  have opened {text : Bytes} (isText : printed rendering
      (entryLine rendering (.table h) indent entry.1 (.table h)) = .ok text) := by
    rw [labelled.entryLine_table inside] at isText
    exact alone.opening isText
  apply printEntry_table_meets isSelf
  · exact fun unprintable _ => ⟨alone.right, unprintable⟩
  · exact fun text isText unprintable _ => ⟨(opened isText).right, unprintable⟩
  · intro text n isText printable
    cases fuel with
    | zero => trivial
    | succ fuel =>
        have met : labelled.name h ∈ state.printCache := by
          rw [alone.cache]
          exact List.mem_singleton.mpr rfl
        apply Program.bind_meets.mpr
        apply (labelled.cached_meets inside).mpr
        refine ⟨fun _ => ?_, fun fresh => absurd met fresh⟩
        apply (print_meets_ok (labelled.star_prints inside _)).mpr
        have referred := (opened isText).backReference (indent ++ spaces (n + 8))
        exact ⟨referred.neutral _ fun _ _ _ => ⟨Line.noConfusion, Line.noConfusion⟩, printable⟩

theorem plain_entry_meets {subPrintTable : LuaValue → Bytes → PrintProgram Unit} {h : Nat}
    {indent : Bytes} {entry : Entry} {state : PrintState} (plain : entry.2.handle = none)
    (alone : labelled.Alone h state) :
    ((printEntry rendering subPrintTable (.table h) indent entry).run state).Meets
      ⟨fun _ next => labelled.Alone h next ∧ Printable rendering (.table h) indent entry,
        fun _ final => labelled.RightLines final.output ∧
          ¬ Printable rendering (.table h) indent entry, True⟩ := by
  apply printEntry_plain_meets plain
  · intro text printable
    exact ⟨alone.neutral text fun _ _ _ => ⟨Line.noConfusion, Line.noConfusion⟩, printable⟩
  · exact fun unprintable _ => ⟨alone.right, unprintable⟩

/-- An entry that opens no other table. -/
theorem own_entry_meets {fuel h : Nat} {indent : Bytes} {entry : Entry} {state : PrintState}
    (inside : h < heap.size) (own : ∀ v, entry.2 = .table v → v = h)
    (alone : labelled.Alone h state) :
    ((printEntry rendering (subPrintTable rendering heap fuel) (.table h) indent entry).run
        state).Meets
      ⟨fun _ next => labelled.Alone h next ∧ Printable rendering (.table h) indent entry,
        fun _ final => labelled.RightLines final.output ∧
          ¬ Printable rendering (.table h) indent entry, True⟩ := by
  cases isTable : entry.2.handle with
  | none => exact plain_entry_meets isTable alone
  | some v =>
      rw [LuaValue.handle_eq_some] at isTable
      rw [own v isTable] at isTable
      exact self_entry_meets inside isTable alone

end Labelled

/-- No other table among the values of `h`, unless the loop stops before it. -/
def OpensOnlyItself (rendering : Rendering) (heap : Heap) (h : Nat) : Prop :=
  ∀ before entry after, (heap.table h).entries = before ++ entry :: after →
    ∀ v, entry.2 = .table v → v ≠ h →
      ∃ earlier ∈ before, ¬ Printable rendering (.table h) (spaces 2) earlier

namespace Labelled

variable {labelled : Labelled rendering heap}

theorem loop_right {fuel h : Nat} {state : PrintState} (inside : h < heap.size)
    (only : OpensOnlyItself rendering heap h) (alone : labelled.Alone h state) :
    ((Program.forEach (printEntry rendering (subPrintTable rendering heap fuel) (.table h)
      (spaces 2)) (heap.table h).entries).run state).Meets
        ⟨fun _ final => labelled.Alone h final ∧
            ∀ entry ∈ (heap.table h).entries, Printable rendering (.table h) (spaces 2) entry,
          fun _ final => labelled.RightLines final.output, True⟩ := by
  apply Program.forEach_meets (motive := fun done next => labelled.Alone h next ∧
    ∀ entry ∈ done, Printable rendering (.table h) (spaces 2) entry)
  · exact ⟨alone, fun _ membership => absurd membership List.not_mem_nil⟩
  · rintro done entry rest split next ⟨aloneNext, printable⟩
    have own : ∀ v, entry.2 = .table v → v = h := by
      intro v isTable
      by_contra foreign
      obtain ⟨earlier, membership, unprintable⟩ := only done entry rest split v isTable foreign
      exact unprintable (printable earlier membership)
    apply (own_entry_meets inside own aloneNext).consequence
    · rintro _ final ⟨aloneFinal, printableEntry⟩
      refine ⟨aloneFinal, ?_⟩
      intro other membership
      rcases List.mem_append.mp membership with earlier | last
      · exact printable other earlier
      · rw [List.mem_singleton.mp last]
        exact printableEntry
    · exact fun _ _ both => both.1
    · exact id

/-- A call for a table comes to its loop with the first line printed. -/
theorem printTable_begins {h : Nat} {post : Postcondition PrintState LuaValue Unit}
    (inside : h < heap.size) (unfinished : post.unfinished)
    (loop : ∀ fuel state, labelled.Alone h state →
      ((Program.forEach (printEntry rendering (subPrintTable rendering heap fuel) (.table h)
        (spaces 2)) (heap.table h).entries).run state).Meets
          ⟨fun _ next => ((print rendering .ending (.ok (.literal "\x7d")) >>= fun _ =>
            print rendering .blank (.ok (.string []))).run next).Meets post, post.raised,
          post.unfinished⟩) (fuel : Nat) :
    (printTable rendering fuel heap (.table h)).Meets post := by
  simp only [printTable, Program.bind_meets]
  apply (print_meets_ok (labelled.title_prints inside)).mpr
  cases fuel with
  | zero => exact unfinished
  | succ fuel =>
      apply Program.bind_meets.mpr
      apply (labelled.cached_meets inside).mpr
      refine ⟨fun met => absurd met List.not_mem_nil, fun _ => ?_⟩
      apply Program.bind_meets.mpr
      apply (labelled.cache_meets inside).mpr
      apply Program.bind_meets.mpr
      apply Program.modify_meets.mpr
      have alone : labelled.Alone h
          ⟨[labelled.name h], [⟨.outermost (.table h), labelled.label h ++ ascii " \x7b"⟩],
            [h]⟩ := by
        refine ⟨rfl, ?_, _, List.mem_singleton.mpr rfl, .inl ⟨rfl, rfl⟩⟩
        apply (RightLines.nil labelled).neutral
        exact fun _ _ _ => ⟨Line.noConfusion, Line.noConfusion⟩
      apply (loop fuel _ alone).weaken
      intro _ next ends
      dsimp only at ends ⊢
      rw [Program.bind_meets] at ends
      exact ends

theorem printTable_right {h : Nat} (inside : h < heap.size)
    (only : OpensOnlyItself rendering heap h) (fuel : Nat) :
    (printTable rendering fuel heap (.table h)).Meets
      ⟨fun _ final => labelled.RightLines final.output,
        fun _ final => labelled.RightLines final.output, True⟩ := by
  apply printTable_begins inside trivial
  intro fuel state alone
  apply (loop_right inside only alone).weaken
  rintro _ next ⟨aloneNext, -⟩
  rw [Program.bind_meets, LuaValue.literal, print_string_meets]
  dsimp only
  rw [print_string_meets]
  apply RightLines.neutral
  · apply aloneNext.right.neutral
    exact fun _ _ _ => ⟨Line.noConfusion, Line.noConfusion⟩
  · exact fun _ _ _ => ⟨Line.noConfusion, Line.noConfusion⟩

/-! ## A wrong label stays -/

theorem RightLines.of_append {lines more : List Printed}
    (right : labelled.RightLines (lines ++ more)) : labelled.RightLines lines := by
  intro earlier printed later split
  apply right earlier printed (later ++ more)
  rw [split, List.append_assoc, List.cons_append]

/-- The labels printed so far are not all right. -/
def Mislabelled (labelled : Labelled rendering heap) (state : PrintState) : Prop :=
  ¬ labelled.RightLines state.output

theorem print_keeps (line : Line) (argument : Except LuaValue LuaValue) :
    (print rendering line argument).Keeps labelled.Mislabelled := by
  apply (Program.keeps_lift argument).bind
  intro value
  apply (Program.keeps_lift _).bind
  intro text state wrong
  exact fun right => wrong right.of_append

theorem cached_keeps (t : LuaValue) : (cached rendering t).Keeps labelled.Mislabelled := by
  apply (Program.keeps_lift _).bind
  intro name
  apply Program.keeps_get.bind
  exact fun _ => Program.keeps_pure _

theorem cache_keeps (t : LuaValue) : (cache rendering t).Keeps labelled.Mislabelled := by
  apply (Program.keeps_lift _).bind
  intro name
  split
  next => exact fun _ wrong => wrong
  next =>
    split
    next => exact Program.keeps_raise _
    next => exact Program.keeps_raise _

/-- What follows the opening line of an entry. -/
theorem opened_keeps {subPrintTable : LuaValue → Bytes → PrintProgram Unit}
    (inner : ∀ t indent, (subPrintTable t indent).Keeps labelled.Mislabelled) (indent : Bytes)
    (entry : Entry) :
    (Program.Keeps labelled.Mislabelled do
      let len ← Program.lift (rendering.str_len entry.1)
      subPrintTable entry.2 (indent ++ spaces (len + 8))
      let len ← Program.lift (rendering.str_len entry.1)
      print rendering .closing
        (rendering.luaV_concat
          [.string indent, .string (spaces (len + 6)), .literal "\x7d"])) := by
  apply (Program.keeps_lift _).bind
  intro len
  apply (inner _ _).bind
  intro _
  apply (Program.keeps_lift _).bind
  exact fun _ => print_keeps _ _

theorem printEntry_keeps {subPrintTable : LuaValue → Bytes → PrintProgram Unit}
    (inner : ∀ t indent, (subPrintTable t indent).Keeps labelled.Mislabelled) (t : LuaValue)
    (indent : Bytes) (entry : Entry) :
    (printEntry rendering subPrintTable t indent entry).Keeps labelled.Mislabelled := by
  cases isTable : entry.2.handle with
  | none =>
      rw [printEntry_plain isTable]
      exact print_keeps _ _
  | some v =>
      rw [printEntry_table (LuaValue.handle_eq_some.mp isTable)]
      apply (print_keeps _ _).bind
      exact fun _ => opened_keeps inner indent entry

theorem subPrintTable_keeps (fuel : Nat) (t : LuaValue) (indent : Bytes) :
    (subPrintTable rendering heap fuel t indent).Keeps labelled.Mislabelled := by
  induction fuel generalizing t indent with
  | zero => exact Program.keeps_unfinished
  | succ fuel inductionHypothesis =>
      apply (cached_keeps t).bind
      intro met
      split
      next => exact print_keeps _ _
      next =>
        apply (cache_keeps t).bind
        intro _
        cases t with
        | table h =>
            apply Program.Keeps.bind (fun _ wrong => wrong)
            intro _
            apply Program.Keeps.forEach
            exact printEntry_keeps inductionHypothesis _ _
        | _ => exact print_keeps _ _

theorem ending_keeps :
    (print rendering .ending (.ok (.literal "\x7d")) >>= fun _ =>
      print rendering .blank (.ok (.string []))).Keeps labelled.Mislabelled :=
  (print_keeps _ _).bind fun _ => print_keeps _ _

/-! ## A value that is another table -/

theorem openingLine_eq {pos : LuaValue} {key : Bytes} (isKey : rendering.text pos = some key)
    (indent name : Bytes) :
    openingLine rendering indent pos name = .ok (.string
      (indent ++ (ascii "[" ++ (key ++ (ascii "] => " ++ (name ++ ascii " \x7b")))))) := by
  have tail : rendering.luaV_concat [.literal "] => ", .string name, .literal " \x7b"] =
      .ok (.string (ascii "] => " ++ (name ++ ascii " \x7b"))) := rfl
  have joined : rendering.luaV_concat
      [.localvar "pos" pos, .literal "] => ", .string name, .literal " \x7b"] =
      .ok (.string (key ++ (ascii "] => " ++ (name ++ ascii " \x7b")))) := by
    rw [Rendering.luaV_concat, tail]
    exact rendering.concat_text isKey rfl
  rw [openingLine, Rendering.luaV_concat, Rendering.luaV_concat, joined]
  rfl

theorem openingLine_injective {pos : LuaValue} (isText : pos.IsText)
    {indent first second text : Bytes}
    (prints : printed rendering (openingLine rendering indent pos first) = .ok text)
    (again : printed rendering (openingLine rendering indent pos second) = .ok text) :
    first = second := by
  obtain ⟨key, isKey⟩ := rendering.exists_text isText
  rw [openingLine_eq isKey] at prints again
  have same : indent ++ (ascii "[" ++ (key ++ (ascii "] => " ++ (first ++ ascii " \x7b")))) =
      indent ++ (ascii "[" ++ (key ++ (ascii "] => " ++ (second ++ ascii " \x7b")))) :=
    Except.ok.inj (prints.trans again.symm)
  simpa using same

theorem wrong_opening {h v : Nat} {indent text : Bytes} {pos : LuaValue} (inside : h < heap.size)
    (insideOther : v < heap.size) (foreign : v ≠ h) (isText : pos.IsText)
    (prints : printed rendering (openingLine rendering indent pos (labelled.label h)) = .ok text)
    (lines : List Printed) :
    ¬ labelled.RightLines (lines ++ [⟨.opening indent pos (.table v), text⟩]) := by
  intro right
  rcases (right lines _ [] rfl).1 indent pos v rfl with ⟨outer, -⟩ | ⟨_, _, isOpening, again⟩
  · exact Line.noConfusion outer
  · rw [Line.opening.injEq] at isOpening
    obtain ⟨rfl, rfl, -⟩ := isOpening
    exact foreign (labelled.injective v insideOther h inside
      (openingLine_injective isText again prints))

theorem foreign_entry_meets (labelled : Labelled rendering heap) {fuel h v : Nat}
    {indent : Bytes} {entry : Entry} {state : PrintState} (inside : h < heap.size)
    (insideOther : v < heap.size)
    (isTable : entry.2 = .table v) (foreign : v ≠ h) (isText : entry.1.IsText) :
    ((printEntry rendering (subPrintTable rendering heap fuel) (.table h) indent entry).run
        state).Meets
      ⟨fun _ final => labelled.Mislabelled final, fun _ final => labelled.Mislabelled final,
        True⟩ := by
  obtain ⟨key, isKey⟩ := rendering.exists_text isText
  have isLine := openingLine_eq isKey indent (labelled.label h)
  have prints : printed rendering (entryLine rendering (.table h) indent entry.1 entry.2) = .ok
      (indent ++
        (ascii "[" ++ (key ++ (ascii "] => " ++ (labelled.label h ++ ascii " \x7b"))))) := by
    rw [isTable, labelled.entryLine_table inside, isLine]
    rfl
  rw [printEntry_table isTable, Program.bind_meets]
  apply (print_meets_ok prints).mpr
  apply opened_keeps (subPrintTable_keeps fuel)
  rw [isTable]
  apply wrong_opening inside insideOther foreign isText
  rw [isLine]
  rfl

/-- A table that holds another one gives it a wrong label. -/
theorem printTable_mislabels (closed : heap.Closed) {h : Nat} (inside : h < heap.size)
    (keys : ∀ entry ∈ (heap.table h).entries, entry.1.IsText)
    (several : ¬ OpensOnlyItself rendering heap h) (fuel : Nat) :
    (printTable rendering fuel heap (.table h)).Meets
      ⟨fun _ final => labelled.Mislabelled final, fun _ final => labelled.Mislabelled final,
        True⟩ := by
  simp only [OpensOnlyItself, not_forall] at several
  obtain ⟨before, entry, after, split, v, isTable, foreign, reached⟩ := several
  obtain ⟨front, first, back, isFirst, ⟨w, firstTable, firstForeign⟩, own⟩ :=
    exists_first (fun entry : Entry => ∃ v, entry.2 = .table v ∧ v ≠ h) ⟨v, isTable, foreign⟩
      before after
  rw [isFirst] at split
  have membership : first ∈ (heap.table h).entries := by
    rw [split]
    exact List.mem_append_right _ List.mem_cons_self
  have insideFirst : w < heap.size := closed.value h first membership w firstTable
  apply printTable_begins inside trivial
  intro fuel state alone
  rw [split]
  apply (Program.forEach_append _ _ _).mpr
  have comes : ((Program.forEach (printEntry rendering (subPrintTable rendering heap fuel)
      (.table h) (spaces 2)) front).run state).Meets
        ⟨fun _ next => labelled.Alone h next, fun _ _ => False, True⟩ := by
    apply Program.forEach_meets (motive := fun _ next => labelled.Alone h next) alone
    intro done other rest isSplit next aloneNext
    have isEarlier : other ∈ front := by
      rw [isSplit]
      exact List.mem_append_right _ List.mem_cons_self
    apply (own_entry_meets inside _ aloneNext).consequence
    · exact fun _ _ both => both.1
    · rintro _ _ ⟨-, unprintable⟩
      exact reached ⟨other, (own other isEarlier).1, unprintable⟩
    · exact id
    · intro v otherTable
      by_contra otherForeign
      exact (own other isEarlier).2 ⟨v, otherTable, otherForeign⟩
  apply comes.consequence
  · intro _ next _
    apply Program.bind_meets.mpr
    apply (labelled.foreign_entry_meets inside insideFirst firstTable firstForeign
      (keys first membership)).weaken
    intro _ middle wrong
    have rest : (Program.forEach (printEntry rendering (subPrintTable rendering heap fuel)
        (.table h) (spaces 2)) back).Keeps labelled.Mislabelled :=
      .forEach (printEntry_keeps (subPrintTable_keeps fuel) _ _) back
    apply (rest middle wrong).weaken
    intro _ last wrong
    exact ending_keeps last wrong
  · exact fun _ _ impossible => impossible.elim
  · exact id

end Labelled

end PrintTable

section Right

variable {rendering : Rendering} {graph : TableGraph}

theorem opensOnlyItself_of_right {labelled : Labelled rendering graph.heap}
    (keys : TextKeys graph) (right : PrintsRightLabels labelled) {h : Nat}
    (isTable : graph.object = .table h) : OpensOnlyItself rendering graph.heap h := by
  by_contra several
  have inside : h < graph.heap.size := graph.holds h isTable
  have mislabels := labelled.printTable_mislabels graph.closed inside
    (keys h ⟨h, isTable, .refl⟩) several (graph.heap.size + 1)
  have finishes := printTable_finishes labelled (Nat.lt_succ_self graph.heap.size)
  rw [← isTable] at mislabels
  cases ended : (printTable rendering (graph.heap.size + 1) graph.heap graph.object).final with
  | none => exact finishes (Outcome.final_eq_none.mp ended)
  | some final => exact mislabels.of_final ended (right _ final ended)

theorem right_of_opensOnlyItself (labelled : Labelled rendering graph.heap)
    (only : ∀ h, graph.object = .table h → OpensOnlyItself rendering graph.heap h) :
    PrintsRightLabels labelled := by
  intro fuel final ended
  cases isTable : graph.object.handle with
  | none =>
      cases fuel with
      | zero =>
          rw [printTable_plain isTable] at ended
          contradiction
      | succ fuel =>
          have shallow : (printTable rendering (fuel + 1) graph.heap graph.object).Meets
              ⟨fun _ final => Shallow graph.object final,
                fun _ final => Shallow graph.object final, False⟩ :=
            (printTable_plain_meets rendering graph.heap fuel isTable).consequence
              (fun _ _ shallow => shallow) (fun _ _ both => both.1) id
          have lines := (shallow.of_final ended).lines
          intro earlier printed later split
          have membership : printed ∈ final.output := by
            rw [split]
            exact List.mem_append_right _ List.mem_cons_self
          apply Labelled.rightAfter_neutral
          rcases lines printed membership with line | line
          · rw [line]
            exact fun _ _ _ => ⟨Line.noConfusion, Line.noConfusion⟩
          · rw [line]
            exact fun _ _ _ => ⟨Line.noConfusion, Line.noConfusion⟩
  | some h =>
      rw [LuaValue.handle_eq_some] at isTable
      have right := labelled.printTable_right (graph.holds h isTable) (only h isTable) fuel
      rw [← isTable] at right
      exact right.of_final ended

/-- The labels are right exactly when no table is opened but the object itself. -/
theorem printsRightLabels_iff (labelled : Labelled rendering graph.heap)
    (keys : TextKeys graph) :
    PrintsRightLabels labelled ↔
      ∀ h, graph.object = .table h → OpensOnlyItself rendering graph.heap h := by
  constructor
  · intro right h isTable
    exact opensOnlyItself_of_right keys right isTable
  · exact right_of_opensOnlyItself labelled

end Right

/-- `t.s = t` -/
def ownHeap : Heap := ⟨[Table.empty.rawset (.string [115]) (.table 0) rfl]⟩

theorem ownHeap_closed : ownHeap.Closed := Heap.closed_of_tables (by decide)

theorem ownHeap_holds : ownHeap.Holds (.table 0) := by decide

theorem ownHeap_plain : Plain unadorned ownHeap where
  tostring _ := rfl
  concat _ _ := rfl
  address := by decide +kernel

def ownGraph : TableGraph := ⟨ownHeap, .table 0, ownHeap_closed, ownHeap_holds⟩

theorem ownGraph_textKeys : TextKeys ownGraph := textKeys_of_tables (by decide)

theorem ownHeap_value {entry : Entry} (membership : entry ∈ (ownHeap.table 0).entries) {v : Nat}
    (isTable : entry.2 = .table v) : v = 0 := by
  rw [List.mem_singleton.mp membership] at isTable
  exact (LuaValue.table.inj isTable).symm

def ownLabelled : Labelled unadorned ownGraph.heap := labelledPlain ownHeap_plain

theorem own_printsRightLabels : PrintsRightLabels ownLabelled := by
  apply (printsRightLabels_iff ownLabelled ownGraph_textKeys).mpr
  intro h isObject before entry after split v isTable foreign
  obtain rfl : 0 = h := LuaValue.table.inj isObject
  have membership : entry ∈ (ownHeap.table 0).entries := by
    rw [show (ownHeap.table 0).entries = _ from split]
    exact List.mem_append_right _ List.mem_cons_self
  exact absurd (ownHeap_value membership isTable) foreign

def innerLabelled : Labelled unadorned innerGraph.heap := labelledPlain innerHeap_plain

theorem inner_table_mislabelled : TextKeys innerGraph ∧ ¬ PrintsRightLabels innerLabelled := by
  refine ⟨innerGraph_textKeys, ?_⟩
  intro right
  obtain ⟨earlier, membership, -⟩ :=
    opensOnlyItself_of_right innerGraph_textKeys right rfl [] (.string [107], .table 1) [] rfl 1 rfl
      (by decide)
  exact List.not_mem_nil membership

end LuaEngine.Utils
