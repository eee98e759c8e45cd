import LuaEngine.Lua.Base
import LuaEngine.Lua.Pattern
import LuaEngine.Lua.Text
import LuaEngine.System.Outcome

/-!
# `Utils.metainfo`

The classes from the root of an inheritance chain down, and the members of each.
A name is taken for that of a metamethod if the pattern `__..` is found in it,
wherever that is.
-/

namespace LuaEngine.Utils

open LuaEngine.Codec LuaEngine.Lua LuaEngine.System

/-- What a line is printed for. -/
inductive Subject where
  | heading (metatable : LuaValue)
  | member (metatable : LuaValue) (entry : Entry)
  | noInformation
  deriving DecidableEq

structure InfoLine where
  subject : Subject
  text : Bytes
  deriving DecidableEq

abbrev InfoProgram := Program (List InfoLine) LuaValue

namespace Metainfo

def memberPattern : Pattern := "__..".toList

section Code

variable (rendering : Rendering)

/-- `print(argument)` -/
def print (subject : Subject) (argument : Except LuaValue LuaValue) : InfoProgram Unit := do
  let value ← Program.lift argument
  let text ← Program.lift (rendering.luaB_print value)
  Program.modify fun output => output ++ [⟨subject, text⟩]

/-- `string.find(key, "__..")`, which is nil or a number. -/
def found (key : LuaValue) : Except LuaValue Bool :=
  match rendering.text key with
  | some s => do
      let results ← str_find s memberPattern
      .ok (results.headD .nil ≠ .nil)
  | none => .error
      (.literal ("bad argument #1 to 'find' (string expected, got " ++ key.typename ++ ")"))

/-- One iteration of the loop. -/
def printMember (metatable name : LuaValue) (entry : Entry) : InfoProgram Unit := do
  if ← Program.lift (found rendering entry.1) then
    pure ()
  else if entry.2.typename = "function" then
    print rendering (.member metatable entry)
      (rendering.luaV_concat [.literal "\t[f] ", .localvar "name" name, .literal ":",
        .localvar "key" entry.1, .literal "()"])
  else if entry.2.typename = "userdata" then
    print rendering (.member metatable entry)
      (rendering.luaV_concat [.literal "\t[v] ", .localvar "name" name, .literal ":",
        .localvar "key" entry.1])
  else
    pure ()

/-- What `pairs` goes through. -/
def pairs (heap : Heap) : LuaValue → Except LuaValue (List Entry)
  | .table h => .ok (heap.table h).entries
  | value => .error
      (.literal ("bad argument #1 to 'pairs' (table expected, got " ++ value.typename ++ ")"))

end Code

end Metainfo

open Metainfo

/-- The fuel bounds how deep the calls nest. -/
def metainfo (rendering : Rendering) (tms : Heap.IndexTM) (heap : Heap) :
    Nat → LuaValue → InfoProgram Unit
  | 0, _ => Program.unfinished
  | fuel + 1, metatable => do
      if metatable = .nil then
        pure ()
      else
        let name ← Program.lift (heap.luaV_gettable tms (.localvar "meta" metatable)
          (.literal "__name"))
        if name = .nil then
          pure ()
        else
          let parent ← Program.lift (heap.luaV_gettable tms (.localvar "meta" metatable)
            (.literal "__parent"))
          metainfo rendering tms heap fuel parent
          print rendering (.heading metatable)
            (rendering.luaV_concat [.literal "<", .localvar "name" name, .literal ">"])
          let entries ← Program.lift (pairs heap metatable)
          Program.forEach (printMember rendering metatable name) entries

/-- `getmetatable` is given for every value. -/
def objinfo (rendering : Rendering) (tms : Heap.IndexTM) (heap : Heap)
    (getmetatable : LuaValue → LuaValue) (fuel : Nat) (obj : LuaValue) : InfoProgram Unit :=
  let metatable := getmetatable obj
  if metatable ≠ .nil then
    metainfo rendering tms heap fuel metatable
  else
    print rendering .noInformation (.ok (.literal "no object infomation !!"))

/-- A class by its metatable and its name. -/
structure ClassInfo where
  metatable : Nat
  name : Bytes

/-- The classes from one to the root, by `__parent`; all names in them are strings. -/
inductive Chain (tms : Heap.IndexTM) (heap : Heap) : LuaValue → List ClassInfo → Prop
  | root : Chain tms heap .nil []
  | inherits {c : ClassInfo} {parent : LuaValue} {ancestors : List ClassInfo} :
      heap.luaV_gettable tms (.table c.metatable) (.literal "__name") = .ok (.string c.name) →
      heap.luaV_gettable tms (.table c.metatable) (.literal "__parent") = .ok parent →
      (∀ entry ∈ (heap.table c.metatable).entries, ∃ key, entry.1 = .string key) →
      Chain tms heap parent ancestors → Chain tms heap (.table c.metatable) (c :: ancestors)

/-- A class with all it inherits from. -/
structure ClassChain (tms : Heap.IndexTM) where
  heap : Heap
  metatable : LuaValue
  classes : List ClassInfo
  chain : Chain tms heap metatable classes

namespace Metainfo

/-! ## Members and lines -/

def keyText : LuaValue → Bytes
  | .string s => s
  | _ => []

/-- A function or userdata. -/
def isMember (entry : Entry) : Bool :=
  entry.2.typename = "function" || entry.2.typename = "userdata"

/-- A member whose name does not begin with two underscores. -/
def listed (entry : Entry) : Bool := isMember entry && !([95, 95].isPrefixOf (keyText entry.1))

/-- A member the pattern lets through. -/
def shown (entry : Entry) : Bool := isMember entry && !(memberPattern.occurs (keyText entry.1))

def headingLine (c : ClassInfo) : InfoLine :=
  ⟨.heading (.table c.metatable), ascii "<" ++ (c.name ++ ascii ">")⟩

def memberLine (c : ClassInfo) (entry : Entry) : InfoLine :=
  ⟨.member (.table c.metatable) entry,
    if entry.2.typename = "function" then
      ascii "\t[f] " ++ (c.name ++ (ascii ":" ++ (keyText entry.1 ++ ascii "()")))
    else
      ascii "\t[v] " ++ (c.name ++ (ascii ":" ++ keyText entry.1))⟩

/-- The lines of a class: its name, then one for each entry chosen and none for another. -/
def Describes (heap : Heap) (choose : Entry → Bool) (c : ClassInfo) (lines : List InfoLine) :
    Prop :=
  ∃ members, lines = headingLine c :: members ∧
    members.Perm (((heap.table c.metatable).entries.filter choose).map (memberLine c))

end Metainfo

/-- The call ends, and prints each class once, after those it inherits from. -/
def ListsMembers (rendering : Rendering) {tms : Heap.IndexTM} (chain : ClassChain tms) : Prop :=
  (chain.classes.map ClassInfo.metatable).Nodup ∧
    ∃ bound, ∀ fuel, bound ≤ fuel → ∃ output,
      (metainfo rendering tms chain.heap fuel chain.metatable).run [] = .returned () output ∧
        ∃ blocks, output = blocks.flatten ∧
          List.Forall₂ (Describes chain.heap listed) chain.classes.reverse blocks

namespace Metainfo

variable {rendering : Rendering} {tms : Heap.IndexTM} {heap : Heap}

/-! ## The chain -/

theorem chain_unique {value : LuaValue} {classes others : List ClassInfo}
    (chain : Chain tms heap value classes) (other : Chain tms heap value others) :
    classes = others := by
  induction chain generalizing others with
  | root =>
      cases other
      rfl
  | @inherits c parent ancestors named linked keyed above inductionHypothesis =>
      generalize isTable : LuaValue.table c.metatable = value at other
      cases other with
      | root => contradiction
      | @inherits d otherParent otherAncestors otherNamed otherLinked _ otherAbove =>
          have same : c.metatable = d.metatable := LuaValue.table.inj isTable
          rw [← same] at otherNamed otherLinked
          have sameName : c.name = d.name :=
            LuaValue.string.inj (Except.ok.inj (named.symm.trans otherNamed))
          have sameParent : parent = otherParent := Except.ok.inj (linked.symm.trans otherLinked)
          rw [← sameParent] at otherAbove
          obtain ⟨_, _⟩ := c
          obtain ⟨_, _⟩ := d
          obtain rfl := same
          obtain rfl := sameName
          rw [inductionHypothesis otherAbove]

/-- From each class of a chain on there is one that is no longer. -/
theorem chain_from {value : LuaValue} {classes : List ClassInfo}
    (chain : Chain tms heap value classes) {c : ClassInfo} (membership : c ∈ classes) :
    ∃ above, Chain tms heap (.table c.metatable) (c :: above) ∧
      above.length < classes.length := by
  induction chain with
  | root => contradiction
  | @inherits d parent ancestors named linked keyed above inductionHypothesis =>
      rcases List.mem_cons.mp membership with rfl | earlier
      · exact ⟨ancestors, .inherits named linked keyed above, Nat.lt_succ_self _⟩
      · obtain ⟨further, begins, shorter⟩ := inductionHypothesis earlier
        exact ⟨further, begins, shorter.trans (Nat.lt_succ_self _)⟩

/-- No class is its own ancestor. -/
theorem nodup_classes {value : LuaValue} {classes : List ClassInfo}
    (chain : Chain tms heap value classes) : (classes.map ClassInfo.metatable).Nodup := by
  induction chain with
  | root => exact List.nodup_nil
  | @inherits c parent ancestors named linked keyed above inductionHypothesis =>
      apply List.nodup_cons.mpr
      refine ⟨?_, inductionHypothesis⟩
      intro membership
      obtain ⟨d, isAncestor, same⟩ := List.mem_map.mp membership
      obtain ⟨further, begins, shorter⟩ := chain_from above isAncestor
      have whole : Chain tms heap (.table c.metatable) (c :: ancestors) :=
        .inherits named linked keyed above
      rw [same] at begins
      obtain ⟨-, rfl⟩ := List.cons.inj (chain_unique whole begins)
      exact Nat.lt_irrefl _ shorter

/-! ## What is printed -/

theorem memberPattern_eq : memberPattern = ['_', '_', '.', '.'] := rfl

theorem memberPattern_simple : memberPattern.Simple := by
  rw [memberPattern_eq, Pattern.Simple]
  simp

theorem memberPattern_special : (memberPattern.all fun c => c ∉ SPECIALS) = false := by
  rw [memberPattern_eq]
  decide

theorem found_string (key : Bytes) :
    found rendering (.string key) = .ok (memberPattern.occurs key) := by
  obtain ⟨results, isResult, isNil⟩ :=
    str_find_simple key memberPattern_simple memberPattern_special
  have searched : found rendering (.string key) = .ok (results.headD .nil ≠ .nil) := by
    simp only [found, Rendering.text, isResult]
    rfl
  rw [searched, Except.ok.injEq]
  cases occurs : memberPattern.occurs key with
  | false => exact decide_eq_false (not_not.mpr (isNil.mpr occurs))
  | true =>
      apply decide_eq_true
      intro noResult
      rw [isNil.mp noResult] at occurs
      contradiction

/-- Strings are joined to a string and that is printed. -/
theorem print_meets {subject : Subject} {argument : Except LuaValue LuaValue} {text : Bytes}
    (joined : argument = .ok (.string text)) {output : List InfoLine}
    {post : Postcondition (List InfoLine) LuaValue Unit} :
    ((print rendering subject argument).run output).Meets post ↔
      post.returned () (output ++ [⟨subject, text⟩]) := by
  rw [joined]
  rfl

theorem print_heading (c : ClassInfo) {output : List InfoLine}
    {post : Postcondition (List InfoLine) LuaValue Unit} :
    ((print rendering (.heading (.table c.metatable))
        (rendering.luaV_concat
          [.literal "<", .localvar "name" (.string c.name), .literal ">"])).run output).Meets
      post ↔ post.returned () (output ++ [headingLine c]) := by
  have joined : rendering.luaV_concat
      [.literal "<", .localvar "name" (.string c.name), .literal ">"] =
        .ok (.string (headingLine c).text) := rfl
  exact print_meets joined

theorem print_memberLine (c : ClassInfo) (entry : Entry) {argument : Except LuaValue LuaValue}
    (joined : argument = .ok (.string (memberLine c entry).text)) {output : List InfoLine}
    {post : Postcondition (List InfoLine) LuaValue Unit} :
    ((print rendering (.member (.table c.metatable) entry) argument).run output).Meets post ↔
      post.returned () (output ++ [memberLine c entry]) := print_meets joined

theorem printMember_meets (c : ClassInfo) {entry : Entry} {key : Bytes}
    (keyed : entry.1 = .string key) {output : List InfoLine}
    {post : Postcondition (List InfoLine) LuaValue Unit} :
    ((printMember rendering (.table c.metatable) (.string c.name) entry).run output).Meets post ↔
      post.returned () (output ++ ([entry].filter shown).map (memberLine c)) := by
  rw [printMember, keyed, found_string, Program.lift_ok]
  cases occurs : memberPattern.occurs key with
  | true =>
      have hidden : shown entry = false := by
        rw [shown, keyed, keyText, occurs, Bool.not_true, Bool.and_false]
      simp [hidden]
  | false =>
      have passes : shown entry = isMember entry := by
        rw [shown, keyed, keyText, occurs, Bool.not_false, Bool.and_true]
      by_cases isFunction : entry.2.typename = "function"
      · have joined : rendering.luaV_concat [.literal "\t[f] ", .localvar "name" (.string c.name),
            .literal ":", .localvar "key" (.string key), .literal "()"] =
              .ok (.string (memberLine c entry).text) := by
          rw [memberLine, if_pos isFunction, keyed]
          rfl
        have member : shown entry = true := by simp [passes, isMember, isFunction]
        simp [isFunction, member, print_memberLine c entry joined]
      · by_cases isUserdata : entry.2.typename = "userdata"
        · have joined : rendering.luaV_concat [.literal "\t[v] ", .localvar "name" (.string c.name),
              .literal ":", .localvar "key" (.string key)] =
                .ok (.string (memberLine c entry).text) := by
            rw [memberLine, if_neg isFunction, keyed]
            rfl
          have member : shown entry = true := by simp [passes, isMember, isUserdata]
          simp [isUserdata, member, print_memberLine c entry joined]
        · have other : shown entry = false := by simp [passes, isMember, isFunction, isUserdata]
          simp [isFunction, isUserdata, other]

theorem printMembers_meets (c : ClassInfo) {entries : List Entry}
    (keyed : ∀ entry ∈ entries, ∃ key, entry.1 = .string key) (output : List InfoLine) :
    ((Program.forEach (printMember rendering (.table c.metatable) (.string c.name))
        entries).run output).Meets
      ⟨fun _ final => final = output ++ (entries.filter shown).map (memberLine c),
        fun _ _ => False, False⟩ := by
  apply Program.forEach_meets (motive := fun done state =>
    state = output ++ (done.filter shown).map (memberLine c))
  · rw [List.filter_nil, List.map_nil, List.append_nil]
  · rintro done entry rest split _ rfl
    obtain ⟨key, isString⟩ := keyed entry (by simp [split])
    rw [printMember_meets c isString, List.filter_append, List.map_append, List.append_assoc]

/-- A class with the lines of the entries that are chosen. -/
def block (heap : Heap) (choose : Entry → Bool) (c : ClassInfo) : List InfoLine :=
  headingLine c :: ((heap.table c.metatable).entries.filter choose).map (memberLine c)

/-- The blocks of the classes, from the root of the chain down. -/
def blocks (heap : Heap) (choose : Entry → Bool) (classes : List ClassInfo) :
    List (List InfoLine) :=
  classes.reverse.map (block heap choose)

theorem blocks_cons (choose : Entry → Bool) (c : ClassInfo) (ancestors : List ClassInfo) :
    (blocks heap choose (c :: ancestors)).flatten =
      (blocks heap choose ancestors).flatten ++ block heap choose c := by
  simp [blocks]

/-- One call more than there are classes is enough. -/
theorem metainfo_meets (rendering : Rendering) {value : LuaValue} {classes : List ClassInfo}
    (chain : Chain tms heap value classes) {fuel : Nat} (enough : classes.length < fuel)
    (output : List InfoLine) :
    ((metainfo rendering tms heap fuel value).run output).Meets
      ⟨fun _ final => final = output ++ (blocks heap shown classes).flatten,
        fun _ _ => False, False⟩ := by
  induction chain generalizing fuel output with
  | root =>
      cases fuel with
      | zero => contradiction
      | succ fuel => simp [metainfo, blocks]
  | @inherits c parent ancestors named linked keyed above inductionHypothesis =>
      cases fuel with
      | zero => contradiction
      | succ fuel =>
          have deeper := inductionHypothesis (Nat.lt_of_succ_lt_succ enough) output
          rw [metainfo, if_neg LuaValue.noConfusion, Heap.luaV_gettable_localvar,
            Heap.luaV_gettable_localvar, named, linked]
          simp only [Program.lift_ok, Program.bind_meets, Program.pure_meets, reduceCtorEq,
            if_false, pairs]
          apply deeper.weaken
          rintro _ _ rfl
          apply (print_heading c).mpr
          apply (printMembers_meets c keyed _).weaken
          rintro _ _ rfl
          simp [blocks_cons, block]

theorem metainfo_returns (rendering : Rendering) {value : LuaValue} {classes : List ClassInfo}
    (chain : Chain tms heap value classes) {fuel : Nat} (enough : classes.length < fuel) :
    (metainfo rendering tms heap fuel value).run [] =
      .returned () (blocks heap shown classes).flatten := by
  obtain ⟨_, output, returned, isOutput⟩ :=
    (metainfo_meets rendering chain enough []).returns (fun _ _ => id) id
  rw [returned, isOutput, List.nil_append]

theorem objinfo_returns (rendering : Rendering) (getmetatable : LuaValue → LuaValue)
    {obj : LuaValue} {classes : List ClassInfo} (chain : Chain tms heap (getmetatable obj) classes)
    {fuel : Nat} (enough : classes.length < fuel) :
    (objinfo rendering tms heap getmetatable fuel obj).run [] =
      .returned () (if getmetatable obj = .nil then
        [⟨.noInformation, ascii "no object infomation !!"⟩]
      else
        (blocks heap shown classes).flatten) := by
  unfold objinfo
  by_cases none : getmetatable obj = .nil
  · rw [if_pos none, if_neg (not_not_intro none)]
    rfl
  · rw [if_neg none, if_pos none]
    exact metainfo_returns rendering chain enough

/-! ## The names the pattern tells apart -/

/-- A name that begins with two underscores has two characters more, and no other name
has two underscores with two characters after them. -/
def Told (key : Bytes) : Prop :=
  if [95, 95].isPrefixOf key then
    4 ≤ key.length
  else
    ∀ front back, key = front ++ 95 :: 95 :: back → back.length < 2

theorem isUnderscore_iff {c : UInt8} : '_'.toNat = c.toNat ↔ c = 95 := by
  rw [eq_comm]
  exact UInt8.toNat_inj (b := 95)

theorem fits_memberPattern {key : Bytes} :
    memberPattern.fits key = true ↔ ∃ back, key = 95 :: 95 :: back ∧ 2 ≤ back.length := by
  rw [memberPattern_eq]
  match key with
  | [] => simp [Pattern.fits]
  | [a] => simp [Pattern.fits]
  | [a, b] => simp [Pattern.fits]
  | [a, b, c] => simp [Pattern.fits]
  | a :: b :: c :: d :: rest => simp [Pattern.fits, isUnderscore_iff, -Char.reduceToNat]

theorem occurs_memberPattern {key : Bytes} :
    memberPattern.occurs key = true ↔
      ∃ front back, key = front ++ 95 :: 95 :: back ∧ 2 ≤ back.length := by
  rw [Pattern.occurs_iff]
  constructor
  · rintro ⟨front, _, rfl, fits⟩
    obtain ⟨back, rfl, long⟩ := fits_memberPattern.mp fits
    exact ⟨front, back, rfl, long⟩
  · rintro ⟨front, back, rfl, long⟩
    exact ⟨front, _, rfl, fits_memberPattern.mpr ⟨back, rfl, long⟩⟩

theorem told_iff {key : Bytes} :
    Told key ↔ memberPattern.occurs key = [95, 95].isPrefixOf key := by
  unfold Told
  cases begins : [95, 95].isPrefixOf key with
  | true =>
      rw [if_pos rfl, occurs_memberPattern]
      obtain ⟨rest, rfl⟩ := List.isPrefixOf_iff_prefix.mp begins
      constructor
      · intro long
        rw [List.length_append] at long
        exact ⟨[], rest, rfl, Nat.le_of_add_le_add_left long⟩
      · rintro ⟨front, back, split, long⟩
        rw [split, List.length_append, List.length_cons, List.length_cons]
        omega
  | false =>
      rw [if_neg Bool.false_ne_true, Bool.eq_false_iff, Ne, occurs_memberPattern]
      simp only [not_exists, not_and, not_le]

theorem shown_eq_listed {entry : Entry} (member : isMember entry = true) :
    shown entry = listed entry ↔ Told (keyText entry.1) := by
  rw [shown, listed, member, Bool.true_and, Bool.true_and, Bool.not_inj_iff, told_iff]

/-! ## The lines of the members -/

theorem describes_blocks (heap : Heap) (choose : Entry → Bool) (classes : List ClassInfo) :
    List.Forall₂ (Describes heap choose) classes.reverse (blocks heap choose classes) :=
  List.forall₂_map_right_iff.mpr (List.forall₂_same.mpr fun _ _ => ⟨_, rfl, .refl _⟩)

variable {choose : Entry → Bool} {c d : ClassInfo} {lines : List InfoLine} {entry : Entry}

theorem chosen_of_mem (described : Describes heap choose d lines)
    (membership : memberLine c entry ∈ lines) : choose entry = true := by
  obtain ⟨members, rfl, sameLines⟩ := described
  rcases List.mem_cons.mp membership with isHeading | isMemberLine
  · simp [memberLine, headingLine] at isHeading
  · obtain ⟨other, isChosen, sameLine⟩ := List.mem_map.mp (sameLines.mem_iff.mp isMemberLine)
    obtain ⟨-, rfl⟩ := Subject.member.inj (congrArg InfoLine.subject sameLine)
    exact (List.mem_filter.mp isChosen).2

theorem mem_of_chosen (described : Describes heap choose c lines)
    (membership : entry ∈ (heap.table c.metatable).entries) (chosen : choose entry = true) :
    memberLine c entry ∈ lines := by
  obtain ⟨members, rfl, sameLines⟩ := described
  apply List.mem_cons_of_mem
  apply sameLines.mem_iff.mpr
  exact List.mem_map_of_mem (List.mem_filter.mpr ⟨membership, chosen⟩)

/-- An entry of a class has a line where it is chosen. -/
theorem memberLine_mem_iff {classes : List ClassInfo} {lines : List (List InfoLine)}
    (described : List.Forall₂ (Describes heap choose) classes lines) (isClass : c ∈ classes)
    (membership : entry ∈ (heap.table c.metatable).entries) :
    memberLine c entry ∈ lines.flatten ↔ choose entry = true := by
  constructor
  · intro hasLine
    clear isClass membership
    induction described with
    | nil => contradiction
    | cons first _ inductionHypothesis =>
        rcases List.mem_append.mp hasLine with here | later
        · exact chosen_of_mem first here
        · exact inductionHypothesis later
  · intro chosen
    induction described with
    | nil => contradiction
    | cons first _ inductionHypothesis =>
        apply List.mem_append.mpr
        rcases List.mem_cons.mp isClass with rfl | later
        · exact .inl (mem_of_chosen first membership chosen)
        · exact .inr (inductionHypothesis later)

end Metainfo

namespace Metainfo

/-- A member that is listed is also shown, and no other is. -/
theorem told_of_listsMembers {rendering : Rendering} {tms : Heap.IndexTM}
    {chain : ClassChain tms} (lists : ListsMembers rendering chain) :
    ∀ c ∈ chain.classes, ∀ entry ∈ (chain.heap.table c.metatable).entries,
      isMember entry = true → Told (keyText entry.1) := by
  intro c isClass entry membership member
  obtain ⟨-, bound, listsFrom⟩ := lists
  obtain ⟨output, returned, lines, isOutput, described⟩ :=
    listsFrom (max bound (chain.classes.length + 1)) (le_max_left _ _)
  have printed := metainfo_returns rendering chain.chain
    (le_max_right bound (chain.classes.length + 1))
  rw [returned] at printed
  obtain ⟨-, sameOutput⟩ := Outcome.returned.inj printed
  have isListed := List.mem_reverse.mpr isClass
  rw [← shown_eq_listed member, Bool.eq_iff_iff,
    ← memberLine_mem_iff described isListed membership,
    ← memberLine_mem_iff (describes_blocks chain.heap shown chain.classes) isListed membership,
    ← isOutput, sameOutput]

theorem block_shown {c : ClassInfo}
    (told : ∀ entry ∈ (heap.table c.metatable).entries,
      isMember entry = true → Told (keyText entry.1)) :
    block heap shown c = block heap listed c := by
  have sameEntries : (heap.table c.metatable).entries.filter shown =
      (heap.table c.metatable).entries.filter listed := by
    apply List.filter_congr
    intro entry membership
    cases member : isMember entry with
    | true => exact (shown_eq_listed member).mpr (told entry membership member)
    | false => rw [shown, listed, member, Bool.false_and, Bool.false_and]
  rw [block, block, sameEntries]

end Metainfo

/-- The members are listed as they should be exactly where the pattern tells the names
of all of them apart. -/
theorem metainfo_listsMembers_iff (rendering : Rendering) {tms : Heap.IndexTM}
    (chain : ClassChain tms) :
    ListsMembers rendering chain ↔
      ∀ c ∈ chain.classes, ∀ entry ∈ (chain.heap.table c.metatable).entries,
        isMember entry = true → Told (keyText entry.1) := by
  constructor
  · exact told_of_listsMembers
  · intro told
    have sameBlocks : blocks chain.heap shown chain.classes =
        blocks chain.heap listed chain.classes := by
      apply List.map_congr_left
      intro c isClass
      exact block_shown (told c (List.mem_reverse.mp isClass))
    refine ⟨nodup_classes chain.chain, chain.classes.length + 1, fun fuel enough => ?_⟩
    refine ⟨_, metainfo_returns rendering chain.chain enough,
      blocks chain.heap shown chain.classes, rfl, ?_⟩
    rw [sameBlocks]
    exact describes_blocks _ _ _

/-- No value but a table is indexed. -/
def tablesOnly : Heap.IndexTM := ⟨fun _ => .nil, fun _ _ _ => .ok .nil⟩

/-- A class with a function `get__value`. -/
def getterHeap : Heap :=
  ⟨[⟨[(.literal "__name", .literal "C"), (.literal "get__value", .function 0)], none,
    by decide +kernel, by decide +kernel⟩]⟩

theorem getterHeap_entries : (getterHeap.table 0).entries =
    [(.literal "__name", .literal "C"), (.literal "get__value", .function 0)] := rfl

theorem getterHeap_name : getterHeap.luaV_gettable tablesOnly (.table 0) (.literal "__name") =
    .ok (.string (ascii "C")) := by
  have isName : (getterHeap.table 0).rawget (.literal "__name") = .string (ascii "C") := by
    decide +kernel
  rw [Heap.luaV_gettable_none rfl, isName]

theorem getterHeap_parent : getterHeap.luaV_gettable tablesOnly (.table 0) (.literal "__parent") =
    .ok .nil := by
  have unset : (getterHeap.table 0).rawget (.literal "__parent") = .nil := by decide +kernel
  rw [Heap.luaV_gettable_none rfl, unset]

theorem getterHeap_keyed :
    ∀ entry ∈ (getterHeap.table 0).entries, ∃ key, entry.1 = .string key := by
  intro entry membership
  rw [getterHeap_entries] at membership
  rcases List.mem_cons.mp membership with rfl | second
  · exact ⟨_, rfl⟩
  · obtain rfl := List.mem_singleton.mp second
    exact ⟨_, rfl⟩

def getterChain : ClassChain tablesOnly where
  heap := getterHeap
  metatable := .table 0
  classes := [⟨0, ascii "C"⟩]
  chain := .inherits (c := ⟨0, ascii "C"⟩) getterHeap_name getterHeap_parent getterHeap_keyed .root

def bareRendering : Rendering :=
  ⟨fun _ => [], fun _ => [], fun _ => none, fun _ _ => none⟩

theorem getter_not_listed : ¬ ListsMembers bareRendering getterChain := by
  intro lists
  have isEntry : (LuaValue.literal "get__value", LuaValue.function 0) ∈
      (getterHeap.table 0).entries := by
    rw [getterHeap_entries]
    exact List.mem_cons_of_mem _ List.mem_cons_self
  have told : Told (ascii "get__value") :=
    told_of_listsMembers lists ⟨0, ascii "C"⟩ (List.mem_singleton.mpr rfl) _ isEntry rfl
  exact absurd (told_iff.mp told) (by decide +kernel)

end LuaEngine.Utils
