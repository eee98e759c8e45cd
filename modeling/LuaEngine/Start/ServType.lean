import LuaEngine.Lua.Pattern

/-!
# The server type

`ServMain.lua` takes the server type out of the program's arguments with a
pattern.  It matches wherever `-s` stands before white space and a letter or
digit, and captures the letters and digits there.
-/

namespace LuaEngine.Start

open LuaEngine.Codec LuaEngine.Lua

def servTypePattern : Pattern := "-s%s+(%w+)".toList

/-- The local variable of `ServMain.lua`. -/
def strServType (g_progArgs : Bytes) : Except LuaValue LuaValue := do
  let results ← str_match g_progArgs servTypePattern
  .ok (results.headD .nil)

def optional : Option Bytes → LuaValue
  | some value => .string value
  | none => .nil

/-! ## The pattern -/

/-- The letters and digits a string begins with. -/
def leading (tail : Bytes) : Bytes := tail.takeWhile isalnum

/-- What the pattern captures at the beginning of a string, if it matches there. -/
def found : Bytes → Option Bytes
  | 45 :: 115 :: after =>
      if after.takeWhile isspace = [] ∨ leading (after.dropWhile isspace) = [] then none
      else some (leading (after.dropWhile isspace))
  | _ => none

/-- What it captures where it matches first. -/
def firstFound : Bytes → Option Bytes
  | [] => none
  | c :: rest => (found (c :: rest)).or (firstFound rest)

theorem isalnum_of_isspace {c : UInt8} (isSpace : isspace c = true) : isalnum c = false := by
  simp [isspace, isalnum, isalpha, islower, isupper, isdigit, UInt8.le_iff_toNat_le,
    ← UInt8.toNat_inj] at isSpace ⊢
  omega

theorem leading_drop {tail : Bytes} {j : Nat} (below : j < (tail.takeWhile isspace).length) :
    leading (tail.drop j) = [] := by
  induction tail generalizing j with
  | nil => contradiction
  | cons c tail inductionHypothesis =>
      by_cases isSpace : isspace c = true
      · rw [List.takeWhile_cons_of_pos isSpace] at below
        cases j with
        | zero =>
            apply List.takeWhile_cons_of_neg
            rw [isalnum_of_isspace isSpace]
            exact Bool.false_ne_true
        | succ j => exact inductionHypothesis (Nat.lt_of_succ_lt_succ below)
      · rw [List.takeWhile_cons_of_neg isSpace] at below
        contradiction

theorem drop_length_takeWhile {α : Type} (p : α → Bool) (list : List α) :
    list.drop (list.takeWhile p).length = list.dropWhile p := by
  induction list with
  | nil => rfl
  | cons head list inductionHypothesis =>
      by_cases holds : p head = true
      · rw [List.takeWhile_cons_of_pos holds, List.dropWhile_cons_of_pos holds]
        exact inductionHypothesis
      · rw [List.takeWhile_cons_of_neg holds, List.dropWhile_cons_of_neg holds]
        rfl

section Pattern

variable (src : Bytes) (s : Nat)

theorem servTypePattern_eq :
    servTypePattern = ['-', 's', '%', 's', '+', '(', '%', 'w', '+', ')'] := by decide

theorem singlematch_word (c : UInt8) (ep : Pattern) :
    Pattern.singlematch c ['%', 'w', '+', ')'] ep = isalnum c := rfl

theorem matchHere_word_end (i : Nat) :
    matchHere src (s + i) [⟨s, .CAP_UNFINISHED⟩] [')'] =
      .ok (some (s + i, [⟨s, .closed i⟩])) := by
  have closed : matchHere src (s + i) ([] ++ [⟨s, .CAP_UNFINISHED⟩]) [')'] = _ :=
    matchHere_close src (s + i) [] s
  rw [Nat.add_sub_cancel_left, matchHere_nil] at closed
  exact closed

/-- The `%w+)` of the pattern, within its capture. -/
theorem matchHere_word :
    matchHere src s [⟨s, .CAP_UNFINISHED⟩] ['%', 'w', '+', ')'] =
      .ok (if leading (src.drop s) = [] then none
        else some (s + (leading (src.drop s)).length,
          [⟨s, .closed (leading (src.drop s)).length⟩])) := by
  rw [matchHere_plus src s _ rfl rfl]
  cases begins : src.drop s with
  | nil =>
      rw [matchesItem_nil src s begins]
      rfl
  | cons c tail =>
      rw [matchesItem_cons src s begins, drop_succ src s begins, singlematch_word]
      by_cases isWord : isalnum c = true
      · have longer : leading (c :: tail) = c :: leading tail := List.takeWhile_cons_of_pos isWord
        have last : s + 1 + (leading tail).length = s + (c :: leading tail).length := by
          rw [List.length_cons]
          omega
        have ends := matchHere_word_end src s (c :: leading tail).length
        rw [if_pos isWord, longer, if_neg (List.cons_ne_nil _ _), max_expand_eq]
        · change matchHere src (s + 1 + (leading tail).length) _ _ = _
          rw [last]
          exact ends
        · intro fails
          change matchHere src (s + 1 + (leading tail).length) _ _ = _ at fails
          rw [last, ends] at fails
          cases fails
      · have empty : leading (c :: tail) = [] := List.takeWhile_cons_of_neg isWord
        rw [if_neg isWord, empty, if_pos rfl]

theorem matchHere_capture :
    matchHere src s [] ['(', '%', 'w', '+', ')'] =
      .ok (if leading (src.drop s) = [] then none
        else some (s + (leading (src.drop s)).length,
          [⟨s, .closed (leading (src.drop s)).length⟩])) := by
  rw [matchHere_open src s [] (by decide) (by decide)]
  exact matchHere_word src s

/-- White space is not left to the capture, so all of it is passed over. -/
theorem matchHere_space {c : UInt8} {tail : Bytes} (begins : src.drop s = c :: tail) :
    matchHere src s [] ['%', 's', '+', '(', '%', 'w', '+', ')'] =
      if isspace c = true then
        matchHere src (s + 1 + (tail.takeWhile isspace).length) [] ['(', '%', 'w', '+', ')']
      else
        .ok none := by
  rw [matchHere_plus src s _ rfl rfl, matchesItem_cons src s begins, drop_succ src s begins]
  change (if isspace c = true then max_expand _ (s + 1) (tail.takeWhile isspace).length else _) = _
  by_cases isSpace : isspace c = true
  · rw [if_pos isSpace, if_pos isSpace, max_expand_eq]
    intro _ j below
    have inSpace : leading (src.drop (s + 1 + j)) = [] := by
      rw [← List.drop_drop, drop_succ src s begins]
      exact leading_drop below
    change matchHere src (s + 1 + j) [] _ = _
    rw [matchHere_capture, inSpace, if_pos rfl]
  · rw [if_neg isSpace, if_neg isSpace]

/-- The rest of the pattern after `-s`. -/
theorem matchHere_rest {after : Bytes} (begins : src.drop s = after) :
    matchHere src s [] ['%', 's', '+', '(', '%', 'w', '+', ')'] =
      .ok (if after.takeWhile isspace = [] ∨ leading (after.dropWhile isspace) = [] then none
        else some (s + (after.takeWhile isspace).length +
            (leading (after.dropWhile isspace)).length,
          [⟨s + (after.takeWhile isspace).length,
            .closed (leading (after.dropWhile isspace)).length⟩])) := by
  cases after with
  | nil =>
      rw [matchHere_plus src s _ rfl rfl, matchesItem_nil src s begins]
      rfl
  | cons c tail =>
      rw [matchHere_space src s begins]
      by_cases isSpace : isspace c = true
      · have spaces : (c :: tail).takeWhile isspace = c :: tail.takeWhile isspace :=
          List.takeWhile_cons_of_pos isSpace
        have start : s + 1 + (tail.takeWhile isspace).length =
            s + (c :: tail.takeWhile isspace).length := by
          rw [List.length_cons]
          omega
        have word : src.drop (s + (c :: tail.takeWhile isspace).length) =
            (c :: tail).dropWhile isspace := by
          rw [← List.drop_drop, begins, ← spaces]
          exact drop_length_takeWhile isspace (c :: tail)
        rw [if_pos isSpace, start, matchHere_capture, word, spaces]
        simp only [List.cons_ne_nil, false_or]
      · rw [if_neg isSpace, List.takeWhile_cons_of_neg isSpace, if_pos (.inl rfl)]

theorem matchHere_dash {c : UInt8} {tail : Bytes} (begins : src.drop s = c :: tail) :
    matchHere src s [] servTypePattern =
      if c = 45 then
        matchHere src (s + 1) [] ['s', '%', 's', '+', '(', '%', 'w', '+', ')']
      else
        .ok none := by
  rw [servTypePattern_eq]
  exact matchHere_literal src s [] begins rfl (by decide) rfl rfl (by decide)

theorem matchHere_s {c : UInt8} {tail : Bytes} (begins : src.drop s = c :: tail) :
    matchHere src s [] ['s', '%', 's', '+', '(', '%', 'w', '+', ')'] =
      if c = 115 then
        matchHere src (s + 1) [] ['%', 's', '+', '(', '%', 'w', '+', ')']
      else
        .ok none :=
  matchHere_literal src s [] begins rfl (by decide) rfl rfl (by decide)

theorem push_captures_closed (init len e : Nat) :
    push_captures src [⟨init, .closed len⟩] s e = .ok [.string ((src.drop init).take len)] := rfl

/-- An attempt that comes past `-s`. -/
theorem attempt_of_optionS {after : Bytes} (begins : src.drop s = 45 :: 115 :: after)
    (otherwise : Except LuaValue (List LuaValue)) :
    attempt src servTypePattern s otherwise =
      match found (45 :: 115 :: after) with
      | some word => .ok [.string word]
      | none => otherwise := by
  have second := drop_succ src s begins
  have third := drop_succ src (s + 1) second
  have rest := matchHere_rest src (s + 1 + 1) third
  rw [attempt, matchHere_dash src s begins, if_pos rfl, matchHere_s src (s + 1) second,
    if_pos rfl, rest, found]
  by_cases fails : after.takeWhile isspace = [] ∨ leading (after.dropWhile isspace) = []
  · rw [if_pos fails, if_pos fails]
    rfl
  · have word : (src.drop (s + 1 + 1 + (after.takeWhile isspace).length)).take
        (leading (after.dropWhile isspace)).length = leading (after.dropWhile isspace) := by
      rw [← List.drop_drop, third, drop_length_takeWhile]
      exact (List.prefix_iff_eq_take.mp (List.takeWhile_prefix _)).symm
    rw [if_neg fails, if_neg fails]
    change push_captures src _ s _ = _
    rw [push_captures_closed, word]

/-- One attempt: what the pattern captures where the string is cut. -/
theorem attempt_eq (otherwise : Except LuaValue (List LuaValue)) :
    attempt src servTypePattern s otherwise =
      match found (src.drop s) with
      | some word => .ok [.string word]
      | none => otherwise := by
  cases begins : src.drop s with
  | nil =>
      rw [attempt, servTypePattern_eq, matchHere_item src s [] rfl rfl (by decide),
        matchesItem_nil src s begins]
      rfl
  | cons c tail =>
      by_cases isDash : c = 45
      · subst isDash
        have second := drop_succ src s begins
        cases tail with
        | nil =>
            rw [attempt, matchHere_dash src s begins, if_pos rfl,
              matchHere_item src (s + 1) [] rfl rfl (by decide), matchesItem_nil src _ second]
            rfl
        | cons d after =>
            by_cases isS : d = 115
            · subst isS
              exact attempt_of_optionS src s begins otherwise
            · have unfound : found (45 :: d :: after) = none := by simp [found, isS]
              rw [attempt, matchHere_dash src s begins, if_pos rfl, matchHere_s src _ second,
                if_neg isS, unfound]
              rfl
      · have unfound : found (c :: tail) = none := by simp [found, isDash]
        rw [attempt, matchHere_dash src s begins, if_neg isDash, unfound]
        rfl

theorem searchFrom_eq (remaining : Nat) (inside : remaining = src.length - s) :
    searchFrom src servTypePattern false s remaining =
      .ok [optional (firstFound (src.drop s))] := by
  induction remaining generalizing s with
  | zero =>
      have ended : src.drop s = [] :=
        List.drop_eq_nil_iff.mpr (Nat.sub_eq_zero_iff_le.mp inside.symm)
      rw [searchFrom, attempt_eq, ended]
      rfl
  | succ remaining inductionHypothesis =>
      have below : s < src.length := by omega
      have cut := List.drop_eq_getElem_cons below
      rw [searchFrom, attempt_eq, cut, firstFound, if_neg Bool.false_ne_true,
        inductionHypothesis (s + 1) (by omega)]
      cases found (src[s] :: src.drop (s + 1)) <;> rfl

end Pattern

theorem strServType_eq (g_progArgs : Bytes) :
    strServType g_progArgs = .ok (optional (firstFound g_progArgs)) := by
  have searched : str_match g_progArgs servTypePattern =
      .ok [optional (firstFound g_progArgs)] := by
    rw [servTypePattern_eq, str_match, ← servTypePattern_eq]
    · exact searchFrom_eq g_progArgs 0 _ rfl
    · intro rest isAnchored
      exact absurd (List.cons.inj isAnchored).1 (by decide)
  rw [strServType, searched]
  rfl

end LuaEngine.Start
