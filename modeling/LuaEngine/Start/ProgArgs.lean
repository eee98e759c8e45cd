import LuaEngine.Start.ServType

/-!
# The program's arguments

`main` joins the arguments, each followed by a blank, and the pattern of
`ServMain.lua` is matched on what it makes of them.  The pattern knows nothing
of arguments: an argument that ends in `-s` passes for the option, one that
begins with no letter or digit is passed over, and only the letters and digits
a value begins with arrive.
-/

namespace LuaEngine.Start

open LuaEngine.Codec LuaEngine.Lua

/-- `-s` -/
def optionS : Bytes := [45, 115]

/-- `--help` or `/?` -/
def asksHelp (arg : Bytes) : Prop := arg = [45, 45, 104, 101, 108, 112] ∨ arg = [47, 63]

instance (arg : Bytes) : Decidable (asksHelp arg) :=
  inferInstanceAs (Decidable (_ ∨ _))

/-- What `AppProgArgs` holds when `LuaStart` is called, if it is.  C strings are
without the NUL at their end. -/
def main (first : Bytes) (others : List Bytes) : Option Bytes :=
  if asksHelp first then
    none
  else
    some ((first :: others).foldl (fun AppProgArgs arg => AppProgArgs ++ arg ++ [32]) [])

/-- An argument that is not empty and holds neither white space nor NUL. -/
structure Argument (arg : Bytes) : Prop where
  nonempty : arg ≠ []
  solid : ∀ c ∈ arg, isspace c = false ∧ c ≠ 0

/-- The argument after the first one that is `-s`. -/
def optionValue : List Bytes → Option Bytes
  | [] => none
  | arg :: rest => if arg = optionS then rest.head? else optionValue rest

/-- The server type is the argument after the first `-s`, nil without one. -/
def Arrives (first : Bytes) (others : List Bytes) : Prop :=
  ∀ g_progArgs, main first others = some g_progArgs →
    strServType g_progArgs = .ok (optional (optionValue (first :: others)))

/-- An argument and the next, where the pattern takes them for the option and its value. -/
def Candidate (pair : Bytes × Bytes) : Prop := optionS <:+ pair.1 ∧ leading pair.2 ≠ []

instance (pair : Bytes × Bytes) : Decidable (Candidate pair) :=
  inferInstanceAs (Decidable (_ ∧ _))

/-- The arguments with the ones after them. -/
def pairs (args : List Bytes) : List (Bytes × Bytes) := args.zip args.tail

/-- There is no candidate where the option has no value, and where it has one the first
candidate gives just that. -/
def Undisturbed (args : List Bytes) : Prop :=
  match optionValue args with
  | none => ∀ pair ∈ pairs args, ¬ Candidate pair
  | some value => ∃ before pair after, pairs args = before ++ pair :: after ∧
      (∀ earlier ∈ before, ¬ Candidate earlier) ∧ Candidate pair ∧ leading pair.2 = value

/-! ## The string of the arguments -/

def joined (args : List Bytes) : Bytes := args.flatMap fun arg => arg ++ [32]

theorem main_eq (first : Bytes) (others : List Bytes) :
    main first others = if asksHelp first then none else some (joined (first :: others)) := by
  have folded : (first :: others).foldl (fun AppProgArgs arg => AppProgArgs ++ (arg ++ [32])) [] =
      joined (first :: others) :=
    List.foldl_append_eq_append.trans (List.flatMap_def ..).symm
  rw [← folded, main]
  simp only [List.append_assoc]

theorem joined_cons (arg : Bytes) (rest : List Bytes) :
    joined (arg :: rest) = arg ++ 32 :: joined rest := by
  rw [joined, List.flatMap_cons, List.append_assoc]
  rfl

/-- What the pattern makes of one argument and the blank after it. -/
theorem found_argument {arg : Bytes} (solid : ∀ c ∈ arg, isspace c = false) (rest : Bytes) :
    found (arg ++ 32 :: rest) =
      if arg = optionS ∧ leading (rest.dropWhile isspace) ≠ [] then
        some (leading (rest.dropWhile isspace))
      else none := by
  by_cases isOption : arg = optionS
  · subst isOption
    have spaces : (32 :: rest).takeWhile isspace ≠ [] := by
      rw [List.takeWhile_cons_of_pos (by decide)]
      exact List.cons_ne_nil _ _
    have word : (32 :: rest).dropWhile isspace = rest.dropWhile isspace :=
      List.dropWhile_cons_of_pos (by decide)
    change (if (32 :: rest).takeWhile isspace = [] ∨ leading ((32 :: rest).dropWhile isspace) = []
      then none else some (leading ((32 :: rest).dropWhile isspace))) = _
    rw [word]
    by_cases empty : leading (rest.dropWhile isspace) = []
    · rw [if_pos (.inr empty), if_neg fun matched => matched.2 empty]
    · rw [if_neg (not_or.mpr ⟨spaces, empty⟩), if_pos ⟨rfl, empty⟩]
  · rw [if_neg fun matched => isOption matched.1, found.eq_def]
    split
    next after begins =>
      -- the argument goes on after `-s`, and not with white space
      have goesOn : after.takeWhile isspace = [] := by
        rcases arg with _ | ⟨c, _ | ⟨d, _ | ⟨e, tail⟩⟩⟩
        · simp at begins
        · simp at begins
        · simp only [List.cons_append, List.nil_append, List.cons.injEq] at begins
          obtain ⟨rfl, rfl, -⟩ := begins
          exact absurd rfl isOption
        · simp only [List.cons_append, List.cons.injEq] at begins
          obtain ⟨-, -, rfl⟩ := begins
          apply List.takeWhile_cons_of_neg
          rw [solid e (by simp)]
          exact Bool.false_ne_true
      rw [if_pos (.inl goesOn)]
    next => rfl

/-- What it makes of a whole argument: `-s` counts at its end. -/
theorem firstFound_argument {arg : Bytes} (solid : ∀ c ∈ arg, isspace c = false) (rest : Bytes) :
    firstFound (arg ++ 32 :: rest) =
      if optionS <:+ arg ∧ leading (rest.dropWhile isspace) ≠ [] then
        some (leading (rest.dropWhile isspace))
      else firstFound rest := by
  induction arg with
  | nil =>
      rw [if_neg fun matched => List.cons_ne_nil _ _ (List.suffix_nil.mp matched.1)]
      rfl
  | cons c arg inductionHypothesis =>
      have here := found_argument solid rest
      have further := inductionHypothesis
        fun d isMember => solid d (List.mem_cons_of_mem c isMember)
      rw [List.cons_append] at here ⊢
      rw [firstFound, here, further]
      by_cases empty : leading (rest.dropWhile isspace) = []
      · simp only [empty, ne_eq, not_true, and_false, if_false, Option.none_or]
      · by_cases isOption : c :: arg = optionS
        · have atEnd : optionS <:+ c :: arg := isOption ▸ List.suffix_rfl
          rw [if_pos ⟨isOption, empty⟩, Option.some_or, if_pos ⟨atEnd, empty⟩]
        · have longer : optionS <:+ c :: arg ↔ optionS <:+ arg := by
            rw [List.suffix_cons_iff]
            exact or_iff_right fun same => isOption same.symm
          rw [if_neg fun matched => isOption matched.1, Option.none_or]
          exact if_congr (and_congr_left' longer.symm) rfl rfl

theorem leading_joined {args : List Bytes} (wellFormed : ∀ arg ∈ args, Argument arg) :
    leading ((joined args).dropWhile isspace) = leading (args.headD []) := by
  cases args with
  | nil => rfl
  | cons arg rest =>
      have argument := wellFormed arg List.mem_cons_self
      obtain ⟨c, tail, rfl⟩ := List.exists_cons_of_ne_nil argument.nonempty
      have notSpace : ¬ isspace c = true := by
        rw [(argument.solid c List.mem_cons_self).1]
        exact Bool.false_ne_true
      rw [joined_cons, List.cons_append, List.dropWhile_cons_of_neg notSpace, List.headD_cons,
        ← List.cons_append, leading, List.takeWhile_append]
      by_cases whole : ((c :: tail).takeWhile isalnum).length = (c :: tail).length
      · rw [if_pos whole, List.takeWhile_cons_of_neg (by decide), List.append_nil]
        exact ((List.takeWhile_prefix isalnum).eq_of_length whole).symm
      · rw [if_neg whole]
        rfl

/-- The pattern finds the first candidate. -/
theorem firstFound_joined {args : List Bytes} (wellFormed : ∀ arg ∈ args, Argument arg) :
    firstFound (joined args) =
      ((pairs args).find? fun pair => Candidate pair).map fun pair => leading pair.2 := by
  induction args with
  | nil => rfl
  | cons arg rest inductionHypothesis =>
      have later : ∀ arg ∈ rest, Argument arg := fun other isMember =>
        wellFormed other (List.mem_cons_of_mem arg isMember)
      have solid : ∀ c ∈ arg, isspace c = false := fun c isMember =>
        ((wellFormed arg List.mem_cons_self).solid c isMember).1
      rw [joined_cons, firstFound_argument solid, leading_joined later, inductionHypothesis later]
      cases rest with
      | nil =>
          rw [if_neg fun matched => matched.2 rfl]
          rfl
      | cons next rest =>
          change (if Candidate (arg, next) then _ else _) =
            (((arg, next) :: pairs (next :: rest)).find? _).map _
          by_cases isCandidate : Candidate (arg, next)
          · rw [if_pos isCandidate, List.find?_cons, decide_eq_true isCandidate]
            rfl
          · rw [if_neg isCandidate, List.find?_cons, decide_eq_false isCandidate]

/-- The server type from the arguments. -/
theorem strServType_joined {args : List Bytes} (wellFormed : ∀ arg ∈ args, Argument arg) :
    strServType (joined args) =
      .ok (optional (((pairs args).find? fun pair => Candidate pair).map fun pair =>
        leading pair.2)) := by
  rw [strServType_eq, firstFound_joined wellFormed]

theorem optional_injective {found wanted : Option Bytes}
    (same : optional found = optional wanted) : found = wanted := by
  cases found <;> cases wanted <;> simp_all [optional]

theorem undisturbed_iff (args : List Bytes) :
    Undisturbed args ↔
      ((pairs args).find? fun pair => Candidate pair).map (fun pair => leading pair.2) =
        optionValue args := by
  unfold Undisturbed
  cases optionValue args with
  | none => simp
  | some value =>
      simp only [Option.map_eq_some_iff, List.find?_eq_some_iff_append]
      constructor
      · rintro ⟨before, pair, after, split, earlier, isCandidate, same⟩
        refine ⟨pair, ⟨decide_eq_true isCandidate, before, after, split, ?_⟩, same⟩
        intro other isMember
        simpa using earlier other isMember
      · rintro ⟨pair, ⟨isCandidate, before, after, split, earlier⟩, same⟩
        refine ⟨before, pair, after, split, ?_, of_decide_eq_true isCandidate, same⟩
        intro other isMember
        simpa using earlier other isMember

theorem servTypeArrives_iff (first : Bytes) (others : List Bytes)
    (wellFormed : ∀ arg ∈ first :: others, Argument arg) :
    Arrives first others ↔ asksHelp first ∨ Undisturbed (first :: others) := by
  rw [Arrives, main_eq]
  by_cases help : asksHelp first
  · simp [help]
  · rw [if_neg help, undisturbed_iff, or_iff_right help]
    constructor
    · intro arrives
      have same := arrives _ rfl
      rw [strServType_joined wellFormed, Except.ok.injEq] at same
      exact optional_injective same
    · rintro same _ ⟨⟩
      rw [strServType_joined wellFormed, same]

/-- `-s MyServer` -/
theorem myServer_arrives : Arrives [45, 115] [[77, 121, 83, 101, 114, 118, 101, 114]] := by
  refine (servTypeArrives_iff [45, 115] [[77, 121, 83, 101, 114, 118, 101, 114]] ?_).mpr (.inr ?_)
  · intro arg isMember
    fin_cases isMember
    · exact ⟨by decide, by decide +kernel⟩
    · exact ⟨by decide, by decide +kernel⟩
  · exact ⟨[], _, [], rfl, by simp, by decide, rfl⟩

/-- `--log-s debug -s MyServer` -/
theorem other_option_passes_for_s :
    ¬ ∀ first others, (∀ arg ∈ first :: others, Argument arg) → Arrives first others := by
  intro alwaysArrives
  have wellFormed : ∀ arg ∈ [[45, 45, 108, 111, 103, 45, 115], [100, 101, 98, 117, 103],
      [45, 115], [77, 121, 83, 101, 114, 118, 101, 114]], Argument arg := by
    intro arg isMember
    fin_cases isMember
    all_goals exact ⟨by decide, by decide +kernel⟩
  have whole := alwaysArrives _ _ wellFormed (joined _) (main_eq _ _)
  rw [strServType_joined wellFormed, Except.ok.injEq] at whole
  exact absurd (optional_injective whole) (by decide)

end LuaEngine.Start
