import LuaEngine.Lua.Call

/-!
# Patterns

The matcher of `string.match` and `string.find`, with the character classes of the
C locale.  A pattern is the characters of a C string; a position in the subject is
counted from its beginning.
-/

namespace LuaEngine.Lua

open LuaEngine.Codec

def islower (c : UInt8) : Bool := 97 ≤ c && c ≤ 122

def isupper (c : UInt8) : Bool := 65 ≤ c && c ≤ 90

def isalpha (c : UInt8) : Bool := islower c || isupper c

def isdigit (c : UInt8) : Bool := 48 ≤ c && c ≤ 57

def isalnum (c : UInt8) : Bool := isalpha c || isdigit c

def isspace (c : UInt8) : Bool := c = 32 || 9 ≤ c && c ≤ 13

def iscntrl (c : UInt8) : Bool := c < 32 || c = 127

def ispunct (c : UInt8) : Bool := 33 ≤ c && c ≤ 126 && !isalnum c

def isxdigit (c : UInt8) : Bool := isdigit c || 97 ≤ c && c ≤ 102 || 65 ≤ c && c ≤ 70

abbrev Pattern := List Char

inductive CaptureLength where
  | CAP_UNFINISHED
  | CAP_POSITION
  | closed (len : Nat)
  deriving DecidableEq

structure Capture where
  init : Nat
  len : CaptureLength
  deriving DecidableEq

def LUA_MAXCAPTURES : Nat := 32

/-- The end of the match and the captures, if there is a match. -/
abbrev MatchResult := Except LuaValue (Option (Nat × List Capture))

namespace Pattern

def ofByte (c : UInt8) : Char := Char.ofNat c.toNat

theorem eq_ofByte_iff {x : Char} {c : UInt8} : x = ofByte c ↔ x.toNat = c.toNat := by
  have valid : Nat.isValidChar c.toNat := by
    left
    exact c.toNat_lt.trans (by decide)
  have same : (ofByte c).toNat = c.toNat := by
    rw [ofByte, Char.ofNat, dif_pos valid]
    rfl
  rw [← same]
  exact Char.toNat_inj.symm

/-- What follows a set, from its first character that is not `^`. -/
def closeSet : Pattern → Except LuaValue Pattern
  | '%' :: _ :: ']' :: rest => .ok rest
  | '%' :: _ :: rest => closeSet rest
  | _ :: ']' :: rest => .ok rest
  | _ :: rest => closeSet rest
  | [] => .error (.literal "malformed pattern (missing ']')")

def classend : Pattern → Except LuaValue Pattern
  | ['%'] => .error (.literal "malformed pattern (ends with '%')")
  | '%' :: _ :: rest => .ok rest
  | '[' :: '^' :: rest => closeSet rest
  | '[' :: rest => closeSet rest
  | _ :: rest => .ok rest
  | [] => .ok []

def match_class (c : UInt8) (cl : Char) : Bool :=
  let res := match cl.toLower with
    | 'a' => some (isalpha c)
    | 'c' => some (iscntrl c)
    | 'd' => some (isdigit c)
    | 'l' => some (islower c)
    | 'p' => some (ispunct c)
    | 's' => some (isspace c)
    | 'u' => some (isupper c)
    | 'w' => some (isalnum c)
    | 'x' => some (isxdigit c)
    | 'z' => some (decide (c = 0))
    | _ => none
  match res with
  | some res => if cl.isLower then res else !res
  | none => cl = ofByte c

def matchSet (c : UInt8) : Pattern → Bool
  | '%' :: cl :: rest => match_class c cl || matchSet c rest
  | first :: '-' :: last :: rest =>
      decide (first ≤ ofByte c ∧ ofByte c ≤ last) || matchSet c rest
  | x :: rest => decide (x = ofByte c) || matchSet c rest
  | [] => false

/-- The set between the brackets. -/
def matchbracketclass (c : UInt8) : Pattern → Bool
  | '^' :: rest => !matchSet c rest
  | set => matchSet c set

/-- The item between `p` and what is left of it after the item. -/
def singlematch (c : UInt8) (p ep : Pattern) : Bool :=
  match p with
  | '.' :: _ => true
  | '%' :: cl :: _ => match_class c cl
  | '[' :: rest => matchbracketclass c (rest.take (rest.length - ep.length - 1))
  | x :: _ => decide (x = ofByte c)
  | [] => false

theorem length_closeSet {p ep : Pattern} (closed : closeSet p = .ok ep) :
    ep.length < p.length := by
  fun_induction closeSet p with
  | case1 _ rest =>
      rw [← Except.ok.inj closed, List.length_cons, List.length_cons, List.length_cons]
      omega
  | case2 _ rest _ inductionHypothesis =>
      apply (inductionHypothesis closed).trans
      rw [List.length_cons, List.length_cons]
      omega
  | case3 =>
      rw [← Except.ok.inj closed, List.length_cons, List.length_cons]
      omega
  | case4 _ rest _ _ _ inductionHypothesis =>
      exact (inductionHypothesis closed).trans (Nat.lt_succ_self _)
  | case5 => contradiction

theorem length_classend {p ep : Pattern} (notEnd : p ≠ []) (ended : classend p = .ok ep) :
    ep.length < p.length := by
  fun_cases classend p with
  | case1 => contradiction
  | case2 =>
      rw [classend, Except.ok.injEq] at ended
      · rw [← ended, List.length_cons, List.length_cons]
        omega
  | case3 rest =>
      apply (length_closeSet ended).trans
      rw [List.length_cons, List.length_cons]
      omega
  | case4 =>
      rw [classend] at ended
      · exact (length_closeSet ended).trans (Nat.lt_succ_self _)
      · assumption
  | case5 =>
      rw [classend, Except.ok.injEq] at ended
      · rw [← ended]
        exact Nat.lt_succ_self _
      all_goals assumption
  | case6 => contradiction

end Pattern

/-! ## Matching -/

section Match

variable (src : Bytes)

def matchbalance (s : Nat) : Pattern → Except LuaValue (Option Nat)
  | b :: e :: _ =>
      if s < src.length ∧ b = Pattern.ofByte (src.getD s 0) then
        .ok (balance b e 1 (s + 1) (src.drop (s + 1)))
      else
        .ok none
  | _ => .error (.literal "unbalanced pattern")
where
  /-- `cont` is how many are open. -/
  balance (b e : Char) (cont s : Nat) : Bytes → Option Nat
  | [] => none
  | c :: rest =>
      if e = Pattern.ofByte c then
        if cont = 1 then some (s + 1) else balance b e (cont - 1) (s + 1) rest
      else if b = Pattern.ofByte c then
        balance b e (cont + 1) (s + 1) rest
      else
        balance b e cont (s + 1) rest

/-- The rest of the pattern after one repetition fewer each time. -/
def max_expand (rest : Nat → MatchResult) (s : Nat) : Nat → MatchResult
  | 0 => rest s
  | i + 1 => do
      match ← rest (s + (i + 1)) with
      | some result => .ok (some result)
      | none => max_expand rest s i

/-- The rest of the pattern after one repetition more each time. -/
def min_expand (single : UInt8 → Bool) (rest : Nat → MatchResult) (s : Nat) :
    Bytes → MatchResult
  | [] => rest s
  | c :: following => do
      match ← rest s with
      | some result => .ok (some result)
      | none =>
          if single c then min_expand single rest (s + 1) following else .ok none

def start_capture (s : Nat) (capture : List Capture) (what : CaptureLength)
    (rest : List Capture → MatchResult) : MatchResult :=
  if capture.length ≥ LUA_MAXCAPTURES then
    .error (.literal "too many captures")
  else
    rest (capture ++ [⟨s, what⟩])

/-- The last capture that is not finished. -/
def capture_to_close (capture : List Capture) : Except LuaValue Nat :=
  match capture.reverse.findIdx? fun c => c.len = .CAP_UNFINISHED with
  | some i => .ok (capture.length - 1 - i)
  | none => .error (.literal "invalid pattern capture")

def end_capture (s : Nat) (capture : List Capture) (rest : List Capture → MatchResult) :
    MatchResult := do
  let l ← capture_to_close capture
  rest (capture.modify l fun c => { c with len := .closed (s - c.init) })

def check_capture (capture : List Capture) (l : Char) : Except LuaValue Capture :=
  match if l = '0' then none else capture[l.toNat - '1'.toNat]? with
  | some c =>
      if c.len = .CAP_UNFINISHED then .error (.literal "invalid capture index") else .ok c
  | none => .error (.literal "invalid capture index")

def match_capture (s : Nat) (capture : List Capture) (l : Char) :
    Except LuaValue (Option Nat) := do
  let c ← check_capture capture l
  match c.len with
  | .closed len =>
      if len ≤ src.length - s ∧ (src.drop c.init).take len = (src.drop s).take len then
        .ok (some (s + len))
      else
        .ok none
  -- as a length, `CAP_POSITION` is longer than any subject
  | _ => .ok none

/-- The character before a position and the one at it, 0 outside the subject. -/
def frontier (s : Nat) : UInt8 × UInt8 :=
  (if s = 0 then 0 else src.getD (s - 1) 0, src.getD s 0)

open Pattern in
/-- `match`, which is the name of the source for it. -/
def matchHere (s : Nat) (capture : List Capture) (p : Pattern) : MatchResult :=
  match p with
  | [] => .ok (some (s, capture))
  | '(' :: ')' :: rest =>
      start_capture s capture .CAP_POSITION fun capture => matchHere s capture rest
  | '(' :: rest =>
      start_capture s capture .CAP_UNFINISHED fun capture => matchHere s capture rest
  | ')' :: rest => end_capture s capture fun capture => matchHere s capture rest
  | '%' :: 'b' :: rest => do
      match ← matchbalance src s rest with
      | some s => matchHere s capture (rest.drop 2)
      | none => .ok none
  | '%' :: 'f' :: '[' :: set =>
      match _isEnd : classend ('[' :: set) with
      | .error error => .error error
      | .ok ep =>
          let (previous, next) := frontier src s
          if singlematch previous ('[' :: set) ep || !singlematch next ('[' :: set) ep then
            .ok none
          else
            matchHere s capture ep
  | '%' :: 'f' :: _ => .error (.literal "missing '[' after '%f' in pattern")
  | ['$'] => .ok (if s = src.length then some (s, capture) else none)
  | x :: rest =>
      if x = '%' ∧ (rest.headD 'a').isDigit then do
        match ← match_capture src s capture (rest.headD 'a') with
        | some s => matchHere s capture rest.tail
        | none => .ok none
      else
        match isEnd : classend (x :: rest) with
        | .error error => .error error
        | .ok ep =>
            let single (c : UInt8) : Bool := singlematch c (x :: rest) ep
            let m := decide (s < src.length) && single (src.getD s 0)
            match ep with
            | '?' :: next => do
                match ← (if m then matchHere (s + 1) capture next else .ok none) with
                | some result => .ok (some result)
                | none => matchHere s capture next
            | '*' :: next =>
                max_expand (fun s => matchHere s capture next) s
                  ((src.drop s).takeWhile single).length
            | '+' :: next =>
                if m then
                  max_expand (fun s => matchHere s capture next) (s + 1)
                    ((src.drop (s + 1)).takeWhile single).length
                else
                  .ok none
            | '-' :: next =>
                min_expand single (fun s => matchHere s capture next) s (src.drop s)
            | ep => if m then matchHere (s + 1) capture ep else .ok none
termination_by p.length
decreasing_by
  · exact Nat.lt_succ_of_lt (Nat.lt_succ_self _)
  · exact Nat.lt_succ_self _
  · exact Nat.lt_succ_self _
  · simp only [List.length_drop, List.length_cons]
    omega
  · have shorter := length_classend (List.cons_ne_nil _ _) _isEnd
    simp only [List.length_cons] at shorter ⊢
    omega
  · simp only [List.length_tail, List.length_cons]
    omega
  -- a quantifier ends an item, and the rest is shorter still
  all_goals
    have shorter := length_classend (List.cons_ne_nil _ _) isEnd
    simp only [List.length_cons] at shorter ⊢
    omega

end Match

/-! ## `string.match` -/

section

variable (src : Bytes)

def push_onecapture (capture : List Capture) (i s e : Nat) : Except LuaValue LuaValue :=
  match capture[i]? with
  | none =>
      if i = 0 then
        .ok (.string ((src.drop s).take (e - s)))
      else
        .error (.literal "invalid capture index")
  | some c =>
      match c.len with
      | .CAP_UNFINISHED => .error (.literal "unfinished capture")
      | .CAP_POSITION => .ok (.number (.finite (c.init + 1)))
      | .closed len => .ok (.string ((src.drop c.init).take len))

def push_captures (capture : List Capture) (s e : Nat) : Except LuaValue (List LuaValue) :=
  (List.range (if capture.length = 0 then 1 else capture.length)).mapM fun i =>
    push_onecapture src capture i s e

def attempt (p : Pattern) (s1 : Nat) (otherwise : Except LuaValue (List LuaValue)) :
    Except LuaValue (List LuaValue) := do
  match ← matchHere src s1 [] p with
  | some (e, capture) => push_captures src capture s1 e
  | none => otherwise

/-- The attempts from a position on, for as many positions more. -/
def searchFrom (p : Pattern) (anchor : Bool) (s1 : Nat) : Nat → Except LuaValue (List LuaValue)
  | 0 => attempt src p s1 (.ok [.nil])
  | remaining + 1 =>
      attempt src p s1
        (if anchor then .ok [.nil] else searchFrom p anchor (s1 + 1) remaining)

/-- `string.match(s, p)` -/
def str_match (p : Pattern) : Except LuaValue (List LuaValue) :=
  match p with
  | '^' :: rest => searchFrom src rest true 0 src.length
  | p => searchFrom src p false 0 src.length

end

/-! ## `string.find` -/

section

variable (src : Bytes)

def SPECIALS : List Char := ['^', '$', '*', '+', '?', '.', '(', '[', '%', '-']

/-- Where a string stands first in another one. -/
def lmemfind (s1 s2 : Bytes) : Option Nat :=
  (List.range (s1.length + 1)).find? fun i => s2.isPrefixOf (s1.drop i)

/-- The places, counted from 1, of the first and the last character of a match. -/
def places (s e : Nat) : List LuaValue := [.number (.finite (s + 1)), .number (.finite e)]

def findAttempt (p : Pattern) (s1 : Nat) (otherwise : Except LuaValue (List LuaValue)) :
    Except LuaValue (List LuaValue) := do
  match ← matchHere src s1 [] p with
  | some (e, capture) =>
      -- without captures nothing is pushed for the whole match
      let captures ← (List.range capture.length).mapM fun i => push_onecapture src capture i s1 e
      .ok (places s1 e ++ captures)
  | none => otherwise

def findFrom (p : Pattern) (anchor : Bool) (s1 : Nat) : Nat → Except LuaValue (List LuaValue)
  | 0 => findAttempt src p s1 (.ok [.nil])
  | remaining + 1 =>
      findAttempt src p s1
        (if anchor then .ok [.nil] else findFrom p anchor (s1 + 1) remaining)

/-- `string.find(s, p)` -/
def str_find (p : Pattern) : Except LuaValue (List LuaValue) :=
  if p.all fun c => c ∉ SPECIALS then
    match lmemfind src (p.map fun c => UInt8.ofNat c.toNat) with
    | some s => .ok (places s (s + p.length))
    | none => .ok [.nil]
  else
    match p with
    | '^' :: rest => findFrom src rest true 0 src.length
    | p => findFrom src p false 0 src.length

end

/-! ## Rules -/

/-- The pattern begins with an item that stands for one character. -/
def Pattern.isItem : Pattern → Bool
  | [] => false
  | '(' :: _ => false
  | ')' :: _ => false
  | ['$'] => false
  | '%' :: x :: _ => x ≠ 'b' && x ≠ 'f' && !x.isDigit
  | _ => true

section Rules

variable (src : Bytes) (s : Nat) (capture : List Capture) {x : Char} {rest next : Pattern}

theorem not_digit_of_isItem (item : Pattern.isItem (x :: rest) = true) :
    ¬ (x = '%' ∧ (rest.headD 'a').isDigit) := by
  rintro ⟨rfl, digit⟩
  cases rest with
  | nil => simp at digit
  | cons y rest =>
      rw [Pattern.isItem, Bool.and_eq_true] at item
      rw [List.headD_cons] at digit
      rw [digit] at item
      exact Bool.false_ne_true item.2

/-- The character at a position stands for the item between `p` and `ep`. -/
def matchesItem (p ep : Pattern) : Bool :=
  decide (s < src.length) && Pattern.singlematch (src.getD s 0) p ep

theorem matchesItem_nil (ended : src.drop s = []) (p ep : Pattern) :
    matchesItem src s p ep = false := by
  have outside : ¬ s < src.length := Nat.not_lt.mpr (List.drop_eq_nil_iff.mp ended)
  rw [matchesItem, decide_eq_false outside, Bool.false_and]

theorem matchesItem_cons {c : UInt8} {tail : Bytes} (begins : src.drop s = c :: tail)
    (p ep : Pattern) : matchesItem src s p ep = Pattern.singlematch c p ep := by
  have inside : s < src.length := by
    by_contra outside
    rw [List.drop_eq_nil_iff.mpr (Nat.not_lt.mp outside)] at begins
    contradiction
  have isHead : src.getD s 0 = c := by
    rw [List.drop_eq_getElem_cons inside, List.cons.injEq] at begins
    rw [List.getD_eq_getElem _ _ inside]
    exact begins.1
  rw [matchesItem, decide_eq_true inside, isHead, Bool.true_and]

theorem drop_succ {c : UInt8} {tail : Bytes} (begins : src.drop s = c :: tail) :
    src.drop (s + 1) = tail := by
  rw [← List.drop_drop, begins, List.drop_one, List.tail_cons]

/-- A character that is none of `.`, `%` and `[` stands for itself. -/
theorem singlematch_iff (c : UInt8) (notClass : x ∉ ['.', '%', '[']) :
    Pattern.singlematch c (x :: rest) next = true ↔ x.toNat = c.toNat := by
  rw [Pattern.singlematch, decide_eq_true_iff, Pattern.eq_ofByte_iff]
  all_goals
    intros
    simp_all

theorem matchHere_plus (item : Pattern.isItem (x :: rest) = true)
    (isEnd : Pattern.classend (x :: rest) = .ok ('+' :: next)) :
    matchHere src s capture (x :: rest) =
      if matchesItem src s (x :: rest) ('+' :: next) then
        max_expand (fun s => matchHere src s capture next) (s + 1)
          ((src.drop (s + 1)).takeWhile fun c =>
            Pattern.singlematch c (x :: rest) ('+' :: next)).length
      else
        .ok none := by
  rw [matchHere]
  · rw [if_neg (not_digit_of_isItem item)]
    split
    next error failed =>
      rw [isEnd] at failed
      contradiction
    next ep ended =>
      obtain rfl : ep = '+' :: next := Except.ok.inj (ended.symm.trans isEnd)
      rfl
  -- an item is none of the forms that come before it
  all_goals
    intros
    simp_all [Pattern.isItem]

theorem matchHere_item (item : Pattern.isItem (x :: rest) = true)
    (isEnd : Pattern.classend (x :: rest) = .ok next)
    (once : next.headD 'a' ∉ ['?', '*', '+', '-']) :
    matchHere src s capture (x :: rest) =
      if matchesItem src s (x :: rest) next then matchHere src (s + 1) capture next
      else .ok none := by
  rw [matchHere]
  · rw [if_neg (not_digit_of_isItem item)]
    split
    next error failed =>
      rw [isEnd] at failed
      contradiction
    next ep ended =>
      obtain rfl : ep = next := Except.ok.inj (ended.symm.trans isEnd)
      dsimp only
      split
      next => simp at once
      next => simp at once
      next => simp at once
      next => simp at once
      next => rfl
  all_goals
    intros
    simp_all [Pattern.isItem]

theorem matchHere_char {c : UInt8} {tail : Bytes} (begins : src.drop s = c :: tail)
    (item : Pattern.isItem (x :: next) = true) (isEnd : Pattern.classend (x :: next) = .ok next)
    (once : next.headD 'a' ∉ ['?', '*', '+', '-']) :
    matchHere src s capture (x :: next) =
      if Pattern.singlematch c (x :: next) next then matchHere src (s + 1) capture next
      else .ok none := by
  rw [matchHere_item src s capture item isEnd once, matchesItem_cons src s begins]

/-- A character that stands for itself is matched by its byte. -/
theorem matchHere_literal {c : UInt8} {tail : Bytes} (begins : src.drop s = c :: tail)
    {byte : UInt8} (isByte : x.toNat = byte.toNat) (notClass : x ∉ ['.', '%', '['])
    (item : Pattern.isItem (x :: next) = true) (isEnd : Pattern.classend (x :: next) = .ok next)
    (once : next.headD 'a' ∉ ['?', '*', '+', '-']) :
    matchHere src s capture (x :: next) =
      if c = byte then matchHere src (s + 1) capture next else .ok none := by
  rw [matchHere_char src s capture begins item isEnd once]
  apply if_congr _ rfl rfl
  rw [singlematch_iff c notClass, isByte, UInt8.toNat_inj, eq_comm]

theorem matchHere_nil : matchHere src s capture [] = .ok (some (s, capture)) := by
  rw [matchHere]

theorem matchHere_open (notPosition : rest.headD 'a' ≠ ')')
    (room : capture.length < LUA_MAXCAPTURES) :
    matchHere src s capture ('(' :: rest) =
      matchHere src s (capture ++ [⟨s, .CAP_UNFINISHED⟩]) rest := by
  rw [matchHere]
  · rw [start_capture, if_neg (Nat.not_le.mpr room)]
  · rintro tail rfl
    exact notPosition rfl

theorem modify_concat {α : Type} (change : α → α) (front : List α) (last : α) :
    (front ++ [last]).modify front.length change = front ++ [change last] := by
  induction front with
  | nil => rfl
  | cons head front inductionHypothesis =>
      exact congrArg (List.cons head) inductionHypothesis

theorem matchHere_close (init : Nat) :
    matchHere src s (capture ++ [Capture.mk init .CAP_UNFINISHED]) (')' :: rest) =
      matchHere src s (capture ++ [Capture.mk init (.closed (s - init))]) rest := by
  have last : capture_to_close (capture ++ [Capture.mk init .CAP_UNFINISHED]) =
      .ok capture.length := by
    simp [capture_to_close, List.findIdx?_cons]
  rw [matchHere, end_capture, last]
  exact congrArg (fun capture => matchHere src s capture rest) (modify_concat _ _ _)

/-- The first try of `max_expand` decides, if the others fail where it does. -/
theorem max_expand_eq (rest : Nat → MatchResult) {i : Nat}
    (others : rest (s + i) = .ok none → ∀ j < i, rest (s + j) = .ok none) :
    max_expand rest s i = rest (s + i) := by
  induction i with
  | zero => rfl
  | succ i inductionHypothesis =>
      unfold max_expand
      cases tried : rest (s + (i + 1)) with
      | error error => rfl
      | ok result =>
          cases result with
          | some result => rfl
          | none =>
              have fails := others tried
              have earlier := inductionHypothesis fun _ j below => fails j (by omega)
              exact earlier.trans (fails i (Nat.lt_succ_self i))

end Rules

/-! ## Patterns of single characters -/

namespace Pattern

/-- Every character stands for one of the subject, and `.` for any. -/
def Simple (p : Pattern) : Prop :=
  ∀ x ∈ p, x ∉ ['^', '$', '*', '+', '?', '(', ')', '[', '%', '-']

instance (p : Pattern) : Decidable p.Simple :=
  inferInstanceAs (Decidable (∀ x ∈ p, _))

/-- The characters of the pattern are those a string begins with. -/
def fits : Pattern → Bytes → Bool
  | [], _ => true
  | _ :: _, [] => false
  | x :: p, c :: tail => (x = '.' || x.toNat = c.toNat) && fits p tail

/-- The characters of the pattern stand somewhere in a string. -/
def occurs (p : Pattern) : Bytes → Bool
  | [] => p.fits []
  | c :: tail => p.fits (c :: tail) || occurs p tail

variable {x : Char} {p : Pattern}

theorem occurs_iff {src : Bytes} :
    p.occurs src = true ↔ ∃ front back, src = front ++ back ∧ p.fits back = true := by
  induction src with
  | nil => simp [occurs]
  | cons c tail inductionHypothesis =>
      rw [occurs, Bool.or_eq_true, inductionHypothesis]
      constructor
      · rintro (here | ⟨front, back, split, fits⟩)
        · exact ⟨[], c :: tail, rfl, here⟩
        · exact ⟨c :: front, back, congrArg (List.cons c) split, fits⟩
      · rintro ⟨front, back, split, fits⟩
        cases front with
        | nil =>
            rw [List.nil_append] at split
            rw [split]
            exact .inl fits
        | cons d front =>
            rw [List.cons_append, List.cons.injEq] at split
            exact .inr ⟨front, back, split.2, fits⟩

theorem Simple.isItem (simple : Simple (x :: p)) : isItem (x :: p) = true := by
  have plain := simple x List.mem_cons_self
  rw [isItem.eq_def]
  split <;> simp_all

theorem Simple.classend (simple : Simple (x :: p)) : classend (x :: p) = .ok p := by
  have plain := simple x List.mem_cons_self
  rw [classend.eq_def]
  split <;> simp_all

theorem Simple.tail (simple : Simple (x :: p)) : p.Simple := fun y membership =>
  simple y (List.mem_cons_of_mem x membership)

theorem Simple.once (simple : Simple p) : p.headD 'a' ∉ ['?', '*', '+', '-'] := by
  cases p with
  | nil => decide
  | cons y p =>
      have plain := simple y List.mem_cons_self
      simp_all

theorem Simple.singlematch (simple : Simple (x :: p)) (c : UInt8) :
    singlematch c (x :: p) p = (x = '.' || x.toNat = c.toNat) := by
  by_cases isDot : x = '.'
  · subst isDot
    rfl
  · have plain := simple x List.mem_cons_self
    have notClass : x ∉ ['.', '%', '['] := by simp_all
    rw [Bool.eq_iff_iff, singlematch_iff c notClass]
    simp [isDot]

end Pattern

section Simple

variable (src : Bytes)

theorem matchHere_simple {p : Pattern} (simple : p.Simple) (s : Nat) (capture : List Capture) :
    matchHere src s capture p =
      .ok (if p.fits (src.drop s) then some (s + p.length, capture) else none) := by
  induction p generalizing s with
  | nil => exact matchHere_nil src s capture
  | cons x p inductionHypothesis =>
      cases begins : src.drop s with
      | nil =>
          rw [matchHere_item src s capture simple.isItem simple.classend simple.tail.once,
            matchesItem_nil src s begins]
          rfl
      | cons c tail =>
          rw [matchHere_char src s capture begins simple.isItem simple.classend simple.tail.once,
            simple.singlematch, inductionHypothesis simple.tail, drop_succ src s begins,
            Pattern.fits, List.length_cons]
          by_cases standsFor : (x = '.' || x.toNat = c.toNat) = true
          · rw [if_pos standsFor, standsFor, Bool.true_and, Nat.add_assoc, Nat.add_comm 1]
          · rw [if_neg standsFor, Bool.eq_false_of_not_eq_true standsFor, Bool.false_and]
            rfl

theorem findAttempt_simple {p : Pattern} (simple : p.Simple) (s : Nat)
    (otherwise : Except LuaValue (List LuaValue)) :
    findAttempt src p s otherwise =
      if p.fits (src.drop s) then .ok (places s (s + p.length)) else otherwise := by
  rw [findAttempt, matchHere_simple src simple]
  by_cases fits : p.fits (src.drop s) = true
  · rw [if_pos fits, if_pos fits]
    rfl
  · rw [if_neg fits, if_neg fits]
    rfl

/-- The first result is nil exactly where there is no match. -/
theorem findFrom_simple {p : Pattern} (simple : p.Simple) (s remaining : Nat)
    (inside : remaining = src.length - s) :
    ∃ results, findFrom src p false s remaining = .ok results ∧
      (results.headD .nil = .nil ↔ p.occurs (src.drop s) = false) := by
  induction remaining generalizing s with
  | zero =>
      have ended : src.drop s = [] :=
        List.drop_eq_nil_iff.mpr (Nat.sub_eq_zero_iff_le.mp inside.symm)
      rw [findFrom, findAttempt_simple src simple, ended, Pattern.occurs]
      by_cases fits : p.fits [] = true
      · rw [if_pos fits, fits]
        exact ⟨_, rfl, by simp [places]⟩
      · rw [if_neg fits, Bool.eq_false_of_not_eq_true fits]
        exact ⟨_, rfl, by simp⟩
  | succ remaining inductionHypothesis =>
      have below : s < src.length := by omega
      obtain ⟨results, found, isNil⟩ := inductionHypothesis (s + 1) (by omega)
      rw [findFrom, findAttempt_simple src simple, List.drop_eq_getElem_cons below,
        Pattern.occurs, if_neg Bool.false_ne_true]
      by_cases fits : p.fits (src[s] :: src.drop (s + 1)) = true
      · rw [if_pos fits, fits, Bool.true_or]
        exact ⟨_, rfl, by simp [places]⟩
      · rw [if_neg fits, Bool.eq_false_of_not_eq_true fits, Bool.false_or]
        exact ⟨results, found, isNil⟩

theorem str_find_simple {p : Pattern} (simple : p.Simple)
    (special : (p.all fun c => c ∉ SPECIALS) = false) :
    ∃ results, str_find src p = .ok results ∧
      (results.headD .nil = .nil ↔ p.occurs src = false) := by
  rw [str_find, special, if_neg Bool.false_ne_true]
  · exact findFrom_simple src simple 0 src.length rfl
  · rintro rest rfl
    have plain := simple '^' List.mem_cons_self
    exact absurd plain (by decide)

end Simple

end LuaEngine.Lua
