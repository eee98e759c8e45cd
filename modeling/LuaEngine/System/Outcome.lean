import Mathlib

/-!
# Computations that return, raise or go on

A computation of a script ends with a value or with an error, and either way
with the state it has made by then.  Recursion is bounded by fuel, and a
computation that needs more than it is given is unfinished.
-/

namespace LuaEngine.System

inductive Outcome (State Error α : Type) where
  | returned (value : α) (state : State)
  | raised (error : Error) (state : State)
  | unfinished
  deriving DecidableEq

/-- What is asked of each way to end. -/
structure Postcondition (State Error α : Type) where
  returned : α → State → Prop
  raised : Error → State → Prop
  unfinished : Prop

variable {State Error α β : Type}

namespace Outcome

def Meets (outcome : Outcome State Error α) (post : Postcondition State Error α) : Prop :=
  match outcome with
  | returned value state => post.returned value state
  | raised error state => post.raised error state
  | unfinished => post.unfinished

/-- The state at the end, if there is one. -/
def final : Outcome State Error α → Option State
  | returned _ state => some state
  | raised _ state => some state
  | unfinished => none

theorem final_eq_none {outcome : Outcome State Error α} :
    outcome.final = none ↔ outcome = unfinished := by
  cases outcome <;> simp [final]

theorem Meets.consequence {outcome : Outcome State Error α}
    {stronger weaker : Postcondition State Error α} (meets : outcome.Meets stronger)
    (returned : ∀ value state, stronger.returned value state → weaker.returned value state)
    (raised : ∀ error state, stronger.raised error state → weaker.raised error state)
    (unfinished : stronger.unfinished → weaker.unfinished) : outcome.Meets weaker := by
  cases outcome with
  | returned value state => exact returned value state meets
  | raised error state => exact raised error state meets
  | unfinished => exact unfinished meets

/-- A weaker condition on what is returned. -/
theorem Meets.weaken {outcome : Outcome State Error α} {post : Postcondition State Error α}
    {returned : α → State → Prop} (meets : outcome.Meets post)
    (weaker : ∀ value state, post.returned value state → returned value state) :
    outcome.Meets ⟨returned, post.raised, post.unfinished⟩ :=
  meets.consequence weaker (fun _ _ raised => raised) id

theorem Meets.of_final {outcome : Outcome State Error α} {holds : State → Prop}
    {unfinished : Prop} (meets : outcome.Meets ⟨fun _ => holds, fun _ => holds, unfinished⟩)
    {state : State} (ended : outcome.final = some state) : holds state := by
  cases outcome with
  | returned value final =>
      rw [Outcome.final, Option.some.injEq] at ended
      rw [← ended]
      exact meets
  | raised error final =>
      rw [Outcome.final, Option.some.injEq] at ended
      rw [← ended]
      exact meets
  | unfinished => contradiction

/-- A computation that neither raises nor is cut off returns. -/
theorem Meets.returns {outcome : Outcome State Error α}
    {post : Postcondition State Error α} (meets : outcome.Meets post)
    (neverRaised : ∀ error state, ¬ post.raised error state)
    (neverUnfinished : ¬ post.unfinished) :
    ∃ value state, outcome = returned value state ∧ post.returned value state := by
  cases outcome with
  | returned value state => exact ⟨value, state, rfl, meets⟩
  | raised error state => exact absurd meets (neverRaised error state)
  | unfinished => exact absurd meets neverUnfinished

end Outcome

structure Program (State Error α : Type) where
  run : State → Outcome State Error α

namespace Program

instance : Monad (Program State Error) where
  pure value := ⟨fun state => .returned value state⟩
  bind program next := ⟨fun state =>
    match program.run state with
    | .returned value middle => (next value).run middle
    | .raised error middle => .raised error middle
    | .unfinished => .unfinished⟩

def get : Program State Error State := ⟨fun state => .returned state state⟩

def modify (change : State → State) : Program State Error Unit :=
  ⟨fun state => .returned () (change state)⟩

def raise (error : Error) : Program State Error α := ⟨fun state => .raised error state⟩

def unfinished : Program State Error α := ⟨fun _ => .unfinished⟩

/-- A step that reads and writes no state. -/
def lift : Except Error α → Program State Error α
  | .ok value => pure value
  | .error error => raise error

/-- A program on a part of the state. -/
def focus {Part : Type} (part : State → Part) (replace : Part → State → State)
    (program : Program Part Error α) : Program State Error α :=
  ⟨fun state =>
    match program.run (part state) with
    | .returned value final => .returned value (replace final state)
    | .raised error final => .raised error (replace final state)
    | .unfinished => .unfinished⟩

/-- The body of a loop for each element in turn. -/
def forEach (body : α → Program State Error Unit) : List α → Program State Error Unit
  | [] => pure ()
  | element :: elements => do
      body element
      forEach body elements

theorem run_bind {program : Program State Error α} {next : α → Program State Error β}
    {value : α} {state middle : State} (first : program.run state = .returned value middle) :
    (program >>= next).run state = (next value).run middle := by
  simp only [bind, first]

section Rules

variable {state : State} {post : Postcondition State Error α}

@[simp]
theorem pure_meets {value : α} :
    ((pure value : Program State Error α).run state).Meets post ↔
      post.returned value state := Iff.rfl

@[simp]
theorem get_meets {post : Postcondition State Error State} :
    (get.run state).Meets post ↔ post.returned state state := Iff.rfl

@[simp]
theorem modify_meets {change : State → State} {post : Postcondition State Error Unit} :
    ((modify change).run state).Meets post ↔ post.returned () (change state) := Iff.rfl

@[simp]
theorem raise_meets {error : Error} :
    ((raise error).run state).Meets post ↔ post.raised error state := Iff.rfl

@[simp]
theorem lift_ok {value : α} :
    (lift (.ok value) : Program State Error α) = pure value := rfl

@[simp]
theorem lift_error {error : Error} :
    (lift (.error error) : Program State Error α) = raise error := rfl

@[simp]
theorem bind_meets {program : Program State Error α} {next : α → Program State Error β}
    {post : Postcondition State Error β} :
    ((program >>= next).run state).Meets post ↔
      (program.run state).Meets
        ⟨fun value middle => ((next value).run middle).Meets post, post.raised,
          post.unfinished⟩ := by
  change Outcome.Meets (match program.run state with
    | .returned value middle => (next value).run middle
    | .raised error middle => .raised error middle
    | .unfinished => .unfinished) post ↔ _
  cases program.run state <;> exact Iff.rfl

theorem focus_meets {Part : Type} {part : State → Part} {replace : Part → State → State}
    {program : Program Part Error α} :
    ((focus part replace program).run state).Meets post ↔
      (program.run (part state)).Meets
        ⟨fun value final => post.returned value (replace final state),
          fun error final => post.raised error (replace final state), post.unfinished⟩ := by
  unfold focus
  dsimp only
  cases program.run (part state) <;> exact Iff.rfl

end Rules

/-- What one iteration carries from the elements behind it to one more is carried
through the whole loop. -/
theorem forEach_meets {body : α → Program State Error Unit}
    {motive : List α → State → Prop} {raised : Error → State → Prop} {unfinished : Prop}
    {elements : List α} {state : State} (initially : motive [] state)
    (iteration : ∀ done element rest, elements = done ++ element :: rest →
      ∀ state, motive done state → ((body element).run state).Meets
        ⟨fun _ next => motive (done ++ [element]) next, raised, unfinished⟩) :
    ((forEach body elements).run state).Meets
      ⟨fun _ final => motive elements final, raised, unfinished⟩ := by
  suffices onwards : ∀ done rest, elements = done ++ rest → ∀ state, motive done state →
      ((forEach body rest).run state).Meets
        ⟨fun _ final => motive elements final, raised, unfinished⟩ from
    onwards [] elements rfl state initially
  intro done rest split
  induction rest generalizing done with
  | nil =>
      intro state holds
      rw [List.append_nil] at split
      rw [split]
      exact holds
  | cons element rest inductionHypothesis =>
      intro state holds
      apply bind_meets.mpr
      apply (iteration done element rest split state holds).weaken
      intro _ next carried
      apply inductionHypothesis (done ++ [element])
      · simpa using split
      · exact carried

/-- What the program leaves true, however it ends. -/
def Keeps (holds : State → Prop) (program : Program State Error α) : Prop :=
  ∀ state, holds state →
    (program.run state).Meets ⟨fun _ final => holds final, fun _ final => holds final, True⟩

section Keeps

variable {holds : State → Prop}

theorem keeps_pure (value : α) : (pure value : Program State Error α).Keeps holds :=
  fun _ before => before

theorem keeps_get : (get : Program State Error State).Keeps holds := fun _ before => before

theorem keeps_lift (step : Except Error α) : (lift step).Keeps holds := by
  intro state before
  cases step with
  | ok value => exact before
  | error error => exact before

theorem keeps_raise (error : Error) : (raise error : Program State Error α).Keeps holds :=
  fun _ before => before

theorem keeps_unfinished : (unfinished : Program State Error α).Keeps holds :=
  fun _ _ => trivial

theorem Keeps.bind {program : Program State Error α} {next : α → Program State Error β}
    (first : program.Keeps holds) (later : ∀ value, (next value).Keeps holds) :
    (program >>= next).Keeps holds := by
  intro state before
  apply bind_meets.mpr
  apply (first state before).weaken
  intro value middle carried
  exact later value middle carried

theorem Keeps.forEach {body : α → Program State Error Unit}
    (iteration : ∀ element, (body element).Keeps holds) (elements : List α) :
    (forEach body elements).Keeps holds := by
  induction elements with
  | nil => exact keeps_pure ()
  | cons element elements inductionHypothesis =>
      exact (iteration element).bind fun _ => inductionHypothesis

end Keeps

theorem forEach_append (body : α → Program State Error Unit) (first second : List α)
    {state : State} {post : Postcondition State Error Unit} :
    ((forEach body (first ++ second)).run state).Meets post ↔
      ((forEach body first).run state).Meets
        ⟨fun _ middle => ((forEach body second).run middle).Meets post, post.raised,
          post.unfinished⟩ := by
  induction first generalizing state with
  | nil => exact Iff.rfl
  | cons element first inductionHypothesis =>
      simp only [List.cons_append, forEach, bind_meets, inductionHypothesis]

end Program

end LuaEngine.System
