import Mathlib

/-!
# Event-driven machines

A machine is an initial state and a partial step for each event; an event that
is not enabled has no step.  Every interleaving of several threads is a list of
events, so a property of all interleavings is a property of all runs.
-/

namespace LuaEngine.System

universe u v

structure Machine (State : Type u) (Event : Type v) where
  initial : State
  step : State → Event → Option State

namespace Machine

variable {State : Type u} {Event : Type v} (machine : Machine State Event)

/-- Take the events in order, if each is enabled when its turn comes. -/
def runFrom (state : State) : List Event → Option State
  | [] => some state
  | event :: events =>
      match machine.step state event with
      | none => none
      | some next => runFrom next events

def run (events : List Event) : Option State := machine.runFrom machine.initial events

theorem runFrom_cons_eq_some {state final : State} {event : Event} {events : List Event} :
    machine.runFrom state (event :: events) = some final ↔
      ∃ next, machine.step state event = some next ∧
        machine.runFrom next events = some final := by
  rw [runFrom]
  cases machine.step state event <;> simp

theorem runFrom_append_eq_some {state final : State} {first second : List Event} :
    machine.runFrom state (first ++ second) = some final ↔
      ∃ middle, machine.runFrom state first = some middle ∧
        machine.runFrom middle second = some final := by
  induction first generalizing state with
  | nil => simp [runFrom]
  | cons event events inductionHypothesis =>
      rw [List.cons_append, runFrom_cons_eq_some]
      constructor
      · rintro ⟨next, stepped, rest⟩
        rcases inductionHypothesis.mp rest with ⟨middle, before, after⟩
        exact ⟨middle, machine.runFrom_cons_eq_some.mpr ⟨next, stepped, before⟩, after⟩
      · rintro ⟨middle, before, after⟩
        rcases machine.runFrom_cons_eq_some.mp before with ⟨next, stepped, rest⟩
        exact ⟨next, stepped, inductionHypothesis.mpr ⟨middle, rest, after⟩⟩

/-- What holds before any event, and is carried over by every step, holds of
every run and the state it reaches. -/
theorem runFrom_induction {motive : List Event → State → Prop} {start : State}
    (initially : motive [] start)
    (step : ∀ events state event next, motive events state →
      machine.step state event = some next → motive (events ++ [event]) next)
    {events : List Event} {state : State}
    (reached : machine.runFrom start events = some state) : motive events state := by
  induction events using List.reverseRecOn generalizing state with
  | nil =>
      rw [runFrom, Option.some.injEq] at reached
      rw [← reached]
      exact initially
  | append_singleton events event inductionHypothesis =>
      rcases machine.runFrom_append_eq_some.mp reached with ⟨middle, before, last⟩
      rcases machine.runFrom_cons_eq_some.mp last with ⟨next, stepped, rest⟩
      rw [runFrom, Option.some.injEq] at rest
      rw [← rest]
      exact step events middle event next (inductionHypothesis before) stepped

theorem run_induction {motive : List Event → State → Prop}
    (initially : motive [] machine.initial)
    (step : ∀ events state event next, motive events state →
      machine.step state event = some next → motive (events ++ [event]) next)
    {events : List Event} {state : State}
    (reached : machine.run events = some state) : motive events state :=
  machine.runFrom_induction initially step reached

/-- Where every step makes a measure smaller, no sequence of events goes on for ever. -/
theorem exists_stop (measure : State → Nat)
    (decreases : ∀ state event next, machine.step state event = some next →
      measure next < measure state) (events : Nat → Event) (start : State) :
    ∃ n final, machine.runFrom start ((List.range n).map events) = some final ∧
      machine.step final (events n) = none := by
  induction bound : measure start using Nat.strong_induction_on generalizing start events with
  | _ size inductionHypothesis =>
      cases stepped : machine.step start (events 0) with
      | none => exact ⟨0, start, rfl, stepped⟩
      | some next =>
          have smaller := decreases start (events 0) next stepped
          rw [bound] at smaller
          obtain ⟨n, final, reached, stops⟩ :=
            inductionHypothesis (measure next) smaller (fun i => events (i + 1)) next rfl
          refine ⟨n + 1, final, ?_, stops⟩
          rw [List.range_succ_eq_map, List.map_cons, List.map_map]
          exact machine.runFrom_cons_eq_some.mpr ⟨next, stepped, reached⟩

section Guard

variable (guard : State → Event → Prop)

/-- Every step the events take from a state meets a guard on the state before
it. -/
def MeetsFrom (state : State) : List Event → Prop
  | [] => True
  | event :: events =>
      guard state event ∧
        match machine.step state event with
        | none => True
        | some next => MeetsFrom next events

variable {guard}

instance decidableMeetsFrom [∀ state event, Decidable (guard state event)] :
    ∀ state events, Decidable (machine.MeetsFrom guard state events)
  | _, [] => isTrue trivial
  | state, event :: events =>
      have : Decidable (match machine.step state event with
          | none => True
          | some next => machine.MeetsFrom guard next events) :=
        match machine.step state event with
        | none => isTrue trivial
        | some next => decidableMeetsFrom next events
      inferInstanceAs (Decidable (guard state event ∧ _))

/-- What the steps that meet the guard preserve holds after every run of such
steps. -/
theorem runFrom_invariant (invariant : State → Prop)
    (step : ∀ state event next, invariant state → guard state event →
      machine.step state event = some next → invariant next)
    {start final : State} {events : List Event} (initially : invariant start)
    (guarded : machine.MeetsFrom guard start events)
    (reached : machine.runFrom start events = some final) : invariant final := by
  induction events generalizing start with
  | nil =>
      rw [runFrom, Option.some.injEq] at reached
      rw [← reached]
      exact initially
  | cons event events inductionHypothesis =>
      obtain ⟨next, stepped, later⟩ := machine.runFrom_cons_eq_some.mp reached
      rw [MeetsFrom, stepped] at guarded
      obtain ⟨met, onwards⟩ := guarded
      apply inductionHypothesis
      · exact step start event next initially met stepped
      · exact onwards
      · exact later

/-- Steps that meet one guard keep an invariant under which they meet the other. -/
theorem meetsFrom_of_invariant {weaker : State → Event → Prop} (invariant : State → Prop)
    (step : ∀ state event next, invariant state → guard state event →
      machine.step state event = some next → invariant next)
    (met : ∀ state event, invariant state → guard state event → weaker state event)
    {start : State} {events : List Event} (initially : invariant start)
    (guarded : machine.MeetsFrom guard start events) :
    machine.MeetsFrom weaker start events := by
  induction events generalizing start with
  | nil => trivial
  | cons event events inductionHypothesis =>
      obtain ⟨first, onwards⟩ := guarded
      refine ⟨met start event initially first, ?_⟩
      cases stepped : machine.step start event with
      | none => trivial
      | some next =>
          rw [stepped] at onwards
          exact inductionHypothesis (step start event next initially first stepped) onwards

/-- Where a step that meets the guard is enabled and carries on what holds of the events
before it, so does every run of such steps.  The last event stands first. -/
theorem runFrom_history {motive : List Event → State → Prop}
    (step : ∀ history state event, motive history state → guard state event →
      ∃ next, machine.step state event = some next ∧ motive (event :: history) next)
    {start : State} {history events : List Event} (initially : motive history start)
    (guarded : machine.MeetsFrom guard start events) :
    ∃ final, machine.runFrom start events = some final ∧
      motive (events.reverse ++ history) final := by
  induction events generalizing start history with
  | nil => exact ⟨start, rfl, initially⟩
  | cons event events inductionHypothesis =>
      obtain ⟨met, onwards⟩ := guarded
      obtain ⟨next, stepped, holds⟩ := step history start event initially met
      rw [stepped] at onwards
      obtain ⟨final, reached, carried⟩ := inductionHypothesis holds onwards
      refine ⟨final, machine.runFrom_cons_eq_some.mpr ⟨next, stepped, reached⟩, ?_⟩
      rw [List.reverse_cons, List.append_assoc]
      exact carried

/-- A guard that only asks something of the event, in every state that satisfies
an invariant of all steps. -/
theorem meetsFrom_iff (invariant : State → Prop) {condition : Event → Prop}
    (decided : ∀ state event, invariant state → (guard state event ↔ condition event))
    (step : ∀ state event, invariant state →
      ∃ next, machine.step state event = some next ∧ invariant next)
    {start : State} (events : List Event) (initially : invariant start) :
    machine.MeetsFrom guard start events ↔ ∀ event ∈ events, condition event := by
  induction events generalizing start with
  | nil => simp [MeetsFrom]
  | cons event events inductionHypothesis =>
      obtain ⟨next, stepped, holds⟩ := step start event initially
      rw [MeetsFrom, decided start event initially, List.forall_mem_cons,
        ← inductionHypothesis holds, stepped]

end Guard

end Machine

end LuaEngine.System
