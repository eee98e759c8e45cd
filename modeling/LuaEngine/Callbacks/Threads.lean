import LuaEngine.Callbacks.Callback
import LuaEngine.System.Segment

/-!
# Two threads on one Lua state

The event loop runs `onNewConnection` and the handler thread `onMessage`, and
both are bound to the same `lua_State`.  Neither takes a lock, so the API calls
of the one may come between those of the other.
-/

namespace LuaEngine.Callbacks

open LuaEngine.Lua LuaEngine.System

inductive Thread where
  | eventLoop
  | handler
  deriving DecidableEq

def Callback.thread : Callback → Thread
  | .onMessage _ _ => .handler
  | .onNewConnection _ => .eventLoop

structure Running where
  callback : Callback
  /-- How many of its API calls it has made. -/
  done : Nat
  /-- The height of the stack after the last of them. -/
  top : Nat
  deriving DecidableEq

def Running.base (current : Running) : Nat := current.top - current.done

def Running.afterPush (current : Running) (height : Nat) : Running :=
  ⟨current.callback, current.done + 1, height + 1⟩

@[simp]
theorem Running.afterPush_base (current : Running) (height : Nat) :
    (current.afterPush height).base = height - current.done :=
  Nat.add_sub_add_right ..

structure SharedState where
  L : LuaState
  running : Thread → Option Running
  /-- The protected calls so far, each with the callback that made it. -/
  calls : List (Callback × ProtectedCall)

inductive ThreadEvent where
  | enter (callback : Callback)
  /-- The next API call of the callback under way; what a function of the script
  does may differ from one call to the next. -/
  | api (thread : Thread) (script : Script)

namespace SharedState

/-- A thread runs one callback at a time. -/
def enter (shared : SharedState) (callback : Callback) : Option SharedState :=
  match shared.running callback.thread with
  | some _ => none
  | none =>
      some { shared with
        running := Function.update shared.running callback.thread (some ⟨callback, 0, 0⟩) }

/-- After its last API call the callback returns. -/
def api (registered : Registered) (shared : SharedState) (thread : Thread)
    (script : Script) : Option SharedState :=
  match shared.running thread with
  | none => none
  | some current =>
      match (current.callback.api registered)[current.done]? with
      | none => none
      | some api =>
          match shared.L.exec { registered.environment with script := script } api with
          | none => none
          | some (L, call) =>
              some {
                L := L
                running := Function.update shared.running thread
                  (if current.done + 1 < (current.callback.api registered).length then
                    some ⟨current.callback, current.done + 1, L.stack.length⟩
                  else
                    none)
                calls := shared.calls ++ call.toList.map fun call => (current.callback, call) }

def step (registered : Registered) (shared : SharedState) : ThreadEvent → Option SharedState
  | .enter callback => shared.enter callback
  | .api thread script => shared.api registered thread script

def afterPush (shared : SharedState) (thread : Thread) (current : Running)
    (value : LuaValue) : SharedState :=
  { shared with
    L := shared.L.push value
    running := Function.update shared.running thread
      (some (current.afterPush shared.L.stack.length)) }

def afterCall (shared : SharedState) (thread : Thread) (current : Running) (L : LuaState)
    (call : ProtectedCall) : SharedState where
  L := L
  running := Function.update shared.running thread none
  calls := shared.calls ++ [(current.callback, call)]

@[simp]
theorem afterPush_running (shared : SharedState) (thread other : Thread) (current : Running)
    (value : LuaValue) :
    (shared.afterPush thread current value).running other =
      if other = thread then some (current.afterPush shared.L.stack.length)
      else shared.running other :=
  Function.update_apply ..

@[simp]
theorem afterCall_running (shared : SharedState) (thread other : Thread) (current : Running)
    (L : LuaState) (call : ProtectedCall) :
    (shared.afterCall thread current L call).running other =
      if other = thread then none else shared.running other :=
  Function.update_apply ..

theorem api_cases {registered : Registered} {shared next : SharedState} {thread : Thread}
    {script : Script} (stepped : shared.api registered thread script = some next) :
    ∃ current, shared.running thread = some current ∧
      ((∃ remaining : current.done < (current.callback.pushes registered).length,
          next = shared.afterPush thread current
            (current.callback.pushes registered)[current.done]) ∨
        (current.done = (current.callback.pushes registered).length ∧
          ∃ L call, shared.L.lua_pcall { registered.environment with script := script }
              current.callback.arguments.length 0 1 = some (L, call) ∧
            next = shared.afterCall thread current L call)) := by
  unfold api at stepped
  cases active : shared.running thread with
  | none => simp [active] at stepped
  | some current =>
      refine ⟨current, rfl, ?_⟩
      have length := current.callback.length_api registered
      simp only [active] at stepped
      rcases lt_trichotomy current.done (current.callback.pushes registered).length with
        remaining | last | past
      · obtain ⟨api, found, executed⟩ :=
          current.callback.exec_api_push registered script shared.L remaining
        have more : current.done + 1 < (current.callback.api registered).length := by omega
        simp only [found, executed, if_pos more, Option.some.injEq] at stepped
        refine .inl ⟨remaining, ?_⟩
        rw [← stepped]
        simp [afterPush, Running.afterPush]
      · have found := current.callback.api_pcall registered
        rw [← last] at found
        have finished : ¬ current.done + 1 < (current.callback.api registered).length := by
          omega
        refine .inr ⟨last, ?_⟩
        simp only [found, LuaState.exec, if_neg finished] at stepped
        cases called : shared.L.lua_pcall { registered.environment with script := script }
            current.callback.arguments.length 0 1 with
        | none => simp [called] at stepped
        | some outcome =>
            obtain ⟨L, call⟩ := outcome
            simp only [called, Option.map_some, Option.some.injEq] at stepped
            exact ⟨L, call, rfl, stepped.symm⟩
      · have none : (current.callback.api registered)[current.done]? = none := by
          apply List.getElem?_eq_none
          omega
        simp [none] at stepped

end SharedState

/-- Both threads over a Lua state whose running C function is `startServer`. -/
def threadMachine (registered : Registered) (frame : LuaState) :
    Machine SharedState ThreadEvent where
  initial := ⟨frame, fun _ => none, []⟩
  step := SharedState.step registered

/-- A thread that has begun to push goes on only when the stack is as high as it
left it. -/
def Undisturbed (shared : SharedState) : ThreadEvent → Prop
  | .enter _ => True
  | .api thread _ =>
      ∀ current ∈ shared.running thread,
        current.done = 0 ∨ shared.L.stack.length = current.top

instance (shared : SharedState) : ∀ event, Decidable (Undisturbed shared event)
  | .enter _ => isTrue trivial
  | .api thread _ =>
      inferInstanceAs (Decidable (∀ current ∈ shared.running thread,
        current.done = 0 ∨ shared.L.stack.length = current.top))

/-- Every protected call is of the function registered for the callback that
makes it, with the strings of that callback. -/
def CallsOwn (registered : Registered) (shared : SharedState) : Prop :=
  ∀ entry ∈ shared.calls,
    entry.2.func = entry.1.func registered ∧ entry.2.arguments = entry.1.arguments

/-- What a callback has pushed is still where it pushed it. -/
structure Holds (registered : Registered) (stack : List LuaValue) (current : Running) :
    Prop where
  begun : 0 < current.done
  pushed : current.done ≤ (current.callback.pushes registered).length
  height : current.done ≤ current.top
  segment : Segment stack current.base ((current.callback.pushes registered).take current.done)

namespace Holds

variable {registered : Registered} {stack : List LuaValue} {current : Running}

theorem top_le (holds : Holds registered stack current) : current.top ≤ stack.length := by
  have segment := holds.segment.top_le
  have pushed := holds.pushed
  have height := holds.height
  rw [List.length_take, Running.base] at segment
  omega

theorem append (holds : Holds registered stack current) (more : List LuaValue) :
    Holds registered (stack ++ more) current :=
  { holds with segment := holds.segment.append more }

theorem replace {lower upper : List LuaValue}
    (holds : Holds registered (lower ++ upper) current)
    (under : current.top ≤ lower.length) (other : List LuaValue) :
    Holds registered (lower ++ other) current := by
  refine { holds with segment := holds.segment.replace ?_ other }
  have pushed := holds.pushed
  have height := holds.height
  rw [List.length_take, Running.base]
  omega

end Holds

/-- Of two callbacks under way one has all its values below those of the other. -/
def Apart (current rival : Running) : Prop :=
  rival.top ≤ current.base ∨ current.top ≤ rival.base

structure InPlace (registered : Registered) (shared : SharedState) : Prop where
  holds : ∀ thread current, shared.running thread = some current → 0 < current.done →
    Holds registered shared.L.stack current
  apart : ∀ thread other current rival, thread ≠ other →
    shared.running thread = some current → shared.running other = some rival →
    0 < current.done → 0 < rival.done → Apart current rival
  own : CallsOwn registered shared

namespace InPlace

variable {registered : Registered} {shared next : SharedState} {thread : Thread}
  {current : Running}

theorem initially (registered : Registered) (frame : LuaState) :
    InPlace registered (threadMachine registered frame).initial where
  holds thread current active := by contradiction
  apart thread other current rival different active := by contradiction
  own entry membership := by contradiction

theorem on_top (inPlace : InPlace registered shared)
    (active : shared.running thread = some current)
    (undisturbed : current.done = 0 ∨ shared.L.stack.length = current.top) :
    current.done ≤ shared.L.stack.length ∧
      Segment shared.L.stack (shared.L.stack.length - current.done)
        ((current.callback.pushes registered).take current.done) := by
  rcases Nat.eq_zero_or_pos current.done with none | begun
  · rw [none]
    exact ⟨Nat.zero_le _, Segment.empty _⟩
  · have holds := inPlace.holds thread current active begun
    have top : shared.L.stack.length = current.top := by
      rcases undisturbed with none | top
      · omega
      · exact top
    rw [top]
    exact ⟨holds.height, holds.segment⟩

/-- Undisturbed, all the values of another callback are below. -/
theorem rival_below (inPlace : InPlace registered shared)
    (active : shared.running thread = some current)
    (undisturbed : current.done = 0 ∨ shared.L.stack.length = current.top)
    {other : Thread} {rival : Running} (different : other ≠ thread)
    (rivalActive : shared.running other = some rival) (rivalBegun : 0 < rival.done) :
    rival.top ≤ shared.L.stack.length - current.done := by
  have holds := inPlace.holds other rival rivalActive rivalBegun
  have under := holds.top_le
  have height := holds.height
  rcases Nat.eq_zero_or_pos current.done with none | begun
  · rw [none]
    exact under
  · have apart := inPlace.apart thread other current rival different.symm active rivalActive
      begun rivalBegun
    rcases undisturbed with none | top
    · omega
    · rcases apart with below | above
      · unfold Running.base at below
        omega
      · unfold Running.base at above
        omega

theorem afterEnter {callback : Callback} (inPlace : InPlace registered shared)
    (stepped : shared.enter callback = some next) : InPlace registered next := by
  unfold SharedState.enter at stepped
  split at stepped
  next => contradiction
  next idle =>
    obtain rfl := Option.some.inj stepped
    have begun : ∀ thread current,
        Function.update shared.running callback.thread (some ⟨callback, 0, 0⟩) thread =
          some current → 0 < current.done → shared.running thread = some current := by
      intro thread current active begun
      by_cases same : thread = callback.thread
      · subst thread
        rw [Function.update_self, Option.some.injEq] at active
        rw [← active] at begun
        contradiction
      · rwa [Function.update_of_ne same] at active
    constructor
    · intro thread current active positive
      exact inPlace.holds thread current (begun thread current active positive) positive
    · intro thread other current rival different active rivalActive positive rivalPositive
      exact inPlace.apart thread other current rival different
        (begun thread current active positive)
        (begun other rival rivalActive rivalPositive) positive rivalPositive
    · exact inPlace.own

theorem afterPush (inPlace : InPlace registered shared)
    (active : shared.running thread = some current)
    (undisturbed : current.done = 0 ∨ shared.L.stack.length = current.top)
    (remaining : current.done < (current.callback.pushes registered).length) :
    InPlace registered (shared.afterPush thread current
      (current.callback.pushes registered)[current.done]) := by
  obtain ⟨height, segment⟩ := inPlace.on_top active undisturbed
  have below : ∀ other rival, other ≠ thread → shared.running other = some rival →
      0 < rival.done → rival.top ≤ (current.afterPush shared.L.stack.length).base := by
    intro other rival different rivalActive rivalBegun
    rw [Running.afterPush_base]
    exact inPlace.rival_below active undisturbed different rivalActive rivalBegun
  constructor
  · intro other rival rivalActive rivalBegun
    rw [SharedState.afterPush_running] at rivalActive
    split at rivalActive
    next =>
      obtain rfl := Option.some.inj rivalActive
      refine ⟨rivalBegun, remaining, Nat.succ_le_succ height, ?_⟩
      rw [Running.afterPush_base, Running.afterPush, ← List.take_append_getElem remaining]
      apply segment.push
      rw [List.length_take]
      omega
    next => exact (inPlace.holds other rival rivalActive rivalBegun).append _
  · intro first second firstRunning secondRunning different firstActive secondActive
      firstBegun secondBegun
    rw [SharedState.afterPush_running] at firstActive secondActive
    split at firstActive
    next same =>
      have secondOther : second ≠ thread := by
        rw [← same]
        exact different.symm
      obtain rfl := Option.some.inj firstActive
      rw [if_neg secondOther] at secondActive
      exact .inl (below second secondRunning secondOther secondActive secondBegun)
    next firstOther =>
      split at secondActive
      next =>
        obtain rfl := Option.some.inj secondActive
        exact .inr (below first firstRunning firstOther firstActive firstBegun)
      next =>
        exact inPlace.apart first second firstRunning secondRunning different firstActive
          secondActive firstBegun secondBegun
  · exact inPlace.own

theorem afterCall (inPlace : InPlace registered shared)
    (active : shared.running thread = some current)
    (undisturbed : current.done = 0 ∨ shared.L.stack.length = current.top)
    (last : current.done = (current.callback.pushes registered).length)
    {L : LuaState} {call : ProtectedCall}
    {script : Script} (called : shared.L.lua_pcall
      { registered.environment with script := script }
      current.callback.arguments.length 0 1 = some (L, call)) :
    InPlace registered (shared.afterCall thread current L call) := by
  have earlier : ∀ other rival,
      (shared.afterCall thread current L call).running other = some rival →
        other ≠ thread ∧ shared.running other = some rival := by
    intro other rival rivalActive
    rw [SharedState.afterCall_running] at rivalActive
    split at rivalActive
    next => contradiction
    next different => exact ⟨different, rivalActive⟩
  obtain ⟨height, segment⟩ := inPlace.on_top active undisturbed
  rw [last, List.take_length] at segment
  obtain ⟨below, stack, length⟩ := segment.eq_append (by omega)
  rw [LuaState.lua_pcall_eq shared.L _ 0 1 stack, Option.some.injEq,
    Prod.mk.injEq] at called
  obtain ⟨rfl, rfl⟩ := called
  constructor
  · intro other rival rivalActive rivalBegun
    obtain ⟨different, rivalEarlier⟩ := earlier other rival rivalActive
    have under := inPlace.rival_below active undisturbed different rivalEarlier rivalBegun
    have holds := inPlace.holds other rival rivalEarlier rivalBegun
    rw [stack] at holds
    apply holds.replace
    rw [length, ← last]
    exact under
  · intro first second firstRunning secondRunning different firstActive secondActive
    exact inPlace.apart first second firstRunning secondRunning different
      (earlier first firstRunning firstActive).2 (earlier second secondRunning secondActive).2
  · intro entry membership
    rw [SharedState.afterCall, List.mem_append, List.mem_singleton] at membership
    rcases membership with before | rfl
    · exact inPlace.own entry before
    · exact ⟨rfl, rfl⟩

theorem step {event : ThreadEvent} (inPlace : InPlace registered shared)
    (undisturbed : Undisturbed shared event)
    (stepped : shared.step registered event = some next) : InPlace registered next := by
  cases event with
  | enter callback => exact inPlace.afterEnter stepped
  | api thread script =>
      obtain ⟨current, active, pushes | calls⟩ := SharedState.api_cases stepped
      · obtain ⟨remaining, rfl⟩ := pushes
        exact inPlace.afterPush active (undisturbed current active) remaining
      · obtain ⟨last, L, call, called, rfl⟩ := calls
        exact inPlace.afterCall active (undisturbed current active) last called

end InPlace

/-! ## One callback at a time -/

/-- A callback begins only when the other thread is in none. -/
def Exclusive (shared : SharedState) : ThreadEvent → Prop
  | .enter _ => ∀ thread, shared.running thread = none
  | .api _ _ => True

/-- The callback under way, if there is one, was the last to touch the stack. -/
structure Alone (shared : SharedState) : Prop where
  only : ∀ thread other current rival, shared.running thread = some current →
    shared.running other = some rival → thread = other
  top : ∀ thread current, shared.running thread = some current →
    current.done = 0 ∨ shared.L.stack.length = current.top

namespace Alone

variable {registered : Registered} {shared next : SharedState} {thread : Thread}
  {current : Running}

theorem afterEnter {callback : Callback} (exclusive : Exclusive shared (.enter callback))
    (stepped : shared.enter callback = some next) : Alone next := by
  rw [SharedState.enter, exclusive callback.thread] at stepped
  obtain rfl := Option.some.inj stepped
  have entered : ∀ thread current,
      Function.update shared.running callback.thread (some ⟨callback, 0, 0⟩) thread =
        some current → thread = callback.thread ∧ current = ⟨callback, 0, 0⟩ := by
    intro thread current active
    rw [Function.update_apply, exclusive thread] at active
    split at active
    next same => exact ⟨same, (Option.some.inj active).symm⟩
    next => contradiction
  constructor
  · intro thread other current rival active rivalActive
    rw [(entered thread current active).1, (entered other rival rivalActive).1]
  · intro thread current active
    rw [(entered thread current active).2]
    exact .inl rfl

theorem afterPush (alone : Alone shared) (active : shared.running thread = some current)
    (value : LuaValue) : Alone (shared.afterPush thread current value) := by
  have own : ∀ other rival,
      (shared.afterPush thread current value).running other = some rival →
        other = thread ∧ rival = current.afterPush shared.L.stack.length := by
    intro other rival rivalActive
    rw [SharedState.afterPush_running] at rivalActive
    split at rivalActive
    next same => exact ⟨same, (Option.some.inj rivalActive).symm⟩
    next different =>
      exact absurd (alone.only other thread rival current rivalActive active) different
  constructor
  · intro first second firstRunning secondRunning firstActive secondActive
    rw [(own first firstRunning firstActive).1, (own second secondRunning secondActive).1]
  · intro other rival rivalActive
    rw [(own other rival rivalActive).2]
    apply Or.inr
    exact List.length_append ..

theorem afterCall (alone : Alone shared) (active : shared.running thread = some current)
    (L : LuaState) (call : ProtectedCall) :
    Alone (shared.afterCall thread current L call) := by
  have none : ∀ other rival,
      (shared.afterCall thread current L call).running other ≠ some rival := by
    intro other rival rivalActive
    rw [SharedState.afterCall_running] at rivalActive
    split at rivalActive
    next => contradiction
    next different =>
      exact different (alone.only other thread rival current rivalActive active)
  constructor
  · intro first second firstRunning secondRunning firstActive
    exact absurd firstActive (none first firstRunning)
  · intro other rival rivalActive
    exact absurd rivalActive (none other rival)

theorem step {event : ThreadEvent} (alone : Alone shared) (exclusive : Exclusive shared event)
    (stepped : shared.step registered event = some next) : Alone next := by
  cases event with
  | enter callback => exact afterEnter exclusive stepped
  | api thread script =>
      obtain ⟨current, active, pushes | calls⟩ := SharedState.api_cases stepped
      · obtain ⟨remaining, rfl⟩ := pushes
        exact alone.afterPush active _
      · obtain ⟨last, L, call, called, rfl⟩ := calls
        exact alone.afterCall active L call

end Alone

/-- A lock held from the first API call of a callback to its last is enough. -/
theorem undisturbed_of_exclusive (registered : Registered) (frame : LuaState)
    (events : List ThreadEvent)
    (exclusive : (threadMachine registered frame).MeetsFrom Exclusive
      (threadMachine registered frame).initial events) :
    (threadMachine registered frame).MeetsFrom Undisturbed
      (threadMachine registered frame).initial events := by
  refine (threadMachine registered frame).meetsFrom_of_invariant Alone
    (fun _ _ _ alone met stepped => alone.step met stepped) ?_ ?_ exclusive
  · intro shared event alone _
    cases event with
    | enter callback => trivial
    | api thread script => exact fun current active => alone.top thread current active
  · constructor
    · intro thread other current rival active
      contradiction
    · intro thread current active
      contradiction

/-! ## Undisturbed runs -/

/-- In a run in which no thread is disturbed every callback calls its own
function with its own strings. -/
theorem callsOwn_of_undisturbed (registered : Registered) (frame : LuaState)
    (events : List ThreadEvent) (shared : SharedState)
    (undisturbed : (threadMachine registered frame).MeetsFrom Undisturbed
      (threadMachine registered frame).initial events)
    (reached : (threadMachine registered frame).run events = some shared) :
    CallsOwn registered shared := by
  have inPlace := (threadMachine registered frame).runFrom_invariant (InPlace registered)
    (fun _ _ _ inPlace met stepped => inPlace.step met stepped)
    (InPlace.initially registered frame) undisturbed reached
  exact inPlace.own

/-- Function 1 is registered for new connections, function 2 for messages. -/
def twoFunctions : Registered := ⟨⟨fun n => .function n.toNat, silent⟩, 2, 1⟩

/-- A whole message is handled while the event loop is between two API calls. -/
def nested : List ThreadEvent :=
  [.enter (.onNewConnection [50, 0]), .api .eventLoop silent,
    .enter (.onMessage [55, 0] [104, 105, 0]), .api .handler silent, .api .handler silent,
    .api .handler silent, .api .handler silent, .api .eventLoop silent,
    .api .eventLoop silent]

theorem callsOwn_of_nested :
    ∃ shared, (threadMachine twoFunctions ⟨[.string [49]], 1⟩).run nested = some shared ∧
      CallsOwn twoFunctions shared :=
  ⟨_, rfl, callsOwn_of_undisturbed twoFunctions ⟨[.string [49]], 1⟩ nested _ (by decide) rfl⟩

/-- Both functions are pushed before the address: the message function is called
with it. -/
theorem address_passed_to_message_callback :
    ¬ ∀ (registered : Registered) (frame : LuaState) (events : List ThreadEvent)
      (shared : SharedState),
        (threadMachine registered frame).run events = some shared →
          CallsOwn registered shared := by
  intro separate
  have own := separate twoFunctions ⟨[.string [49]], 1⟩
    [.enter (.onNewConnection [50, 0]), .enter (.onMessage [55, 0] [104, 105, 0]),
      .api .eventLoop silent, .api .handler silent, .api .eventLoop silent,
      .api .eventLoop silent] _ rfl
  have first := own (.onNewConnection [50, 0], _) (List.mem_singleton.mpr rfl)
  exact absurd first.1 (by decide)

end LuaEngine.Callbacks
