import LuaEngine.System.Deque
import LuaEngine.System.Machine

/-!
# The message queue of `LuaServer`

Event-loop threads push messages on `messageQueue_` under `mutex_`; the handler
thread tests the queue without the lock, swaps it for an empty local list and
works through that list.  Each locked section and each step of the handler is
one event, so a run is any interleaving of them.
-/

namespace LuaEngine.Server

open LuaEngine.System

inductive Origin where
  | onTimerMessage
  | onMessageQueue
  deriving DecidableEq

/-- One posting of a message.  The number of earlier postings tells postings of
equal messages apart; the code never reads it. -/
structure Posted (Message : Type) where
  number : Nat
  origin : Origin
  message : Message
  deriving DecidableEq

namespace Posted

variable {Message : Type}

def fromTimer (posted : Posted Message) : Bool := posted.origin == .onTimerMessage

def fromNetwork (posted : Posted Message) : Bool := !posted.fromTimer

end Posted

/-- Where the handler thread stands in `hanleMessageQueue`. -/
inductive Handler (Message : Type) where
  /-- At the loop condition and the test of `g_server` and `hasMessge`. -/
  | testing
  /-- The test passed; `distillMessageQueue` is next. -/
  | distilling
  /-- In the loop over the local list, with these messages still to be handled. -/
  | handling (messageQueue : List (Posted Message))
  /-- Outside the loop. -/
  | finished
  deriving DecidableEq

/-- The queue, the handler thread and what it has passed to `_onMessage`. -/
structure Queues (Message : Type) where
  /-- Whether `startServer` has assigned `g_server`. -/
  gServer : Bool
  messageQueue_ : List (Posted Message)
  handler : Handler Message
  handled : List (Posted Message)
  posts : Nat
  deriving DecidableEq

/-- The global flag of the handler loop; nothing in the program assigns it. -/
def bHandleMsg : Bool := true

inductive HandlerStep where
  | test
  | distill
  | handle
  | leave
  deriving DecidableEq

namespace Queues

variable {Message : Type}

def initial : Queues Message := ⟨false, [], .testing, [], 0⟩

def hasMessge (queues : Queues Message) : Bool := !queues.messageQueue_.isEmpty

def distillMessageQueue (messageQueue shared : List (Posted Message)) :
    List (Posted Message) × List (Posted Message) :=
  (shared, messageQueue)

def onTimerMessage (queues : Queues Message) (message : Message) : Queues Message :=
  { queues with
    messageQueue_ := ⟨queues.posts, .onTimerMessage, message⟩ :: queues.messageQueue_
    posts := queues.posts + 1 }

def onMessageQueue (queues : Queues Message) (message : Message) : Queues Message :=
  { queues with
    messageQueue_ := queues.messageQueue_ ++ [⟨queues.posts, .onMessageQueue, message⟩]
    posts := queues.posts + 1 }

def hanleMessageQueue (queues : Queues Message) : HandlerStep → Option (Queues Message)
  | .test =>
      match queues.handler with
      | .testing =>
          if bHandleMsg then
            if queues.gServer && queues.hasMessge then
              some { queues with handler := .distilling }
            else
              some queues
          else
            some { queues with handler := .finished }
      | _ => none
  | .distill =>
      match queues.handler with
      | .distilling =>
          let swapped := distillMessageQueue [] queues.messageQueue_
          some { queues with handler := .handling swapped.1, messageQueue_ := swapped.2 }
      | _ => none
  | .handle =>
      match queues.handler with
      | .handling (posted :: rest) =>
          some { queues with handler := .handling rest, handled := queues.handled ++ [posted] }
      | _ => none
  | .leave =>
      match queues.handler with
      | .handling [] => some { queues with handler := .testing }
      | _ => none

def batch (queues : Queues Message) : List (Posted Message) :=
  match queues.handler with
  | .handling messageQueue => messageQueue
  | _ => []

/-- All messages from the first one handled to the last one waiting. -/
def line (queues : Queues Message) : List (Posted Message) :=
  queues.handled ++ (queues.batch ++ queues.messageQueue_)

end Queues

/-- What can happen to the queue: `startServer` publishes the server, any thread
posts a message, the handler takes a step. -/
inductive QueueEvent (Message : Type) where
  | publish
  | onTimerMessage (message : Message)
  | onMessageQueue (message : Message)
  | handler (step : HandlerStep)
  deriving DecidableEq

def queueMachine (Message : Type) : Machine (Queues Message) (QueueEvent Message) where
  initial := .initial
  step queues
    | .publish => some { queues with gServer := true }
    | .onTimerMessage message => some (queues.onTimerMessage message)
    | .onMessageQueue message => some (queues.onMessageQueue message)
    | .handler step => queues.hanleMessageQueue step

/-! ## What one step does -/

namespace Queues

variable {Message : Type}

theorem line_onMessageQueue (queues : Queues Message) (message : Message) :
    (queues.onMessageQueue message).line =
      queues.line ++ [⟨queues.posts, .onMessageQueue, message⟩] := by
  simp [line, onMessageQueue, batch]

theorem line_onTimerMessage (queues : Queues Message) (message : Message) :
    (queues.onTimerMessage message).line =
      queues.handled ++ (queues.batch ++
        ⟨queues.posts, .onTimerMessage, message⟩ :: queues.messageQueue_) := rfl

theorem hanleMessageQueue_cases {queues next : Queues Message} {step : HandlerStep}
    (stepped : queues.hanleMessageQueue step = some next) :
    (step = .test ∧ queues.handler = .testing ∧ (next = queues ∨
        queues.hasMessge = true ∧ next = { queues with handler := .distilling })) ∨
      (step = .distill ∧ queues.handler = .distilling ∧ next =
        { queues with handler := .handling queues.messageQueue_, messageQueue_ := [] }) ∨
      (∃ posted rest, step = .handle ∧ queues.handler = .handling (posted :: rest) ∧ next =
        { queues with handler := .handling rest, handled := queues.handled ++ [posted] }) ∨
      (step = .leave ∧ queues.handler = .handling [] ∧
        next = { queues with handler := .testing }) := by
  cases step with
  | test =>
      cases place : queues.handler with
      | testing =>
          simp only [hanleMessageQueue, place, bHandleMsg, if_true] at stepped
          split at stepped
          next passed =>
            cases stepped
            simp only [Bool.and_eq_true] at passed
            exact .inl ⟨rfl, rfl, .inr ⟨passed.2, rfl⟩⟩
          next failed =>
            cases stepped
            exact .inl ⟨rfl, rfl, .inl rfl⟩
      | distilling | handling messageQueue | finished =>
          simp [hanleMessageQueue, place] at stepped
  | distill =>
      cases place : queues.handler with
      | distilling =>
          simp only [hanleMessageQueue, place, Option.some.injEq] at stepped
          exact .inr (.inl ⟨rfl, rfl, stepped.symm⟩)
      | testing | handling messageQueue | finished =>
          simp [hanleMessageQueue, place] at stepped
  | handle =>
      match place : queues.handler with
      | .handling (posted :: rest) =>
          simp only [hanleMessageQueue, place, Option.some.injEq] at stepped
          exact .inr (.inr (.inl ⟨posted, rest, rfl, rfl, stepped.symm⟩))
      | .handling [] | .testing | .distilling | .finished =>
          simp [hanleMessageQueue, place] at stepped
  | leave =>
      match place : queues.handler with
      | .handling [] =>
          simp only [hanleMessageQueue, place, Option.some.injEq] at stepped
          exact .inr (.inr (.inr ⟨rfl, rfl, stepped.symm⟩))
      | .handling (_ :: _) | .testing | .distilling | .finished =>
          simp [hanleMessageQueue, place] at stepped

theorem hanleMessageQueue_line {queues next : Queues Message} {step : HandlerStep}
    (stepped : queues.hanleMessageQueue step = some next) :
    next.line = queues.line ∧ next.posts = queues.posts := by
  rcases hanleMessageQueue_cases stepped with
    ⟨_, place, rfl | ⟨_, rfl⟩⟩ | ⟨_, place, rfl⟩ | ⟨_, _, _, place, rfl⟩ | ⟨_, place, rfl⟩ <;>
    simp [line, batch, place]

/-- Only the swap touches the shared queue, and it takes all of it. -/
theorem hanleMessageQueue_messageQueue_ {queues next : Queues Message}
    {step : HandlerStep} (stepped : queues.hanleMessageQueue step = some next) :
    step = .distill ∧ next.batch = queues.messageQueue_ ∧ next.messageQueue_ = [] ∨
      step ≠ .distill ∧ next.messageQueue_ = queues.messageQueue_ := by
  rcases hanleMessageQueue_cases stepped with
    ⟨rfl, _, rfl | ⟨_, rfl⟩⟩ | ⟨rfl, _, rfl⟩ | ⟨_, _, rfl, _, rfl⟩ | ⟨rfl, _, rfl⟩ <;>
    simp [batch]

end Queues

/-! ## The order of the hand-off -/

/-- What a run has posted: every posting in order, and those since the last
swap. -/
structure Postings (Message : Type) where
  all : List (Posted Message)
  sinceSwap : List (Posted Message)

namespace Postings

variable {Message : Type}

def post (postings : Postings Message) (origin : Origin) (message : Message) :
    Postings Message :=
  let posted := ⟨postings.all.length, origin, message⟩
  ⟨postings.all ++ [posted], postings.sinceSwap ++ [posted]⟩

def record (postings : Postings Message) : QueueEvent Message → Postings Message
  | .onTimerMessage message => postings.post .onTimerMessage message
  | .onMessageQueue message => postings.post .onMessageQueue message
  | .handler .distill => ⟨postings.all, []⟩
  | _ => postings

def ofEvents (events : List (QueueEvent Message)) : Postings Message :=
  events.foldl record ⟨[], []⟩

theorem ofEvents_append (events : List (QueueEvent Message)) (event : QueueEvent Message) :
    ofEvents (events ++ [event]) = (ofEvents events).record event := by
  simp [ofEvents]

theorem numbered_post {postings : Postings Message}
    (numbered : postings.all.map (·.number) = List.range postings.all.length)
    (origin : Origin) (message : Message) :
    (postings.post origin message).all.map (·.number) =
      List.range (postings.post origin message).all.length := by
  simp [post, numbered, List.range_succ]

end Postings

/-- Ties the queue to the events that led to it. -/
structure HandOff {Message : Type} (events : List (QueueEvent Message))
    (queues : Queues Message) : Prop where
  posts : queues.posts = (Postings.ofEvents events).all.length
  numbered : (Postings.ofEvents events).all.map (·.number) =
    List.range (Postings.ofEvents events).all.length
  waiting : queues.messageQueue_ =
    fill Posted.fromTimer (Postings.ofEvents events).sinceSwap
  complete : queues.line.Perm (Postings.ofEvents events).all
  network : queues.line.filter Posted.fromNetwork =
    (Postings.ofEvents events).all.filter Posted.fromNetwork

namespace HandOff

variable {Message : Type} {events : List (QueueEvent Message)} {queues : Queues Message}

theorem initially : HandOff ([] : List (QueueEvent Message)) .initial where
  posts := rfl
  numbered := rfl
  waiting := rfl
  complete := List.Perm.refl _
  network := rfl

/-- A posting is numbered by the postings before it. -/
theorem posted_eq (handOff : HandOff events queues) (origin : Origin) (message : Message) :
    (⟨queues.posts, origin, message⟩ : Posted Message) =
      ⟨(Postings.ofEvents events).all.length, origin, message⟩ := by
  rw [handOff.posts]

theorem afterTimerMessage (handOff : HandOff events queues) (message : Message) :
    HandOff (events ++ [.onTimerMessage message]) (queues.onTimerMessage message) := by
  have posted := handOff.posted_eq .onTimerMessage message
  constructor
  · simp [Postings.ofEvents_append, Postings.record, Postings.post,
      Queues.onTimerMessage, handOff.posts]
  · rw [Postings.ofEvents_append]
    exact Postings.numbered_post handOff.numbered _ message
  · rw [Postings.ofEvents_append, Postings.record, Postings.post,
      fill_append_front (by rfl), ← handOff.waiting, ← posted]
    rfl
  · rw [Postings.ofEvents_append, Postings.record, Postings.post, ← posted,
      Queues.line_onTimerMessage, ← List.append_assoc]
    apply List.perm_middle.trans
    apply List.Perm.trans _ (List.perm_append_singleton _ _).symm
    apply List.Perm.cons
    simpa [Queues.line, List.append_assoc] using handOff.complete
  · have network := handOff.network
    rw [Postings.ofEvents_append, Postings.record, Postings.post, ← posted,
      Queues.line_onTimerMessage]
    simpa [Queues.line, Posted.fromNetwork, Posted.fromTimer] using network

theorem afterMessageQueue (handOff : HandOff events queues) (message : Message) :
    HandOff (events ++ [.onMessageQueue message]) (queues.onMessageQueue message) := by
  have posted := handOff.posted_eq .onMessageQueue message
  constructor
  · simp [Postings.ofEvents_append, Postings.record, Postings.post,
      Queues.onMessageQueue, handOff.posts]
  · rw [Postings.ofEvents_append]
    exact Postings.numbered_post handOff.numbered _ message
  · rw [Postings.ofEvents_append, Postings.record, Postings.post,
      fill_append_back (by rfl), ← handOff.waiting, ← posted]
    rfl
  · rw [Postings.ofEvents_append, Postings.record, Postings.post, ← posted,
      Queues.line_onMessageQueue]
    exact handOff.complete.append_right _
  · rw [Postings.ofEvents_append, Postings.record, Postings.post, ← posted,
      Queues.line_onMessageQueue, List.filter_append, List.filter_append, handOff.network]

theorem afterHandler {next : Queues Message} {step : HandlerStep}
    (handOff : HandOff events queues)
    (stepped : queues.hanleMessageQueue step = some next) :
    HandOff (events ++ [.handler step]) next := by
  rcases Queues.hanleMessageQueue_line stepped with ⟨line, posts⟩
  have all : (Postings.ofEvents (events ++ [.handler step])).all =
      (Postings.ofEvents events).all := by
    rw [Postings.ofEvents_append]
    cases step <;> rfl
  constructor
  · rw [posts, all]
    exact handOff.posts
  · rw [all]
    exact handOff.numbered
  · rw [Postings.ofEvents_append]
    rcases Queues.hanleMessageQueue_messageQueue_ stepped with
      ⟨rfl, _, emptied⟩ | ⟨other, kept⟩
    · exact emptied
    · rw [kept, handOff.waiting]
      cases step with
      | distill => contradiction
      | test | handle | leave => rfl
  · rw [line, all]
    exact handOff.complete
  · rw [line, all]
    exact handOff.network

theorem step {next : Queues Message} {event : QueueEvent Message}
    (handOff : HandOff events queues)
    (stepped : (queueMachine Message).step queues event = some next) :
    HandOff (events ++ [event]) next := by
  cases event with
  | publish =>
      cases stepped
      have same : Postings.ofEvents (events ++ [.publish]) = Postings.ofEvents events :=
        Postings.ofEvents_append events .publish
      constructor
      · simpa only [same] using handOff.posts
      · simpa only [same] using handOff.numbered
      · simpa only [same] using handOff.waiting
      · rw [same]
        exact handOff.complete
      · rw [same]
        exact handOff.network
  | onTimerMessage message =>
      cases stepped
      exact handOff.afterTimerMessage message
  | onMessageQueue message =>
      cases stepped
      exact handOff.afterMessageQueue message
  | handler step => exact handOff.afterHandler stepped

theorem of_run (reached : (queueMachine Message).run events = some queues) :
    HandOff events queues :=
  (queueMachine Message).run_induction initially
    (fun _ _ _ _ handOff stepped => handOff.step stepped) reached

theorem nodup_all (handOff : HandOff events queues) :
    (Postings.ofEvents events).all.Nodup := by
  apply List.Nodup.of_map (·.number)
  rw [handOff.numbered]
  exact List.nodup_range

theorem nodup_line (handOff : HandOff events queues) : queues.line.Nodup :=
  handOff.complete.nodup_iff.mpr handOff.nodup_all

end HandOff

/-! ## Timer messages go first -/

section TimerFirst

variable {Message : Type}

/-- The line is only ever extended: what stands in it keeps its order, and a new
network message goes behind everything. -/
theorem step_line {queues next : Queues Message} {event : QueueEvent Message}
    (stepped : (queueMachine Message).step queues event = some next) :
    queues.line.Sublist next.line ∧
      ∀ posted ∈ next.line, posted ∈ queues.line ∨ posted.origin = .onTimerMessage ∨
        next.line = queues.line ++ [posted] := by
  cases event with
  | publish =>
      cases stepped
      exact ⟨List.Sublist.refl _, fun posted membership => .inl membership⟩
  | onTimerMessage message =>
      cases stepped
      constructor
      · rw [Queues.line_onTimerMessage]
        exact ((List.sublist_cons_self _ _).append_left _).append_left _
      · intro posted membership
        rw [Queues.line_onTimerMessage] at membership
        simp only [List.mem_append, List.mem_cons] at membership
        simp only [Queues.line, List.mem_append]
        rcases membership with earlier | earlier | rfl | later
        · exact .inl (.inl earlier)
        · exact .inl (.inr (.inl earlier))
        · exact .inr (.inl rfl)
        · exact .inl (.inr (.inr later))
  | onMessageQueue message =>
      cases stepped
      rw [Queues.line_onMessageQueue]
      refine ⟨List.sublist_append_left _ _, ?_⟩
      intro posted membership
      rcases List.mem_append.mp membership with earlier | last
      · exact .inl earlier
      · rw [List.mem_singleton.mp last]
        exact .inr (.inr rfl)
  | handler step =>
      rw [(Queues.hanleMessageQueue_line stepped).1]
      exact ⟨List.Sublist.refl _, fun posted membership => .inl membership⟩

/-- The timer message stands in the line, before every network message that had
not been swapped out in `queues`. -/
def StandsFirst (queues : Queues Message) (timer : Posted Message)
    (later : Queues Message) : Prop :=
  timer ∈ later.line ∧
    ∀ posted ∈ later.line, posted.origin = .onMessageQueue →
      posted ∉ queues.handled → posted ∉ queues.batch →
      [timer, posted].Sublist later.line

theorem standsFirst_onTimerMessage (queues : Queues Message) (message : Message) :
    StandsFirst queues ⟨queues.posts, .onTimerMessage, message⟩
      (queues.onTimerMessage message) := by
  unfold StandsFirst
  rw [Queues.line_onTimerMessage]
  refine ⟨by simp, ?_⟩
  intro posted membership network notHandled notTaken
  simp only [List.mem_append, List.mem_cons] at membership
  rcases membership with handled | taken | rfl | waiting
  · exact absurd handled notHandled
  · exact absurd taken notTaken
  · contradiction
  · apply (pair_sublist_cons waiting).trans
    exact (List.sublist_append_right _ _).trans (List.sublist_append_right _ _)

theorem StandsFirst.step {queues state next : Queues Message} {timer : Posted Message}
    {event : QueueEvent Message} (first : StandsFirst queues timer state)
    (stepped : (queueMachine Message).step state event = some next) :
    StandsFirst queues timer next := by
  rcases step_line stepped with ⟨kept, added⟩
  refine ⟨kept.subset first.1, ?_⟩
  intro posted membership network notHandled notTaken
  rcases added posted membership with earlier | fromTimer | last
  · exact (first.2 posted earlier network notHandled notTaken).trans kept
  · rw [network] at fromTimer
    contradiction
  · rw [last]
    exact pair_sublist_append first.1

/-- From its posting on, a timer message stands before every network message
that had not been swapped out then. -/
theorem standsFirst_of_runFrom {queues final : Queues Message} {message : Message}
    {events : List (QueueEvent Message)}
    (reached : (queueMachine Message).runFrom (queues.onTimerMessage message) events =
      some final) :
    StandsFirst queues ⟨queues.posts, .onTimerMessage, message⟩ final :=
  (queueMachine Message).runFrom_induction
    (motive := fun _ later =>
      StandsFirst queues ⟨queues.posts, .onTimerMessage, message⟩ later)
    (standsFirst_onTimerMessage queues message)
    (fun _ _ _ _ first stepped => first.step stepped) reached

end TimerFirst

structure HandOffOrder {Message : Type} (events : List (QueueEvent Message))
    (queues : Queues Message) : Prop where
  /-- A swap takes the timer messages posted since the last swap, latest first,
  and then the network messages posted since, in posting order. -/
  swapped : ∀ next, queues.hanleMessageQueue .distill = some next →
    next.batch =
      ((Postings.ofEvents events).sinceSwap.filter Posted.fromTimer).reverse ++
        (Postings.ofEvents events).sinceSwap.filter Posted.fromNetwork
  /-- The postings are those handled, in the local list and waiting. -/
  complete : (queues.handled ++ (queues.batch ++ queues.messageQueue_)).Perm
    (Postings.ofEvents events).all
  once : (queues.handled ++ (queues.batch ++ queues.messageQueue_)).Nodup
  network : queues.handled.filter Posted.fromNetwork <+:
    (Postings.ofEvents events).all.filter Posted.fromNetwork
  /-- A timer message is handled before every network message that had not been
  swapped out when it was posted. -/
  timer : ∀ before message after middle,
    events = before ++ .onTimerMessage message :: after →
    (queueMachine Message).run before = some middle →
    ∀ posted ∈ queues.handled, posted.origin = .onMessageQueue →
      posted ∉ middle.handled → posted ∉ middle.batch →
      [⟨(Postings.ofEvents before).all.length, .onTimerMessage, message⟩,
        posted].Sublist queues.handled

theorem handOffOrder {Message : Type} (events : List (QueueEvent Message))
    (queues : Queues Message)
    (reached : (queueMachine Message).run events = some queues) :
    HandOffOrder events queues := by
  have handOff := HandOff.of_run reached
  refine ⟨?_, handOff.complete, handOff.nodup_line, ?_, ?_⟩
  · intro next stepped
    rcases Queues.hanleMessageQueue_messageQueue_ stepped with
      ⟨_, taken, _⟩ | ⟨other, _⟩
    · rw [taken, handOff.waiting, fill_eq]
      rfl
    · contradiction
  · rw [← handOff.network, Queues.line, List.filter_append]
    exact List.prefix_append _ _
  · intro before message after middle split reachedMiddle
      posted handled network notHandled notTaken
    rw [split] at reached
    rcases (queueMachine Message).runFrom_append_eq_some.mp reached with
      ⟨state, reachedState, rest⟩
    rw [Machine.run] at reachedMiddle
    rw [reachedMiddle, Option.some.injEq] at reachedState
    rw [← reachedState] at rest
    rcases (queueMachine Message).runFrom_cons_eq_some.mp rest with ⟨next, posting, later⟩
    cases posting
    rw [← (HandOff.of_run reachedMiddle).posts]
    have first := standsFirst_of_runFrom later
    have ordered := first.2 posted (List.mem_append_left _ handled) network
      notHandled notTaken
    exact pair_sublist_left handOff.nodup_line ordered handled

/-- Two timer messages overtake a network message; another network message
arrives after the swap. -/
theorem handOffOrder_at_one_swap :
    HandOffOrder
      [.publish, .onMessageQueue 10, .handler .test, .onTimerMessage 20,
        .onTimerMessage 30, .handler .distill, .onMessageQueue 40, .handler .handle]
      ⟨true, [⟨3, .onMessageQueue, 40⟩],
        .handling [⟨1, .onTimerMessage, 20⟩, ⟨0, .onMessageQueue, 10⟩],
        [⟨2, .onTimerMessage, 30⟩], 4⟩ :=
  handOffOrder _ _ (by decide)

end LuaEngine.Server
