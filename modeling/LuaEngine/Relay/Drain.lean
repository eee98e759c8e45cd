import LuaEngine.Relay.Delivery

/-!
# Nothing gets stuck

Whatever has happened, the server can decode what it has read and hand every line in it to
its handler, without another connection, another read or another step of a client.
-/

namespace LuaEngine.Relay

open LuaEngine.Client LuaEngine.Codec LuaEngine.Codec.LengthHeaderCodec LuaEngine.Server
open LuaEngine.System

/-! ## The handler thread -/

section Handler

variable {Message : Type}

/-- The local list is handled to its end. -/
theorem runFrom_handling {queues : Queues Message} {rest : List (Posted Message)}
    (place : queues.handler = .handling rest) :
    ∃ steps : List HandlerStep,
      (queueMachine Message).runFrom queues (steps.map .handler) =
        some { queues with handler := .testing, handled := queues.handled ++ rest } := by
  induction rest generalizing queues with
  | nil =>
      refine ⟨[.leave], ?_⟩
      simp [Machine.runFrom, queueMachine, Queues.hanleMessageQueue, place]
  | cons posted rest inductionHypothesis =>
      obtain ⟨steps, later⟩ := @inductionHypothesis
        { queues with handler := .handling rest, handled := queues.handled ++ [posted] } rfl
      refine ⟨.handle :: steps, ?_⟩
      rw [List.map_cons]
      refine (Machine.runFrom_cons_eq_some _).mpr ⟨_, ?_, later.trans ?_⟩
      · simp [queueMachine, Queues.hanleMessageQueue, place]
      · simp

/-- The handler takes the whole queue, once it has passed its test. -/
theorem runFrom_distilling {queues : Queues Message} (place : queues.handler = .distilling) :
    ∃ (steps : List HandlerStep) (final : Queues Message),
      (queueMachine Message).runFrom queues (steps.map .handler) = some final ∧
        final.handler = .testing ∧ final.handled = queues.line := by
  obtain ⟨steps, later⟩ := @runFrom_handling Message
    { queues with handler := .handling queues.messageQueue_, messageQueue_ := [] } _ rfl
  refine ⟨.distill :: steps, { queues with
    handler := .testing
    messageQueue_ := []
    handled := queues.handled ++ queues.messageQueue_ }, ?_, rfl, ?_⟩
  · rw [List.map_cons]
    refine (Machine.runFrom_cons_eq_some _).mpr ⟨_, ?_, later⟩
    simp [queueMachine, Queues.hanleMessageQueue, Queues.distillMessageQueue, place]
  · simp [Queues.line, Queues.batch, place]

theorem runFrom_testing {queues : Queues Message} (place : queues.handler = .testing)
    (published : queues.gServer = true) :
    ∃ (steps : List HandlerStep) (final : Queues Message),
      (queueMachine Message).runFrom queues (steps.map .handler) = some final ∧
        final.handled = queues.line := by
  cases waiting : queues.messageQueue_ with
  | nil =>
      refine ⟨[], queues, rfl, ?_⟩
      simp [Queues.line, Queues.batch, place, waiting]
  | cons posted rest =>
      obtain ⟨steps, final, later, -, handled⟩ := @runFrom_distilling Message
        { queues with handler := .distilling } rfl
      refine ⟨.test :: steps, final, ?_, ?_⟩
      · rw [List.map_cons]
        refine (Machine.runFrom_cons_eq_some _).mpr ⟨_, ?_, later⟩
        simp [queueMachine, Queues.hanleMessageQueue, Queues.hasMessge, bHandleMsg, place,
          published, waiting]
      · rw [handled]
        simp [Queues.line, Queues.batch, place]

/-- The handler empties the line from wherever it stands. -/
theorem runFrom_empties {queues : Queues Message} (running : queues.handler ≠ .finished)
    (published : queues.gServer = true) :
    ∃ (steps : List HandlerStep) (final : Queues Message),
      (queueMachine Message).runFrom queues (steps.map .handler) = some final ∧
        final.handled = queues.line := by
  cases place : queues.handler with
  | testing => exact runFrom_testing place published
  | distilling =>
      obtain ⟨steps, final, reached, -, handled⟩ := runFrom_distilling place
      exact ⟨steps, final, reached, handled⟩
  | handling rest =>
      obtain ⟨steps, middle⟩ := runFrom_handling place
      obtain ⟨more, final, later, handled⟩ := @runFrom_testing Message
        { queues with handler := .testing, handled := queues.handled ++ rest } rfl published
      refine ⟨steps ++ more, final, ?_, ?_⟩
      · rw [List.map_append]
        exact (Machine.runFrom_append_eq_some _).mpr ⟨_, middle, later⟩
      · rw [handled]
        simp [Queues.line, Queues.batch, place]
  | finished => exact absurd place running

/-- The loop of the handler is never left. -/
theorem hanleMessageQueue_ne_finished {queues next : Queues Message} {step : HandlerStep}
    (running : queues.handler ≠ .finished)
    (stepped : queues.hanleMessageQueue step = some next) : next.handler ≠ .finished := by
  rcases Queues.hanleMessageQueue_cases stepped with
    ⟨-, -, rfl | ⟨-, rfl⟩⟩ | ⟨-, -, rfl⟩ | ⟨_, _, -, -, rfl⟩ | ⟨-, -, rfl⟩
  · exact running
  all_goals simp

end Handler

section Server

variable {Conn Timestamp : Type} [DecidableEq Conn]
  {server middle next final : LuaServer Conn Timestamp}

/-- No thread but the handler's own moves it. -/
theorem handler_of_step {event : ServerEvent Conn Timestamp}
    (stepped : server.step event = some next) :
    next.queues.handler = server.queues.handler ∨
      ∃ step, server.queues.hanleMessageQueue step = some next.queues := by
  cases event with
  | publish =>
      obtain rfl := Option.some.inj stepped
      exact .inl rfl
  | onConnection conn connected =>
      left
      simp only [LuaServer.step, LuaServer.connectionChanged] at stepped
      split at stepped
      next =>
        rw [← Option.some.inj stepped]
        simp
      next =>
        rw [← Option.some.inj stepped]
        simp
      next => contradiction
  | read conn chunk =>
      left
      simp only [LuaServer.step, LuaServer.read] at stepped
      split at stepped
      next =>
        rw [← Option.some.inj stepped]
        rfl
      next => contradiction
  | pass conn =>
      left
      simp only [LuaServer.step, LuaServer.pass] at stepped
      split at stepped
      next => contradiction
      next =>
        split at stepped <;>
          · rw [← Option.some.inj stepped]
            rfl
  | handler step =>
      obtain ⟨queues, moved, rfl⟩ := Option.map_eq_some_iff.mp stepped
      exact .inr ⟨step, moved⟩

theorem handler_ne_finished {events : List (ServerEvent Conn Timestamp)}
    (reached : (serverMachine Conn Timestamp).run events = some server) :
    server.queues.handler ≠ .finished := by
  refine (serverMachine Conn Timestamp).run_induction
    (motive := fun _ server => server.queues.handler ≠ .finished) ?_ ?_ reached
  · simp [serverMachine, LuaServer.initial, Queues.initial]
  · intro _ before event after running stepped
    rcases handler_of_step stepped with same | ⟨step, moved⟩
    · rwa [same]
    · exact hanleMessageQueue_ne_finished running moved

theorem runFrom_handler {steps : List HandlerStep} {queues : Queues (MessageQueue Conn Timestamp)}
    (reached : (queueMachine (MessageQueue Conn Timestamp)).runFrom server.queues
      (steps.map .handler) = some queues) :
    (serverMachine Conn Timestamp).runFrom server (steps.map .handler) =
      some { server with queues := queues } := by
  induction steps generalizing server with
  | nil =>
      obtain rfl := Option.some.inj reached
      rfl
  | cons step steps inductionHypothesis =>
      obtain ⟨middle, stepped, later⟩ := (Machine.runFrom_cons_eq_some _).mp reached
      refine (Machine.runFrom_cons_eq_some _).mpr ⟨{ server with queues := middle }, ?_, ?_⟩
      · change server.queues.hanleMessageQueue step = some middle at stepped
        simp [serverMachine, LuaServer.step, stepped]
      · exact inductionHypothesis later

/-! ## Steps of the server alone -/

/-- Whether the server takes the step by itself: it needs no transport and no client. -/
def isOwn : ServerEvent Conn Timestamp → Bool
  | .publish | .pass _ | .handler _ => true
  | .onConnection _ _ | .read _ _ => false

omit [DecidableEq Conn] in
theorem isOwn_of_mem_passes {conn : Conn} {count : Nat} {event : ServerEvent Conn Timestamp}
    (membership : event ∈ List.replicate count (.pass conn)) : isOwn event = true := by
  rw [List.eq_of_mem_replicate membership]
  rfl

omit [DecidableEq Conn] in
theorem isOwn_of_mem_handler {steps : List HandlerStep} {event : ServerEvent Conn Timestamp}
    (membership : event ∈ steps.map ServerEvent.handler) : isOwn event = true := by
  obtain ⟨step, -, rfl⟩ := List.mem_map.mp membership
  rfl

theorem received_append_own (conn : Conn) (events : List (ServerEvent Conn Timestamp))
    {later : List (ServerEvent Conn Timestamp)} (own : ∀ event ∈ later, isOwn event = true) :
    received conn (events ++ later) = received conn events := by
  have nothing : received conn later = [] := by
    refine List.flatMap_eq_nil_iff.mpr fun event membership => ?_
    cases event with
    | read source chunk => exact absurd (own _ membership) Bool.false_ne_true
    | _ => rfl
  rw [received, List.flatMap_append, ← received, ← received, nothing, List.append_nil]

/-- The server gets from one state to the other by itself. -/
def Onwards (server final : LuaServer Conn Timestamp) : Prop :=
  ∃ later : List (ServerEvent Conn Timestamp), (∀ event ∈ later, isOwn event = true) ∧
    (serverMachine Conn Timestamp).runFrom server later = some final

theorem Onwards.refl (server : LuaServer Conn Timestamp) : Onwards server server :=
  ⟨[], by simp, rfl⟩

theorem Onwards.trans (first : Onwards server middle) (second : Onwards middle final) :
    Onwards server final := by
  obtain ⟨events, own, reached⟩ := first
  obtain ⟨more, ownMore, later⟩ := second
  refine ⟨events ++ more, ?_, ?_⟩
  · intro event membership
    rcases List.mem_append.mp membership with before | after
    · exact own event before
    · exact ownMore event after
  · exact (Machine.runFrom_append_eq_some _).mpr ⟨middle, reached, later⟩

/-- A call of `onMessage` in progress comes to its end. -/
theorem onwards_passes (server : LuaServer Conn Timestamp) (conn : Conn) :
    ∃ final, Onwards server final ∧ (final.connection conn).decoding = none ∧
      ∀ other, other ≠ conn → final.connection other = server.connection other := by
  cases active : (server.connection conn).decoding with
  | none => exact ⟨server, .refl server, active, fun _ _ => rfl⟩
  | some receiveTime =>
      obtain ⟨count, reached⟩ := runFrom_passes active
      refine ⟨_, ⟨_, fun _ membership => isOwn_of_mem_passes membership, reached⟩, ?_, ?_⟩
      · simp [LuaServer.afterOnMessage, LuaServer.setConnection]
      · intro other different
        simp [LuaServer.afterOnMessage, LuaServer.setConnection, different]

theorem onwards_all_idle (server : LuaServer Conn Timestamp) (conns : List Conn) :
    ∃ final, Onwards server final ∧
      ∀ conn ∈ conns, (final.connection conn).decoding = none := by
  induction conns with
  | nil => exact ⟨server, .refl server, by simp⟩
  | cons conn conns inductionHypothesis =>
      obtain ⟨middle, toMiddle, idle⟩ := inductionHypothesis
      obtain ⟨final, toFinal, settled, others⟩ := onwards_passes middle conn
      refine ⟨final, toMiddle.trans toFinal, ?_⟩
      intro other membership
      by_cases same : other = conn
      · rw [same]
        exact settled
      · rw [others other same]
        exact idle other ((List.mem_cons.mp membership).resolve_left same)

/-- The handler catches up. -/
theorem onwards_handled (running : server.queues.handler ≠ .finished) :
    ∃ final, Onwards server final ∧ final.queues.handled = server.queues.line := by
  have published : Onwards server
      { server with queues := { server.queues with gServer := true } } :=
    ⟨[.publish], by simp [isOwn], rfl⟩
  obtain ⟨steps, queues, reached, handled⟩ := @runFrom_empties _
    { server.queues with gServer := true } running rfl
  have handling : Onwards { server with queues := { server.queues with gServer := true } }
      { server with queues := queues } :=
    ⟨_, fun _ membership => isOwn_of_mem_handler membership, runFrom_handler reached⟩
  exact ⟨_, published.trans handling, handled⟩

/-- By itself the server gets to where the messages that the given connections have
brought are handled. -/
theorem onwards_drained {events : List (ServerEvent Conn Timestamp)}
    (reached : (serverMachine Conn Timestamp).run events = some server) (conns : List Conn) :
    ∃ final, Onwards server final ∧ ∀ conn ∈ conns,
      ofConnection conn final.queues.handled = (framing.scan (received conn events)).items := by
  obtain ⟨middle, toMiddle, idle⟩ := onwards_all_idle server conns
  obtain ⟨later, own, onwards⟩ := toMiddle
  have atMiddle : (serverMachine Conn Timestamp).run (events ++ later) = some middle :=
    (Machine.runFrom_append_eq_some _).mpr ⟨server, reached, onwards⟩
  obtain ⟨final, toFinal, handled⟩ := onwards_handled (handler_ne_finished atMiddle)
  refine ⟨final, Onwards.trans ⟨later, own, onwards⟩ toFinal, ?_⟩
  intro conn membership
  have decoding := Decoding.of_run atMiddle conn
  have items := decoding.items
  rw [received_append_own conn events own, decoding.idle (idle conn membership),
    List.append_nil] at items
  rw [handled, decoding.line, items]

end Server

variable {Person Session Timestamp : Type} [DecidableEq Person] [DecidableEq Session]

/-- What the server does by itself it does in the system as well, whatever the transport
is, and takes nothing from it. -/
theorem runFrom_own (transport : Transport (Person × Session) UInt8)
    (lines : Person → List Bytes) {chat : Chat Person Session Timestamp}
    {later : List (ServerEvent (Person × Session) Timestamp)}
    (own : ∀ event ∈ later, isOwn event = true)
    {server : LuaServer (Person × Session) Timestamp}
    (reached : (serverMachine (Person × Session) Timestamp).runFrom chat.server later =
      some server) :
    (relayMachine Session Timestamp transport lines).runFrom chat (later.map .server) =
      some { chat with server := server } := by
  induction later generalizing chat with
  | nil =>
      obtain rfl := Option.some.inj reached
      rfl
  | cons event later inductionHypothesis =>
      obtain ⟨next, stepped, onwards⟩ := (Machine.runFrom_cons_eq_some _).mp reached
      change chat.server.step event = some next at stepped
      have alone := own event List.mem_cons_self
      have step : chat.serverStep transport event = some { chat with server := next } := by
        cases event with
        | onConnection | read => contradiction
        | _ => simp [Chat.serverStep, Chat.carries, Chat.reads, stepped]
      refine (Machine.runFrom_cons_eq_some _).mpr ⟨{ chat with server := next }, step, ?_⟩
      have rest := fun other membership => own other (List.mem_cons_of_mem event membership)
      exact inductionHypothesis rest onwards

/-- What has become of the lines of a connection when the server has caught up. -/
structure LinesHandled (events : List (ChatEvent Person Session Timestamp))
    (chat final : Chat Person Session Timestamp) (conn : Person × Session) : Prop where
  /-- Every message in what has been read is handled. -/
  decoded : ∀ receiveTime : Timestamp,
    ofConnection conn final.server.queues.handled =
      (onMessage conn (received conn (serverEvents events)) receiveTime).messages.map
        (·.message_)
  front : ofConnection conn final.server.queues.handled <+:
    (linesOn conn events).takeWhile fun line => decide (line.length ≤ 65536)
  /-- Where everything sent has been read, so is every line up to the first too long. -/
  all : undelivered conn chat.history = [] →
    ofConnection conn final.server.queues.handled =
      (linesOn conn events).takeWhile fun line => decide (line.length ≤ 65536)

/-- From every state the server gets by itself to one where what it has read on the given
connections has been handled. -/
theorem linesDrain (transport : Transport (Person × Session) UInt8)
    (inOrder : transport.InOrder) (lines : Person → List Bytes)
    (small : ∀ person, ∀ line ∈ lines person, line.length < 2 ^ 31)
    (events : List (ChatEvent Person Session Timestamp)) (chat : Chat Person Session Timestamp)
    (reached : (relayMachine Session Timestamp transport lines).run events = some chat)
    (conns : List (Person × Session)) :
    ∃ (later : List (ServerEvent (Person × Session) Timestamp))
      (final : Chat Person Session Timestamp),
      (∀ event ∈ later, isOwn event = true) ∧
        (relayMachine Session Timestamp transport lines).runFrom chat (later.map .server) =
          some final ∧
        ∀ conn ∈ conns, LinesHandled events chat final conn := by
  have connected := Connected.of_run inOrder reached
  obtain ⟨server, ⟨later, own, onwards⟩, drained⟩ := onwards_drained connected.server conns
  refine ⟨later, { chat with server := server }, own, runFrom_own transport lines own onwards,
    ?_⟩
  intro conn membership
  have sublist : (linesOn conn events).Sublist (lines conn.1) :=
    (framesLines _ _ _ (connected.main conn.1)).sublist conn.2
  have bounded : ∀ line ∈ linesOn conn events, line.length < 2 ^ 31 :=
    fun line isLine => small conn.1 line (sublist.subset isLine)
  refine ⟨?_, ?_, ?_⟩
  · intro receiveTime
    rw [onMessage_messages]
    exact drained conn membership
  · rw [drained conn membership]
    exact connected.decoded_prefix conn bounded
  · intro nothing
    rw [drained conn membership, connected.items conn bounded, nothing, List.append_nil]
    exact (connected.decoding conn).items

theorem linesDrain_of_two_clients :
    ∃ chat, (relayMachine Nat Nat .fifo TwoClients.lines).run TwoClients.events = some chat ∧
      ∃ (later : List (ServerEvent (Bool × Nat) Nat)) (final : Chat Bool Nat Nat),
        (∀ event ∈ later, isOwn event = true) ∧
          (relayMachine Nat Nat .fifo TwoClients.lines).runFrom chat (later.map .server) =
            some final ∧
          ∀ conn ∈ [(true, 0), (false, 7)], LinesHandled TwoClients.events chat final conn :=
  ⟨_, rfl, linesDrain .fifo Transport.fifo_inOrder TwoClients.lines TwoClients.lines_small
    _ _ rfl _⟩

end LuaEngine.Relay
