import LuaEngine.Client.ChatClient
import LuaEngine.Server.Delivery
import LuaEngine.System.Transport

/-!
# From the clients' lines to the server's handler

Any number of clients, each with its own lines, talk to one server.  What a client
frames onto a connection is sent there, and the server reads what the transport hands
over, while the other connections and the handler thread go on.  The transport is not
part of the program: it may hold bytes back for ever, and is only taken to keep order.
-/

namespace LuaEngine.Relay

open LuaEngine.Client LuaEngine.Codec LuaEngine.Codec.LengthHeaderCodec LuaEngine.Server
open LuaEngine.System

/-- A connection is known by its client and by the session it is to that client. -/
structure Chat (Person Session Timestamp : Type) where
  main : Person → Main Session
  /-- What has been sent and handed over on each connection, in order. -/
  history : List (Transfer (Person × Session) UInt8)
  server : LuaServer (Person × Session) Timestamp

inductive ChatEvent (Person Session Timestamp : Type) where
  | client (person : Person) (event : ClientEvent Session)
  | server (event : ServerEvent (Person × Session) Timestamp)

variable {Person Session Timestamp : Type} [DecidableEq Person] [DecidableEq Session]

namespace Chat

def initial (lines : Person → List Bytes) : Chat Person Session Timestamp :=
  ⟨fun person => (chatMachine Session (lines person)).initial, [], .initial⟩

/-- The frames that a step of the client has added, each sent on its session. -/
def sends (person : Person) (before after : Main Session) :
    List (Transfer (Person × Session) UInt8) :=
  (after.client.frames.drop before.client.frames.length).map fun frame =>
    .send (person, frame.1) frame.2

def clientStep (chat : Chat Person Session Timestamp) (person : Person)
    (event : ClientEvent Session) : Option (Chat Person Session Timestamp) :=
  ((chat.main person).step event).map fun next =>
    { chat with
      main := Function.update chat.main person next
      history := chat.history ++ sends person (chat.main person) next }

/-- What a step of the server takes from the transport. -/
def reads : ServerEvent (Person × Session) Timestamp → List (Transfer (Person × Session) UInt8)
  | .read conn chunk => [.read conn chunk.data]
  | _ => []

/-- muduo reads on a connection while it is up, and only what the transport hands over. -/
def carries (transport : Transport (Person × Session) UInt8)
    (chat : Chat Person Session Timestamp) : ServerEvent (Person × Session) Timestamp → Bool
  | .read conn chunk =>
      decide ((chat.server.connection conn).phase = .connected) &&
        transport chat.history conn chunk.data
  | _ => true

def serverStep (transport : Transport (Person × Session) UInt8)
    (chat : Chat Person Session Timestamp)
    (event : ServerEvent (Person × Session) Timestamp) :
    Option (Chat Person Session Timestamp) :=
  if chat.carries transport event then
    (chat.server.step event).map fun server =>
      { chat with
        history := chat.history ++ reads event
        server := server }
  else
    none

def step (transport : Transport (Person × Session) UInt8)
    (chat : Chat Person Session Timestamp) :
    ChatEvent Person Session Timestamp → Option (Chat Person Session Timestamp)
  | .client person event => chat.clientStep person event
  | .server event => chat.serverStep transport event

end Chat

def relayMachine (Session Timestamp : Type) [DecidableEq Session]
    (transport : Transport (Person × Session) UInt8) (lines : Person → List Bytes) :
    Machine (Chat Person Session Timestamp) (ChatEvent Person Session Timestamp) where
  initial := .initial lines
  step := Chat.step transport

section Projections

/-- What happens at one client. -/
def clientEvents (person : Person) (events : List (ChatEvent Person Session Timestamp)) :
    List (ClientEvent Session) :=
  events.filterMap fun
    | .client other event => if other = person then some event else none
    | .server _ => none

/-- What happens at the server. -/
def serverEvents (events : List (ChatEvent Person Session Timestamp)) :
    List (ServerEvent (Person × Session) Timestamp) :=
  events.filterMap fun
    | .client _ _ => none
    | .server event => some event

/-- The lines a client has written while one of its sessions was up. -/
def linesOn (conn : Person × Session) (events : List (ChatEvent Person Session Timestamp)) :
    List Bytes :=
  writtenTo conn.2 (written none (clientEvents conn.1 events))

omit [DecidableEq Session] in
@[simp]
theorem clientEvents_append_client_self (person : Person)
    (events : List (ChatEvent Person Session Timestamp)) (event : ClientEvent Session) :
    clientEvents person (events ++ [.client person event]) =
      clientEvents person events ++ [event] := by
  simp [clientEvents]

omit [DecidableEq Session] in
theorem clientEvents_append_client_of_ne {person other : Person} (different : other ≠ person)
    (events : List (ChatEvent Person Session Timestamp)) (event : ClientEvent Session) :
    clientEvents person (events ++ [.client other event]) = clientEvents person events := by
  simp [clientEvents, different]

omit [DecidableEq Session] in
@[simp]
theorem clientEvents_append_server (person : Person)
    (events : List (ChatEvent Person Session Timestamp))
    (event : ServerEvent (Person × Session) Timestamp) :
    clientEvents person (events ++ [.server event]) = clientEvents person events := by
  simp [clientEvents]

omit [DecidableEq Person] [DecidableEq Session] in
@[simp]
theorem serverEvents_append_client (person : Person)
    (events : List (ChatEvent Person Session Timestamp)) (event : ClientEvent Session) :
    serverEvents (events ++ [.client person event]) = serverEvents events := by
  simp [serverEvents]

omit [DecidableEq Person] [DecidableEq Session] in
@[simp]
theorem serverEvents_append_server (events : List (ChatEvent Person Session Timestamp))
    (event : ServerEvent (Person × Session) Timestamp) :
    serverEvents (events ++ [.server event]) = serverEvents events ++ [event] := by
  simp [serverEvents]

end Projections

/-! ## What a step adds -/

theorem frames_prefix_of_step {main next : Main Session} {event : ClientEvent Session}
    (stepped : main.step event = some next) :
    main.client.frames <+: next.client.frames := by
  cases event with
  | write line =>
      obtain ⟨-, -, client⟩ := Main.writeLine_eq_some stepped
      rw [client, ChatClient.write]
      split
      next => exact List.prefix_append _ _
      next => exact List.prefix_refl _
  | onConnection conn connected =>
      obtain ⟨-, -, client⟩ := Main.connectionChanged_eq_some stepped
      rw [client]
      exact List.prefix_refl _

/-- Of the frames a client sends, a connection carries those of its session. -/
theorem sentOn_frames (conn : Person × Session) (person : Person)
    (frames : List (Session × Bytes)) :
    sentOn conn (frames.map fun frame => .send (person, frame.1) frame.2) =
      if person = conn.1 then (framesOn conn.2 frames).flatten else [] := by
  induction frames with
  | nil => simp [sentOn, framesOn]
  | cons frame frames inductionHypothesis =>
      rw [List.map_cons, ← List.singleton_append, sentOn_append, sentOn_send,
        inductionHypothesis]
      by_cases own : person = conn.1
      · by_cases same : frame.1 = conn.2
        · simp [framesOn, own, same]
        · simp [Prod.ext_iff, framesOn, own, same]
      · simp [Prod.ext_iff, own]

theorem sentOn_sends {main next : Main Session} {event : ClientEvent Session}
    (stepped : main.step event = some next) (conn : Person × Session) :
    (framesOn conn.2 next.client.frames).flatten =
      (framesOn conn.2 main.client.frames).flatten ++
        sentOn conn (Chat.sends conn.1 main next) := by
  obtain ⟨more, frames⟩ := frames_prefix_of_step stepped
  rw [Chat.sends, sentOn_frames, if_pos rfl, ← frames, List.drop_left, framesOn, framesOn,
    framesOn, List.filter_append, List.map_append, List.flatten_append]

theorem sentOn_sends_of_ne {person : Person} {conn : Person × Session}
    (different : person ≠ conn.1) (main next : Main Session) :
    sentOn conn (Chat.sends person main next) = [] := by
  rw [Chat.sends, sentOn_frames, if_neg different]

theorem readOn_sends (conn : Person × Session) (person : Person) (main next : Main Session) :
    readOn conn (Chat.sends person main next) = [] := by
  unfold Chat.sends
  generalize next.client.frames.drop main.client.frames.length = frames
  induction frames with
  | nil => rfl
  | cons frame frames inductionHypothesis =>
      rw [List.map_cons, ← List.singleton_append, readOn_append, readOn_send,
        inductionHypothesis, List.append_nil]

theorem sentOn_reads (conn : Person × Session)
    (event : ServerEvent (Person × Session) Timestamp) :
    sentOn conn (Chat.reads event) = [] := by
  cases event <;> rfl

theorem readOn_reads (conn : Person × Session)
    (event : ServerEvent (Person × Session) Timestamp) :
    readOn conn (Chat.reads event) = arrival conn event := by
  cases event with
  | read source chunk => exact readOn_read conn source chunk.data
  | _ => rfl

/-! ## The two ends and the transport between them -/

/-- Each party is where its own events take it, what a client has framed onto a
connection has been sent on it, and what the server has read is the front of that. -/
structure Connected (lines : Person → List Bytes)
    (events : List (ChatEvent Person Session Timestamp)) (chat : Chat Person Session Timestamp) :
    Prop where
  main : ∀ person, (chatMachine Session (lines person)).run (clientEvents person events) =
    some (chat.main person)
  server : (serverMachine (Person × Session) Timestamp).run (serverEvents events) =
    some chat.server
  sent : ∀ conn : Person × Session,
    (framesOn conn.2 (chat.main conn.1).client.frames).flatten = sentOn conn chat.history
  read : ∀ conn, received conn (serverEvents events) = readOn conn chat.history
  front : ∀ conn, readOn conn chat.history <+: sentOn conn chat.history

namespace Connected

variable {transport : Transport (Person × Session) UInt8} {lines : Person → List Bytes}
  {events : List (ChatEvent Person Session Timestamp)}
  {chat next : Chat Person Session Timestamp}

theorem initially : Connected lines ([] : List (ChatEvent Person Session Timestamp))
    (.initial lines) where
  main _ := rfl
  server := rfl
  sent _ := rfl
  read _ := rfl
  front _ := List.prefix_refl _

theorem run_append {State Event : Type} {machine : Machine State Event} {before after : State}
    {past : List Event} {event : Event} (reached : machine.run past = some before)
    (stepped : machine.step before event = some after) :
    machine.run (past ++ [event]) = some after :=
  machine.runFrom_append_eq_some.mpr
    ⟨before, reached, machine.runFrom_cons_eq_some.mpr ⟨after, stepped, rfl⟩⟩

theorem afterClient {person : Person} {event : ClientEvent Session}
    (connected : Connected lines events chat)
    (stepped : chat.clientStep person event = some next) :
    Connected lines (events ++ [.client person event]) next := by
  obtain ⟨after, moved, rfl⟩ := Option.map_eq_some_iff.mp stepped
  refine ⟨?_, ?_, ?_, ?_, ?_⟩
  · intro other
    dsimp only
    by_cases own : person = other
    · subst own
      rw [clientEvents_append_client_self, Function.update_self]
      exact run_append (connected.main person) moved
    · rw [clientEvents_append_client_of_ne own, Function.update_of_ne (Ne.symm own)]
      exact connected.main other
  · rw [serverEvents_append_client]
    exact connected.server
  · intro conn
    dsimp only
    rw [sentOn_append, ← connected.sent conn]
    by_cases own : conn.1 = person
    · rw [← own, Function.update_self]
      exact sentOn_sends (own ▸ moved) conn
    · rw [Function.update_of_ne own, sentOn_sends_of_ne (Ne.symm own), List.append_nil]
  · intro conn
    simp [connected.read conn, readOn_sends]
  · intro conn
    rw [readOn_append, readOn_sends, List.append_nil, sentOn_append]
    exact (connected.front conn).trans (List.prefix_append _ _)

/-- The order of the transport is needed here only. -/
theorem afterServer {event : ServerEvent (Person × Session) Timestamp}
    (inOrder : transport.InOrder) (connected : Connected lines events chat)
    (stepped : chat.serverStep transport event = some next) :
    Connected lines (events ++ [.server event]) next := by
  unfold Chat.serverStep at stepped
  split at stepped
  next carried =>
    obtain ⟨after, moved, rfl⟩ := Option.map_eq_some_iff.mp stepped
    refine ⟨?_, ?_, ?_, ?_, ?_⟩
    · intro person
      rw [clientEvents_append_server]
      exact connected.main person
    · rw [serverEvents_append_server]
      exact run_append connected.server moved
    · intro conn
      rw [sentOn_append, sentOn_reads, List.append_nil]
      exact connected.sent conn
    · intro conn
      rw [serverEvents_append_server, received_append, readOn_append, readOn_reads,
        connected.read conn]
    · intro conn
      rw [readOn_append, readOn_reads, sentOn_append, sentOn_reads, List.append_nil]
      cases event with
      | read source chunk =>
          simp only [Chat.carries, Bool.and_eq_true] at carried
          by_cases own : source = conn
          · rw [arrival, if_pos own]
            exact own ▸ inOrder _ _ _ carried.2
          · rw [arrival, if_neg own, List.append_nil]
            exact connected.front conn
      | _ => simpa [arrival] using connected.front conn
  next => contradiction

theorem of_run (inOrder : transport.InOrder)
    (reached : (relayMachine Session Timestamp transport lines).run events = some chat) :
    Connected lines events chat := by
  refine (relayMachine Session Timestamp transport lines).run_induction
    (motive := fun events chat => Connected lines events chat) initially ?_ reached
  intro events chat event next connected stepped
  cases event with
  | client person event => exact connected.afterClient stepped
  | server event => exact connected.afterServer inOrder stepped

/-- The bytes of a connection, read or not, are the frames of its lines. -/
theorem stream (connected : Connected lines events chat) (conn : Person × Session) :
    (linesOn conn events).flatMap send =
      received conn (serverEvents events) ++ undelivered conn chat.history := by
  have frames := (framesLines _ _ _ (connected.main conn.1)).ordered conn.2
  rw [connected.read, readOn_append_undelivered (connected.front conn), ← connected.sent conn,
    frames, linesOn, List.flatMap_def]

theorem decoding (connected : Connected lines events chat) (conn : Person × Session) :
    Decoding (serverEvents events) chat.server conn :=
  Decoding.of_run connected.server conn

/-- What is pushed, in the buffer and not handed over are the frames of the lines. -/
theorem frames (connected : Connected lines events chat) (conn : Person × Session) :
    (linesOn conn events).flatMap send =
      (chat.server.connection conn).pushed.flatMap send ++
        ((chat.server.connection conn).inputBuffer ++ undelivered conn chat.history) := by
  rw [connected.stream, (connected.decoding conn).accounted, List.append_assoc]

/-- The lines up to the first that no server accepts are pushed or still to be decoded. -/
theorem items (connected : Connected lines events chat) (conn : Person × Session)
    (small : ∀ line ∈ linesOn conn events, line.length < 2 ^ 31) :
    (linesOn conn events).takeWhile (fun line => decide (line.length ≤ 65536)) =
      (chat.server.connection conn).pushed ++
        (framing.scan ((chat.server.connection conn).inputBuffer ++
          undelivered conn chat.history)).items := by
  have settled : ∀ line ∈ linesOn conn events, framing.Admits line ∨ framing.Rejects line := by
    intro line membership
    by_cases valid : line.length ≤ 65536
    · exact .inl valid
    · exact .inr ⟨Nat.lt_of_not_le valid, small line membership⟩
  have whole := (framing.scan_encode (linesOn conn events) settled).1
  have parts := framing.scan_encode_append (chat.server.connection conn).pushed
    ((chat.server.connection conn).inputBuffer ++ undelivered conn chat.history)
    (connected.decoding conn).valid
  change (framing.scan ((linesOn conn events).flatMap send)).items = _ at whole
  change framing.scan ((chat.server.connection conn).pushed.flatMap send ++ _) = _ at parts
  rw [connected.frames conn, parts] at whole
  exact whole.symm

/-- What has been read decodes to the front of the lines. -/
theorem decoded_prefix (connected : Connected lines events chat) (conn : Person × Session)
    (small : ∀ line ∈ linesOn conn events, line.length < 2 ^ 31) :
    (framing.scan (received conn (serverEvents events))).items <+:
      (linesOn conn events).takeWhile fun line => decide (line.length ≤ 65536) := by
  have whole := connected.items conn small
  rw [(connected.decoding conn).accounted]
  have parts := framing.scan_encode_append (chat.server.connection conn).pushed
    (chat.server.connection conn).inputBuffer (connected.decoding conn).valid
  change framing.scan ((chat.server.connection conn).pushed.flatMap send ++ _) = _ at parts
  rw [parts, whole, List.prefix_append_right_inj]
  exact framing.items_prefix _ _

end Connected

/-- Where the lines are that a client wrote while a session of it was up. -/
structure LinesDelivered (lines : Person → List Bytes)
    (events : List (ChatEvent Person Session Timestamp)) (chat : Chat Person Session Timestamp)
    (conn : Person × Session) : Prop where
  own : (linesOn conn events).Sublist (lines conn.1)
  /-- What the server has read is the front of what the lines were sent as. -/
  sent : (linesOn conn events).flatMap send =
    received conn (serverEvents events) ++ undelivered conn chat.history
  /-- Handled, in the local batch and waiting are the messages decoded so far; with those
  still to be decoded, in the buffer or behind it in what the transport has not handed
  over, they are the lines up to the first that is too long. -/
  conserved : ∀ receiveTime : Timestamp,
    (linesOn conn events).takeWhile (fun line => decide (line.length ≤ 65536)) =
      ofConnection conn chat.server.queues.handled ++
        (ofConnection conn chat.server.queues.batch ++
          ofConnection conn chat.server.queues.messageQueue_) ++
        (onMessage conn ((chat.server.connection conn).inputBuffer ++
          undelivered conn chat.history) receiveTime).messages.map (·.message_)
  handled : ofConnection conn chat.server.queues.handled <+: linesOn conn events

/-- In every state of the system each line is in one place, in the order it was written,
and none is missing but behind what the transport has handed over. -/
theorem linesDelivered (transport : Transport (Person × Session) UInt8)
    (inOrder : transport.InOrder) (lines : Person → List Bytes)
    (small : ∀ person, ∀ line ∈ lines person, line.length < 2 ^ 31)
    (events : List (ChatEvent Person Session Timestamp)) (chat : Chat Person Session Timestamp)
    (reached : (relayMachine Session Timestamp transport lines).run events = some chat)
    (conn : Person × Session) : LinesDelivered lines events chat conn := by
  have connected := Connected.of_run inOrder reached
  have own : (linesOn conn events).Sublist (lines conn.1) :=
    (framesLines _ _ _ (connected.main conn.1)).sublist conn.2
  have items := connected.items conn fun line membership =>
    small conn.1 line (own.subset membership)
  have line := (connected.decoding conn).handled
  refine ⟨own, connected.stream conn, ?_, ?_⟩
  · intro receiveTime
    rw [items, onMessage_messages, line]
  · have taken := List.takeWhile_prefix (l := linesOn conn events)
      (fun line => decide (line.length ≤ 65536))
    rw [items, ← line, List.append_assoc] at taken
    exact (List.prefix_append _ _).trans taken

/-! ## Two clients -/

namespace TwoClients

def lines : Bool → List Bytes
  | true => [[65], [66, 67]]
  | false => [[68]]

theorem lines_small (person : Bool) : ∀ line ∈ lines person, line.length < 2 ^ 31 := by
  cases person <;> decide

/-- Both write, and the server has read one line of the first and a part of the next. -/
def events : List (ChatEvent Bool Nat Nat) :=
  [.server .publish, .client true (.onConnection 0 true), .client true (.write [65]),
    .client false (.onConnection 7 true), .server (.onConnection (true, 0) true),
    .client true (.write [66, 67]), .server (.read (true, 0) ⟨[0, 0, 0, 1, 65, 0], 5⟩),
    .client false (.write [68]), .server (.pass (true, 0)), .server (.handler .test)]

end TwoClients

theorem linesDelivered_of_two_clients :
    ∃ chat, (relayMachine Nat Nat .fifo TwoClients.lines).run TwoClients.events = some chat ∧
      LinesDelivered TwoClients.lines TwoClients.events chat (true, 0) :=
  ⟨_, rfl, linesDelivered .fifo Transport.fifo_inOrder TwoClients.lines TwoClients.lines_small
    _ _ rfl (true, 0)⟩

end LuaEngine.Relay
