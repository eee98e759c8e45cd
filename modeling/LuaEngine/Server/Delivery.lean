import LuaEngine.Codec.Chunking
import LuaEngine.Server.Queue

/-!
# Delivery through the whole server

Any number of connections share one codec and one queue.  muduo announces a
connection, appends what it reads to the connection's buffer and runs
`onMessage`; every pass of that loop may interleave with the passes of other
connections and with the handler thread.  For each connection the messages in
the line are those its own bytes decode to.
-/

namespace LuaEngine.Server

open LuaEngine.Codec LuaEngine.Codec.LengthHeaderCodec LuaEngine.System

inductive Phase where
  | connecting
  | connected
  | disconnected
  deriving DecidableEq

structure Connection (Timestamp : Type) where
  phase : Phase
  inputBuffer : Buffer
  /-- The receive time of the `onMessage` call in progress, if there is one. -/
  decoding : Option Timestamp
  shutdowns : Nat
  /-- The messages its `onMessage` calls have passed to `onMessageQueue`. -/
  pushed : List Bytes

namespace Connection

def initial {Timestamp : Type} : Connection Timestamp := ⟨.connecting, [], none, 0, []⟩

end Connection

structure LuaServer (Conn Timestamp : Type) where
  connection : Conn → Connection Timestamp
  connections_ : Finset Conn
  /-- The connections `_onNewConnection` was called for, in order. -/
  newConnections : List Conn
  queues : Queues (MessageQueue Conn Timestamp)

inductive ServerEvent (Conn Timestamp : Type) where
  | publish
  | onConnection (conn : Conn) (connected : Bool)
  /-- muduo appends a chunk to the buffer and calls `onMessage`. -/
  | read (conn : Conn) (chunk : Chunk Timestamp)
  /-- One pass of the loop in the `onMessage` call in progress. -/
  | pass (conn : Conn)
  | handler (step : HandlerStep)

namespace LuaServer

variable {Conn Timestamp : Type} [DecidableEq Conn]

def initial : LuaServer Conn Timestamp := ⟨fun _ => .initial, ∅, [], .initial⟩

def setConnection (server : LuaServer Conn Timestamp) (conn : Conn)
    (connection : Connection Timestamp) : LuaServer Conn Timestamp :=
  { server with connection := Function.update server.connection conn connection }

@[simp]
theorem setConnection_connection_self (server : LuaServer Conn Timestamp) (conn : Conn)
    (connection : Connection Timestamp) :
    (server.setConnection conn connection).connection conn = connection := by
  simp [setConnection]

@[simp]
theorem setConnection_connection_of_ne (server : LuaServer Conn Timestamp)
    {conn other : Conn} (different : other ≠ conn) (connection : Connection Timestamp) :
    (server.setConnection conn connection).connection other = server.connection other := by
  simp [setConnection, different]

@[simp]
theorem setConnection_queues (server : LuaServer Conn Timestamp) (conn : Conn)
    (connection : Connection Timestamp) :
    (server.setConnection conn connection).queues = server.queues := rfl

@[simp]
theorem setConnection_newConnections (server : LuaServer Conn Timestamp) (conn : Conn)
    (connection : Connection Timestamp) :
    (server.setConnection conn connection).newConnections = server.newConnections := rfl

def onConnection (server : LuaServer Conn Timestamp) (conn : Conn) (connected : Bool) :
    LuaServer Conn Timestamp :=
  if connected then
    { server with
      connections_ := insert conn server.connections_
      newConnections := server.newConnections ++ [conn] }
  else
    { server with connections_ := server.connections_.erase conn }

@[simp]
theorem onConnection_connection (server : LuaServer Conn Timestamp) (conn : Conn)
    (connected : Bool) : (server.onConnection conn connected).connection = server.connection := by
  cases connected <;> rfl

@[simp]
theorem onConnection_queues (server : LuaServer Conn Timestamp) (conn : Conn)
    (connected : Bool) : (server.onConnection conn connected).queues = server.queues := by
  cases connected <;> rfl

theorem newConnections_onConnection (server : LuaServer Conn Timestamp) (conn : Conn)
    (connected : Bool) :
    server.newConnections ⊆ (server.onConnection conn connected).newConnections := by
  cases connected with
  | true => exact List.subset_append_left _ _
  | false => exact List.Subset.refl _

/-- muduo calls the connection callback once when a connection is up and once
when it is down again. -/
def connectionChanged (server : LuaServer Conn Timestamp) (conn : Conn) (connected : Bool) :
    Option (LuaServer Conn Timestamp) :=
  let connection := server.connection conn
  match connection.phase, connected with
  | .connecting, true =>
      some ((server.setConnection conn { connection with phase := .connected }).onConnection
        conn true)
  | .connected, false =>
      some ((server.setConnection conn { connection with phase := .disconnected }).onConnection
        conn false)
  | _, _ => none

/-- The message callback comes after the connection callback, and not before the
previous call has returned.  That muduo reads no more when the connection is down is not
asked here: its runs are among these. -/
def read (server : LuaServer Conn Timestamp) (conn : Conn) (chunk : Chunk Timestamp) :
    Option (LuaServer Conn Timestamp) :=
  let connection := server.connection conn
  if connection.phase ≠ .connecting ∧ connection.decoding.isNone then
    some (server.setConnection conn
      { connection with
        inputBuffer := connection.inputBuffer.append chunk.data
        decoding := some chunk.receiveTime })
  else
    none

/-- A frame is retrieved and its message pushed under the lock. -/
def afterFrame (server : LuaServer Conn Timestamp) (conn : Conn) (receiveTime : Timestamp)
    (message : Bytes) (rest : Buffer) : LuaServer Conn Timestamp :=
  { server.setConnection conn
      { server.connection conn with
        inputBuffer := rest
        pushed := (server.connection conn).pushed ++ [message] } with
    queues := server.queues.onMessageQueue ⟨conn, message, receiveTime⟩ }

@[simp]
theorem afterFrame_connection_self (server : LuaServer Conn Timestamp) (conn : Conn)
    (receiveTime : Timestamp) (message : Bytes) (rest : Buffer) :
    (server.afterFrame conn receiveTime message rest).connection conn =
      { server.connection conn with
        inputBuffer := rest
        pushed := (server.connection conn).pushed ++ [message] } := by
  simp [afterFrame]

@[simp]
theorem afterFrame_connection_of_ne (server : LuaServer Conn Timestamp) {conn other : Conn}
    (different : other ≠ conn) (receiveTime : Timestamp) (message : Bytes) (rest : Buffer) :
    (server.afterFrame conn receiveTime message rest).connection other =
      server.connection other := by
  simp [afterFrame, different]

@[simp]
theorem afterFrame_queues (server : LuaServer Conn Timestamp) (conn : Conn)
    (receiveTime : Timestamp) (message : Bytes) (rest : Buffer) :
    (server.afterFrame conn receiveTime message rest).queues =
      server.queues.onMessageQueue ⟨conn, message, receiveTime⟩ := rfl

@[simp]
theorem afterFrame_newConnections (server : LuaServer Conn Timestamp) (conn : Conn)
    (receiveTime : Timestamp) (message : Bytes) (rest : Buffer) :
    (server.afterFrame conn receiveTime message rest).newConnections =
      server.newConnections := rfl

def pass (server : LuaServer Conn Timestamp) (conn : Conn) :
    Option (LuaServer Conn Timestamp) :=
  let connection := server.connection conn
  match connection.decoding with
  | none => none
  | some receiveTime =>
      match iteration connection.inputBuffer with
      | .shortHeader => some (server.setConnection conn { connection with decoding := none })
      | .invalidLength _ =>
          some (server.setConnection conn
            { connection with decoding := none, shutdowns := connection.shutdowns + 1 })
      | .frame message rest =>
          some (server.afterFrame conn receiveTime message rest)
      | .shortBody => some (server.setConnection conn { connection with decoding := none })

def step (server : LuaServer Conn Timestamp) :
    ServerEvent Conn Timestamp → Option (LuaServer Conn Timestamp)
  | .publish => some { server with queues := { server.queues with gServer := true } }
  | .onConnection conn connected => server.connectionChanged conn connected
  | .read conn chunk => server.read conn chunk
  | .pass conn => server.pass conn
  | .handler step =>
      (server.queues.hanleMessageQueue step).map fun queues => { server with queues := queues }

end LuaServer

def serverMachine (Conn Timestamp : Type) [DecidableEq Conn] :
    Machine (LuaServer Conn Timestamp) (ServerEvent Conn Timestamp) where
  initial := .initial
  step := LuaServer.step

section Delivery

variable {Conn Timestamp : Type} [DecidableEq Conn]

def arrival (conn : Conn) : ServerEvent Conn Timestamp → Bytes
  | .read source chunk => if source = conn then chunk.data else []
  | _ => []

def received (conn : Conn) (events : List (ServerEvent Conn Timestamp)) : Bytes :=
  events.flatMap (arrival conn)

theorem received_append (conn : Conn) (events : List (ServerEvent Conn Timestamp))
    (event : ServerEvent Conn Timestamp) :
    received conn (events ++ [event]) = received conn events ++ arrival conn event := by
  simp [received]

def ofConnection (conn : Conn) (postings : List (Posted (MessageQueue Conn Timestamp))) :
    List Bytes :=
  (postings.filter fun posted => decide (posted.message.conn_ = conn)).map
    fun posted => posted.message.message_

theorem ofConnection_append (conn : Conn)
    (first second : List (Posted (MessageQueue Conn Timestamp))) :
    ofConnection conn (first ++ second) =
      ofConnection conn first ++ ofConnection conn second := by
  simp [ofConnection]

/-- Ties one connection to the bytes that arrived on it. -/
structure Decoding (events : List (ServerEvent Conn Timestamp))
    (server : LuaServer Conn Timestamp) (conn : Conn) : Prop where
  line : ofConnection conn server.queues.line = (server.connection conn).pushed
  accounted : received conn events =
    (server.connection conn).pushed.flatMap send ++ (server.connection conn).inputBuffer
  valid : ∀ message ∈ (server.connection conn).pushed, message.length ≤ 65536
  idle : (server.connection conn).decoding = none →
    (framing.scan (server.connection conn).inputBuffer).items = []
  unannounced : (server.connection conn).phase = .connecting →
    (server.connection conn).decoding = none ∧ (server.connection conn).pushed = []
  announced : (server.connection conn).phase ≠ .connecting →
    conn ∈ server.newConnections

namespace Decoding

variable {events : List (ServerEvent Conn Timestamp)}
  {server next : LuaServer Conn Timestamp} {conn : Conn}

theorem initially (conn : Conn) :
    Decoding ([] : List (ServerEvent Conn Timestamp)) .initial conn where
  line := rfl
  accounted := rfl
  valid message membership := by simp [LuaServer.initial, Connection.initial] at membership
  idle _ := congrArg Scanned.items framing.scan_nil
  unannounced _ := ⟨rfl, rfl⟩
  announced connected := absurd rfl connected

/-- A step that leaves a connection alone keeps its invariant. -/
theorem frame {event : ServerEvent Conn Timestamp} (decoding : Decoding events server conn)
    (connection : next.connection conn = server.connection conn)
    (line : ofConnection conn next.queues.line = ofConnection conn server.queues.line)
    (arrived : arrival conn event = [])
    (kept : server.newConnections ⊆ next.newConnections) :
    Decoding (events ++ [event]) next conn := by
  constructor
  · rw [line, connection, decoding.line]
  · rw [received_append, arrived, List.append_nil, connection, decoding.accounted]
  · rw [connection]
    exact decoding.valid
  · rw [connection]
    exact decoding.idle
  · rw [connection]
    exact decoding.unannounced
  · rw [connection]
    intro connected
    exact kept (decoding.announced connected)

/-- The connection callback changes only the phase, and `connecting` is left for
good. -/
theorem afterPhase {source : Conn} {connected : Bool} {phase : Phase}
    (decoding : Decoding events server conn) (left : phase ≠ .connecting)
    (announced : conn = source →
      conn ∈ (server.onConnection source connected).newConnections) :
    Decoding (events ++ [.onConnection source connected])
      ((server.setConnection source
        { server.connection source with phase := phase }).onConnection source connected)
      conn := by
  have arrived : arrival conn
      (.onConnection source connected : ServerEvent Conn Timestamp) = [] := rfl
  by_cases own : conn = source
  · subst source
    constructor
    · simpa using decoding.line
    · simpa [received_append, arrived] using decoding.accounted
    · simpa using decoding.valid
    · simpa using decoding.idle
    · intro connecting
      rw [LuaServer.onConnection_connection,
        LuaServer.setConnection_connection_self] at connecting
      exact absurd connecting left
    · intro _
      cases connected <;> exact announced rfl
  · refine decoding.frame ?_ ?_ arrived ?_
    · simp [own]
    · simp
    · exact LuaServer.newConnections_onConnection (server.setConnection source _) _ _

theorem afterConnectionChanged {source : Conn} {connected : Bool}
    (decoding : Decoding events server conn)
    (stepped : server.connectionChanged source connected = some next) :
    Decoding (events ++ [.onConnection source connected]) next conn := by
  unfold LuaServer.connectionChanged at stepped
  dsimp only at stepped
  split at stepped
  next =>
    obtain rfl := Option.some.inj stepped
    apply decoding.afterPhase
    · decide
    · rintro rfl
      exact List.mem_append_right _ (List.mem_singleton.mpr rfl)
  next phase =>
    obtain rfl := Option.some.inj stepped
    apply decoding.afterPhase
    · decide
    · rintro rfl
      exact decoding.announced (by simp [phase])
  next => contradiction

theorem afterRead {source : Conn} {chunk : Chunk Timestamp}
    (decoding : Decoding events server conn)
    (stepped : server.read source chunk = some next) :
    Decoding (events ++ [.read source chunk]) next conn := by
  unfold LuaServer.read at stepped
  dsimp only at stepped
  split at stepped
  next enabled =>
    cases stepped
    by_cases own : conn = source
    · subst source
      have arrived : arrival conn (.read conn chunk) = chunk.data := by simp [arrival]
      constructor
      · simpa using decoding.line
      · rw [received_append, arrived, decoding.accounted]
        simp [Buffer.append]
      · simpa using decoding.valid
      · simp
      · intro connecting
        rw [LuaServer.setConnection_connection_self] at connecting
        exact absurd connecting enabled.1
      · simpa using decoding.announced
    · have arrived : arrival conn (.read source chunk) = [] := by
        simp [arrival, Ne.symm own]
      refine decoding.frame ?_ ?_ arrived ?_
      · simp [own]
      · simp
      · simp
  next => contradiction

theorem afterLastPass {source : Conn} {shutdowns : Nat}
    (decoding : Decoding events server conn)
    (active : (server.connection source).decoding.isSome = true)
    (stopped : (iteration (server.connection source).inputBuffer).found = .more ∨
      (iteration (server.connection source).inputBuffer).found = .halt) :
    Decoding (events ++ [.pass source])
      (server.setConnection source
        { server.connection source with decoding := none, shutdowns := shutdowns }) conn := by
  have arrived : arrival conn (.pass source : ServerEvent Conn Timestamp) = [] := rfl
  by_cases own : conn = source
  · subst source
    constructor
    · simpa using decoding.line
    · simpa [received_append, arrived] using decoding.accounted
    · simpa using decoding.valid
    · intro _
      rw [LuaServer.setConnection_connection_self]
      rcases stopped with found | found
      · exact congrArg Scanned.items (framing.scan_more found)
      · exact congrArg Scanned.items (framing.scan_halt found)
    · intro connecting
      rw [LuaServer.setConnection_connection_self] at connecting
      rw [(decoding.unannounced connecting).1] at active
      contradiction
    · simpa using decoding.announced
  · refine decoding.frame ?_ ?_ arrived ?_
    · simp [own]
    · simp
    · simp

theorem afterFrame {source : Conn} {receiveTime : Timestamp} {message : Bytes}
    {rest : Buffer} (decoding : Decoding events server conn)
    (active : (server.connection source).decoding = some receiveTime)
    (taken : iteration (server.connection source).inputBuffer = .frame message rest) :
    Decoding (events ++ [.pass source])
      (server.afterFrame source receiveTime message rest) conn := by
  have arrived : arrival conn (.pass source : ServerEvent Conn Timestamp) = [] := rfl
  by_cases own : conn = source
  · subst source
    rcases framing.eq_encode (find_eq_item.mpr taken) with ⟨valid, buffer⟩
    change (server.connection conn).inputBuffer = send message ++ rest at buffer
    constructor
    · rw [LuaServer.afterFrame_queues, Queues.line_onMessageQueue, ofConnection_append,
        decoding.line]
      simp [ofConnection]
    · rw [received_append, arrived, decoding.accounted, buffer]
      simp
    · intro other membership
      simp only [LuaServer.afterFrame_connection_self, List.mem_append,
        List.mem_singleton] at membership
      rcases membership with earlier | rfl
      · exact decoding.valid other earlier
      · exact valid
    · intro idle
      simp [active] at idle
    · intro connecting
      rw [LuaServer.afterFrame_connection_self] at connecting
      rw [(decoding.unannounced connecting).1] at active
      contradiction
    · simpa using decoding.announced
  · refine decoding.frame ?_ ?_ arrived ?_
    · simp [own]
    · rw [LuaServer.afterFrame_queues, Queues.line_onMessageQueue, ofConnection_append]
      simp [ofConnection, Ne.symm own]
    · simp

theorem afterPass {source : Conn} (decoding : Decoding events server conn)
    (stepped : server.pass source = some next) :
    Decoding (events ++ [.pass source]) next conn := by
  unfold LuaServer.pass at stepped
  dsimp only at stepped
  cases active : (server.connection source).decoding with
  | none => simp [active] at stepped
  | some receiveTime =>
      have inProgress : (server.connection source).decoding.isSome = true := by
        simp [active]
      simp only [active] at stepped
      cases taken : iteration (server.connection source).inputBuffer with
      | shortHeader =>
          simp only [taken, Option.some.injEq] at stepped
          rw [← stepped]
          exact decoding.afterLastPass inProgress (.inl (by rw [taken]; rfl))
      | invalidLength len =>
          simp only [taken, Option.some.injEq] at stepped
          rw [← stepped]
          exact decoding.afterLastPass inProgress (.inr (by rw [taken]; rfl))
      | frame message rest =>
          simp only [taken, Option.some.injEq] at stepped
          rw [← stepped]
          exact decoding.afterFrame active taken
      | shortBody =>
          simp only [taken, Option.some.injEq] at stepped
          rw [← stepped]
          exact decoding.afterLastPass inProgress (.inl (by rw [taken]; rfl))

theorem afterHandler {handlerStep : HandlerStep} {queues : Queues (MessageQueue Conn Timestamp)}
    (decoding : Decoding events server conn)
    (stepped : server.queues.hanleMessageQueue handlerStep = some queues) :
    Decoding (events ++ [.handler handlerStep]) { server with queues := queues } conn := by
  refine decoding.frame ?_ ?_ rfl ?_
  · rfl
  · rw [(Queues.hanleMessageQueue_line stepped).1]
  · exact List.Subset.refl _

theorem step {event : ServerEvent Conn Timestamp} (decoding : Decoding events server conn)
    (stepped : server.step event = some next) : Decoding (events ++ [event]) next conn := by
  cases event with
  | publish =>
      cases stepped
      refine decoding.frame ?_ ?_ rfl ?_
      · rfl
      · rfl
      · exact List.Subset.refl _
  | onConnection source connected => exact decoding.afterConnectionChanged stepped
  | read source chunk => exact decoding.afterRead stepped
  | pass source => exact decoding.afterPass stepped
  | handler handlerStep =>
      rcases Option.map_eq_some_iff.mp stepped with ⟨queues, moved, rfl⟩
      exact decoding.afterHandler moved

theorem of_run (reached : (serverMachine Conn Timestamp).run events = some server)
    (conn : Conn) : Decoding events server conn :=
  (serverMachine Conn Timestamp).run_induction
    (motive := fun events server => Decoding events server conn) (initially conn)
    (fun _ _ _ _ decoding stepped => decoding.step stepped) reached

theorem items (decoding : Decoding events server conn) :
    (framing.scan (received conn events)).items =
      (server.connection conn).pushed ++
        (framing.scan (server.connection conn).inputBuffer).items := by
  have scanned := framing.scan_encode_append (server.connection conn).pushed
    (server.connection conn).inputBuffer decoding.valid
  rw [decoding.accounted]
  exact congrArg Scanned.items scanned

theorem handled (decoding : Decoding events server conn) :
    ofConnection conn server.queues.handled ++
        (ofConnection conn server.queues.batch ++
          ofConnection conn server.queues.messageQueue_) =
      (server.connection conn).pushed := by
  rw [← decoding.line, Queues.line, ofConnection_append, ofConnection_append]

end Decoding

theorem mem_ofConnection {conn : Conn} {postings : List (Posted (MessageQueue Conn Timestamp))}
    {posted : Posted (MessageQueue Conn Timestamp)} (membership : posted ∈ postings)
    (own : posted.message.conn_ = conn) :
    posted.message.message_ ∈ ofConnection conn postings :=
  List.mem_map.mpr ⟨posted, List.mem_filter.mpr ⟨membership, by simpa using own⟩, rfl⟩

/-- What the server has delivered of one connection's stream. -/
structure Delivered (events : List (ServerEvent Conn Timestamp))
    (server : LuaServer Conn Timestamp) (conn : Conn) : Prop where
  /-- Handled, in the local batch and waiting are together what was pushed. -/
  pushed : ofConnection conn server.queues.handled ++
      (ofConnection conn server.queues.batch ++
        ofConnection conn server.queues.messageQueue_) =
    (server.connection conn).pushed
  /-- What was pushed and what the buffer still decodes to is what the bytes of
  the connection decode to on a fresh buffer. -/
  decoded : ∀ receiveTime : Timestamp,
    (onMessage conn (received conn events) receiveTime).messages.map (·.message_) =
      (server.connection conn).pushed ++
        (onMessage conn (server.connection conn).inputBuffer receiveTime).messages.map
          (·.message_)
  accounted : received conn events =
    (server.connection conn).pushed.flatMap send ++ (server.connection conn).inputBuffer
  /-- Between two calls of `onMessage` everything decodable has been pushed. -/
  idle : (server.connection conn).decoding = none →
    ∀ receiveTime : Timestamp,
      (onMessage conn (received conn events) receiveTime).messages.map (·.message_) =
        (server.connection conn).pushed
  announced : ∀ posted ∈ server.queues.handled, posted.message.conn_ = conn →
    conn ∈ server.newConnections

theorem delivered (events : List (ServerEvent Conn Timestamp))
    (server : LuaServer Conn Timestamp)
    (reached : (serverMachine Conn Timestamp).run events = some server) (conn : Conn) :
    Delivered events server conn := by
  have decoding := Decoding.of_run reached conn
  refine ⟨decoding.handled, ?_, decoding.accounted, ?_, ?_⟩
  · intro receiveTime
    rw [onMessage_messages, onMessage_messages, decoding.items]
  · intro idle receiveTime
    rw [onMessage_messages, decoding.items, decoding.idle idle, List.append_nil]
  · intro posted membership own
    apply decoding.announced
    intro connecting
    have silent := (decoding.unannounced connecting).2
    rw [← decoding.handled, List.append_eq_nil_iff] at silent
    have member := mem_ofConnection membership own
    rw [silent.1] at member
    contradiction

/-- One connection's bytes arrive in two chunks, another's in between, and the
handler takes the queue before the second chunk is decoded. -/
theorem delivered_to_two_connections :
    let events : List (ServerEvent Bool Nat) :=
      [.publish, .onConnection true true, .onConnection false true,
        .read true ⟨[0, 0, 0, 1, 65, 0, 0], 1⟩, .pass true, .read false ⟨[0, 0, 0, 0], 2⟩,
        .pass false, .pass true, .handler .test, .handler .distill,
        .read true ⟨[0, 1, 66], 3⟩, .pass true, .handler .handle]
    ∃ server, (serverMachine Bool Nat).run events = some server ∧
      Delivered events server true :=
  ⟨_, rfl, delivered _ _ rfl true⟩

/-- The effect of a call of `onMessage` that no other thread interrupts. -/
def LuaServer.afterOnMessage (server : LuaServer Conn Timestamp) (conn : Conn)
    (receiveTime : Timestamp) : LuaServer Conn Timestamp :=
  let connection := server.connection conn
  let decoded := onMessage conn connection.inputBuffer receiveTime
  { server.setConnection conn
      { connection with
        inputBuffer := decoded.buffer
        decoding := none
        shutdowns := connection.shutdowns + decoded.shutdowns
        pushed := connection.pushed ++ decoded.messages.map (·.message_) } with
    queues := decoded.messages.foldl Queues.onMessageQueue server.queues }

/-- The passes of a call, taken one after another, are the whole of
`onMessage`. -/
theorem runFrom_passes {server : LuaServer Conn Timestamp} {conn : Conn}
    {receiveTime : Timestamp}
    (active : (server.connection conn).decoding = some receiveTime) :
    ∃ count, (serverMachine Conn Timestamp).runFrom server
      (List.replicate count (.pass conn)) = some (server.afterOnMessage conn receiveTime) := by
  generalize content : (server.connection conn).inputBuffer = buf
  induction buf using framing.scan_induction generalizing server with
  | more buf found =>
      have stopped : iteration buf = .shortHeader ∨ iteration buf = .shortBody :=
        found_eq_more.mp found
      refine ⟨1, (Machine.runFrom_cons_eq_some _).mpr ⟨_, ?_, rfl⟩⟩
      rw [← content] at stopped
      change server.pass conn = _
      rcases stopped with short | short
      · simp [LuaServer.pass, LuaServer.afterOnMessage, active, short, onMessage_short]
        rfl
      · simp [LuaServer.pass, LuaServer.afterOnMessage, active, short, onMessage_short]
        rfl
  | halt buf found =>
      rcases found_eq_halt.mp found with ⟨len, refused⟩
      refine ⟨1, (Machine.runFrom_cons_eq_some _).mpr ⟨_, ?_, rfl⟩⟩
      rw [← content] at refused
      change server.pass conn = _
      simp [LuaServer.pass, LuaServer.afterOnMessage, active, refused,
        onMessage_invalidLength conn receiveTime refused]
      rfl
  | item buf message rest found inductionHypothesis =>
      have taken := find_eq_item.mp found
      rw [← content] at taken
      have stepped :
          server.pass conn = some (server.afterFrame conn receiveTime message rest) := by
        simp [LuaServer.pass, active, taken]
      rcases @inductionHypothesis (server.afterFrame conn receiveTime message rest)
        (by simpa using active) (by simp) with ⟨count, later⟩
      refine ⟨count + 1, ?_⟩
      rw [List.replicate_succ]
      refine (Machine.runFrom_cons_eq_some _).mpr ⟨_, stepped, later.trans ?_⟩
      simp [LuaServer.afterOnMessage, onMessage_frame conn receiveTime taken,
        LuaServer.setConnection, LuaServer.afterFrame]

end Delivery

end LuaEngine.Server
