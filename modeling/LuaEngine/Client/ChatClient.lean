import LuaEngine.Codec.Chunking
import LuaEngine.System.Machine

/-!
# The chat client

`main` reads lines and passes each to `ChatClient::write`, while the event loop
of another thread announces connections.  `connection_` is read and assigned
under `mutex_`, so a run is an interleaving of whole calls of `write` and
`onConnection`.
-/

namespace LuaEngine.Client

open LuaEngine.Codec LuaEngine.Codec.LengthHeaderCodec LuaEngine.System

structure ChatClient (Conn : Type) where
  connection_ : Option Conn
  /-- What `codec_.send` has passed to a connection's `send`, in order. -/
  frames : List (Conn × Bytes)

namespace ChatClient

variable {Conn : Type}

def write (client : ChatClient Conn) (message : Bytes) : ChatClient Conn :=
  match client.connection_ with
  | some conn => { client with frames := client.frames ++ [(conn, send message)] }
  | none => client

def onConnection (client : ChatClient Conn) (conn : Conn) (connected : Bool) :
    ChatClient Conn :=
  { client with connection_ := if connected then some conn else none }

end ChatClient

inductive ClientEvent (Conn : Type) where
  | write (line : Bytes)
  | onConnection (conn : Conn) (connected : Bool)

def announced {Conn : Type} (conn : Conn) (connected : Bool) : Option Conn :=
  if connected then some conn else none

/-- The loop of `main` next to muduo's `TcpClient`. -/
structure Main (Conn : Type) where
  /-- The lines `getline` has not returned yet. -/
  stdin : List Bytes
  /-- The connection `TcpClient` has announced and not taken back. -/
  up : Option Conn
  client : ChatClient Conn

namespace Main

variable {Conn : Type}

def writeLine (main : Main Conn) (line : Bytes) : Option (Main Conn) :=
  match main.stdin with
  | next :: lines =>
      if next = line then
        some { main with stdin := lines, client := main.client.write line }
      else
        none
  | [] => none

theorem writeLine_eq_some {main next : Main Conn} {line : Bytes}
    (stepped : main.writeLine line = some next) :
    main.stdin = line :: next.stdin ∧ next.up = main.up ∧
      next.client = main.client.write line := by
  unfold writeLine at stepped
  split at stepped
  next head lines content =>
    split at stepped
    next same =>
      obtain rfl := Option.some.inj stepped
      exact ⟨by rw [content, same], rfl, rfl⟩
    next => contradiction
  next => contradiction

variable [DecidableEq Conn]

/-- Up and down alternate, and a connection goes down only after it was up. -/
def connectionChanged (main : Main Conn) (conn : Conn) (connected : Bool) :
    Option (Main Conn) :=
  if main.up = announced conn (!connected) then
    some { main with
      up := announced conn connected
      client := main.client.onConnection conn connected }
  else
    none

theorem connectionChanged_eq_some {main next : Main Conn} {conn : Conn} {connected : Bool}
    (stepped : main.connectionChanged conn connected = some next) :
    next.stdin = main.stdin ∧ next.up = announced conn connected ∧
      next.client = main.client.onConnection conn connected := by
  unfold connectionChanged at stepped
  split at stepped
  next =>
    obtain rfl := Option.some.inj stepped
    exact ⟨rfl, rfl, rfl⟩
  next => contradiction

def step (main : Main Conn) : ClientEvent Conn → Option (Main Conn)
  | .write line => main.writeLine line
  | .onConnection conn connected => main.connectionChanged conn connected

end Main

def chatMachine (Conn : Type) [DecidableEq Conn] (lines : List Bytes) :
    Machine (Main Conn) (ClientEvent Conn) where
  initial := ⟨lines, none, ⟨none, []⟩⟩
  step := Main.step

variable {Conn : Type}

/-- The lines a run writes, each with the connection that is up when it is
written. -/
def written (up : Option Conn) : List (ClientEvent Conn) → List (Option Conn × Bytes)
  | [] => []
  | .write line :: events => (up, line) :: written up events
  | .onConnection conn connected :: events =>
      written (announced conn connected) events

def framed : Option Conn × Bytes → Option (Conn × Bytes)
  | (some conn, line) => some (conn, send line)
  | (none, _) => none

@[simp]
theorem framed_some (conn : Conn) (line : Bytes) :
    framed (some conn, line) = some (conn, send line) := rfl

@[simp]
theorem framed_none (line : Bytes) : framed ((none : Option Conn), line) = none := rfl

variable [DecidableEq Conn]

def framesOn (conn : Conn) (frames : List (Conn × Bytes)) : List Bytes :=
  (frames.filter fun frame => frame.1 = conn).map Prod.snd

def writtenTo (conn : Conn) (lines : List (Option Conn × Bytes)) : List Bytes :=
  (lines.filter fun entry => entry.1 = some conn).map Prod.snd

theorem framesOn_framed (conn : Conn) (lines : List (Option Conn × Bytes)) :
    framesOn conn (lines.filterMap framed) = (writtenTo conn lines).map send := by
  induction lines with
  | nil => rfl
  | cons entry lines inductionHypothesis =>
      obtain ⟨up, line⟩ := entry
      cases up with
      | none => simpa [framesOn, writtenTo, List.filterMap_cons] using inductionHypothesis
      | some other =>
          by_cases same : other = conn
          · simpa [framesOn, writtenTo, same] using inductionHypothesis
          · simpa [framesOn, writtenTo, same] using inductionHypothesis

/-- The client's own record of the connection agrees with muduo's, so each step
frames the line it writes onto the connection that is up. -/
theorem runFrom_written (lines : List Bytes) {main final : Main Conn}
    {events : List (ClientEvent Conn)} (agreed : main.client.connection_ = main.up)
    (reached : (chatMachine Conn lines).runFrom main events = some final) :
    main.stdin = (written main.up events).map Prod.snd ++ final.stdin ∧
      final.client.frames =
        main.client.frames ++ (written main.up events).filterMap framed := by
  induction events generalizing main with
  | nil =>
      rw [Machine.runFrom, Option.some.injEq] at reached
      simp [reached, written]
  | cons event events inductionHypothesis =>
      obtain ⟨next, stepped, later⟩ := (Machine.runFrom_cons_eq_some _).mp reached
      cases event with
      | write line =>
          obtain ⟨taken, up, client⟩ := Main.writeLine_eq_some stepped
          have frames : next.client.frames =
              main.client.frames ++ (framed (main.up, line)).toList := by
            rw [client, ChatClient.write, agreed]
            cases main.up <;> simp
          have agreed' : next.client.connection_ = next.up := by
            rw [client, up, ← agreed, ChatClient.write]
            split <;> rfl
          obtain ⟨stdin, rest⟩ := inductionHypothesis agreed' later
          rw [up] at stdin rest
          constructor
          · rw [taken, stdin]
            rfl
          · rw [rest, frames, List.append_assoc]
            congr 1
            cases main.up <;> simp [written, List.filterMap_cons]
      | onConnection conn connected =>
          obtain ⟨kept, up, client⟩ := Main.connectionChanged_eq_some stepped
          have agreed' : next.client.connection_ = next.up := by
            rw [client, up]
            rfl
          obtain ⟨stdin, rest⟩ := inductionHypothesis agreed' later
          rw [up] at stdin rest
          constructor
          · rw [← kept, stdin]
            rfl
          · rw [rest, client]
            rfl

structure FramesLines (lines : List Bytes) (events : List (ClientEvent Conn))
    (main : Main Conn) : Prop where
  read : lines = (written none events).map Prod.snd ++ main.stdin
  /-- One frame for each line written while a connection is up, onto that
  connection, and none for any other line. -/
  frames : main.client.frames = (written none events).filterMap framed
  ordered : ∀ conn,
    framesOn conn main.client.frames = (writtenTo conn (written none events)).map send
  sublist : ∀ conn, (writtenTo conn (written none events)).Sublist lines

theorem framesLines (lines : List Bytes) (events : List (ClientEvent Conn))
    (main : Main Conn) (reached : (chatMachine Conn lines).run events = some main) :
    FramesLines lines events main := by
  obtain ⟨read, frames⟩ := runFrom_written lines rfl reached
  change main.client.frames = (written none events).filterMap framed at frames
  refine ⟨read, frames, ?_, ?_⟩
  · intro conn
    rw [frames, framesOn_framed]
  · intro conn
    have kept : (writtenTo conn (written none events)).Sublist
        ((written none events).map Prod.snd) :=
      List.filter_sublist.map Prod.snd
    apply kept.trans
    rw [show lines = _ from read]
    exact List.sublist_append_left _ _

theorem framesLines_over_a_reconnect :
    ∃ main, (chatMachine Nat [[65], [66], [67], [68]]).run
        [.write [65], .onConnection 1 true, .write [66], .onConnection 1 false,
          .write [67], .onConnection 2 true, .write [68]] = some main ∧
      FramesLines [[65], [66], [67], [68]]
        [.write [65], .onConnection 1 true, .write [66], .onConnection 1 false,
          .write [67], .onConnection 2 true, .write [68]] main :=
  ⟨_, rfl, framesLines _ _ _ rfl⟩

/-- A line written before the first connection is up is framed nowhere. -/
theorem line_lost_before_connection :
    ¬ ∀ (lines : List Bytes) (events : List (ClientEvent Nat)) (main : Main Nat),
      (chatMachine Nat lines).run events = some main →
        main.client.frames.map Prod.snd = ((written none events).map Prod.snd).map send := by
  intro lossless
  have framed := lossless [[65]] [.write [65]] ⟨[], none, ⟨none, []⟩⟩ rfl
  exact absurd framed (by decide)

end LuaEngine.Client
