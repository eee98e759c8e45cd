import LuaEngine.Callbacks.Callback
import LuaEngine.Server.Delivery

/-!
# From the codec to the script

`hanleMessageQueue` passes a queued message to `onMessage` as the pointer
`c_str` returns, and `lua_pushstring` measures it with `strlen`.
-/

namespace LuaEngine.Callbacks

open LuaEngine.Codec LuaEngine.Codec.LengthHeaderCodec LuaEngine.Lua LuaEngine.Server

section Strings

theorem take_strlen_c_str (s : Bytes) :
    (c_str s).take (strlen (c_str s)) = s.takeWhile (· ≠ 0) := by
  have whole : (c_str s).takeWhile (· ≠ 0) = s.takeWhile (· ≠ 0) := by
    unfold c_str
    induction s with
    | nil => rfl
    | cons byte s inductionHypothesis =>
        by_cases zero : byte = 0
        · simp [zero]
        · simpa [zero] using inductionHypothesis
  rw [strlen, ← whole]
  exact List.prefix_iff_eq_take.mp (List.takeWhile_prefix _) |>.symm

theorem takeWhile_ne_zero_eq_iff (s : Bytes) : s.takeWhile (· ≠ 0) = s ↔ 0 ∉ s := by
  rw [List.takeWhile_eq_self_iff]
  constructor
  · intro nonzero membership
    simpa using nonzero 0 membership
  · intro absent byte membership
    simp only [ne_eq, decide_not, Bool.not_eq_true', decide_eq_false_iff_not]
    intro zero
    rw [zero] at membership
    exact absent membership

end Strings

variable {Conn Timestamp : Type}

/-- The call `hanleMessageQueue` makes for one message of its list. -/
def handOver (toString : Timestamp → Bytes) (messageQueue : MessageQueue Conn Timestamp) :
    Callback :=
  .onMessage (c_str (toString messageQueue.timestamp_)) (c_str messageQueue.message_)

theorem arguments_handOver (toString : Timestamp → Bytes)
    (messageQueue : MessageQueue Conn Timestamp) :
    (handOver toString messageQueue).arguments =
      [.string ((toString messageQueue.timestamp_).takeWhile (· ≠ 0)),
        .string (messageQueue.message_.takeWhile (· ≠ 0))] := by
  rw [handOver, Callback.arguments, take_strlen_c_str, take_strlen_c_str]

/-- The message a callback call is about arrives in the script unchanged. -/
def Arrives (toString : Timestamp → Bytes) (registered : Registered) (L : LuaState)
    (messageQueue : MessageQueue Conn Timestamp) : Prop :=
  ∃ final call,
    L.execAll registered.environment ((handOver toString messageQueue).api registered) =
      some (final, [call]) ∧
    call.func = registered.environment.registry registered.lua_messgecallback ∧
    call.arguments[1]? = some (.string messageQueue.message_)

theorem arrives_iff (toString : Timestamp → Bytes) (registered : Registered)
    (L : LuaState) (messageQueue : MessageQueue Conn Timestamp) :
    Arrives toString registered L messageQueue ↔ 0 ∉ messageQueue.message_ := by
  have ran := (handOver toString messageQueue).execAll_api registered L
  have second : ((handOver toString messageQueue).call registered L).arguments[1]? =
      some (.string (messageQueue.message_.takeWhile (· ≠ 0))) := by
    change (handOver toString messageQueue).arguments[1]? = _
    rw [arguments_handOver]
    rfl
  rw [← takeWhile_ne_zero_eq_iff]
  constructor
  · rintro ⟨final, call, ran', -, arrived⟩
    rw [ran, Option.some.injEq, Prod.mk.injEq, List.singleton_inj] at ran'
    rw [← ran'.2, second] at arrived
    injections
  · intro whole
    exact ⟨_, _, ran, rfl, by rw [second, whole]⟩

section Delivered

variable {Conn Timestamp : Type} [DecidableEq Conn]

/-- Every message handed over was decoded from the bytes of its connection, and
it arrives exactly when it has no NUL byte. -/
theorem handled_message_arrives_iff (toString : Timestamp → Bytes)
    (registered : Registered) (L : LuaState) (events : List (ServerEvent Conn Timestamp))
    (server : LuaServer Conn Timestamp)
    (reached : (serverMachine Conn Timestamp).run events = some server)
    (posted : Posted (MessageQueue Conn Timestamp))
    (handled : posted ∈ server.queues.handled) :
    posted.message.message_ ∈
        (LengthHeaderCodec.onMessage posted.message.conn_
          (received posted.message.conn_ events) posted.message.timestamp_).messages.map
            (·.message_) ∧
      (Arrives toString registered L posted.message ↔ 0 ∉ posted.message.message_) := by
  have decoding := Decoding.of_run reached posted.message.conn_
  constructor
  · rw [onMessage_messages, decoding.items, ← decoding.handled]
    apply List.mem_append_left
    apply List.mem_append_left
    exact mem_ofConnection handled rfl
  · exact arrives_iff toString registered L posted.message

def oneMessage (message : Bytes) : List (ServerEvent Unit Nat) :=
  [.publish, .onConnection () true, .read () ⟨send message, 7⟩, .pass (),
    .handler .test, .handler .distill, .handler .handle]

def quiet : Registered :=
  ⟨⟨fun _ => .function 1, silent⟩, 1, LUA_REFNIL⟩

theorem greeting_arrives_iff :
    ∃ server, (serverMachine Unit Nat).run (oneMessage [104, 105]) = some server ∧
      ⟨0, .onMessageQueue, ⟨(), [104, 105], 7⟩⟩ ∈ server.queues.handled ∧
      (Arrives (fun _ => [55]) quiet ⟨[], 1⟩ (⟨(), [104, 105], 7⟩ : MessageQueue Unit Nat) ↔
        0 ∉ ([104, 105] : Bytes)) := by
  refine ⟨_, rfl, List.mem_singleton.mpr rfl, ?_⟩
  exact (handled_message_arrives_iff (fun _ => [55]) quiet ⟨[], 1⟩ (oneMessage [104, 105]) _
    rfl ⟨0, .onMessageQueue, ⟨(), [104, 105], 7⟩⟩ (List.mem_singleton.mpr rfl)).2

/-- Of the message 41 00 42 the script is given 41. -/
theorem message_cut_at_nul :
    ¬ ∀ (events : List (ServerEvent Unit Nat)) (server : LuaServer Unit Nat),
      (serverMachine Unit Nat).run events = some server →
        ∀ posted ∈ server.queues.handled,
          Arrives (fun _ => [55]) quiet ⟨[], 1⟩ posted.message := by
  intro arrives
  have cut := arrives (oneMessage [65, 0, 66]) _ rfl
    ⟨0, .onMessageQueue, ⟨(), [65, 0, 66], 7⟩⟩ (List.mem_singleton.mpr rfl)
  have absent := (arrives_iff _ _ _ _).mp cut
  exact absurd absent (by decide)

end Delivered

end LuaEngine.Callbacks
