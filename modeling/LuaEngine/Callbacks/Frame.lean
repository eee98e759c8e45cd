import LuaEngine.Callbacks.Callback

/-!
# Callbacks in the frame of `startServer`

While `startServer` runs its event loop the callbacks execute in its frame,
where slot 1 holds the ip string.  They hand `lua_pcall` index 1 as the error
function and do not look at the status it returns.
-/

namespace LuaEngine.Callbacks

open LuaEngine.Codec LuaEngine.Lua LuaEngine.System

/-- One callback and what the script has registered and defined by then. -/
structure Invocation where
  registered : Registered
  callback : Callback

namespace Invocation

def run (invocation : Invocation) (L : LuaState) :
    Option (LuaState × List ProtectedCall) :=
  L.execAll invocation.registered.environment
    (invocation.callback.api invocation.registered)

def call (invocation : Invocation) (L : LuaState) : ProtectedCall :=
  invocation.callback.call invocation.registered L

def Returns (invocation : Invocation) (nCcalls : Nat) : Prop :=
  ∃ results, invocation.registered.environment.script.luaD_call nCcalls
    (invocation.callback.func invocation.registered) invocation.callback.arguments =
      .returned results

theorem run_eq (invocation : Invocation) (L : LuaState) :
    invocation.run L =
      some ({ L with stack := L.stack ++ (invocation.call L).left }, [invocation.call L]) :=
  invocation.callback.execAll_api invocation.registered L

theorem result_call (invocation : Invocation) (L : LuaState) :
    (invocation.call L).result =
      invocation.registered.environment.script.luaD_call L.nCcalls
        (invocation.callback.func invocation.registered) invocation.callback.arguments := rfl

theorem left_call (invocation : Invocation) (L : LuaState) :
    (invocation.call L).left = [] ↔ invocation.Returns L.nCcalls :=
  LuaState.left_eq_nil_iff (invocation.callback.pushed invocation.registered L) _ _ _ _

/-- A callback that was never registered is an attempt to call nil. -/
theorem not_returns_of_unregistered {invocation : Invocation} {nCcalls : Nat}
    (unregistered : invocation.callback.func invocation.registered = .nil)
    (plain : invocation.registered.environment.script.callTM .nil = .nil) :
    ¬ invocation.Returns nCcalls := by
  rintro ⟨results, returned⟩
  rw [unregistered] at returned
  unfold Script.luaD_call at returned
  have raises : ∀ arguments, invocation.registered.environment.script.luaD_precall .nil
      arguments = .raised (.literal "attempt to call a nil value") := by
    intro arguments
    rw [Script.luaD_precall.eq_def]
    simp only [plain]
    rfl
  simp only [raises] at returned
  split at returned
  next =>
    split at returned
    next => contradiction
    next => split at returned <;> contradiction
  next => contradiction

end Invocation

/-- The stack keeps its height, and a raised value finds a function to be passed
to. -/
def LeavesNoTrace (L : LuaState) (invocation : Invocation) : Prop :=
  ∃ final call, invocation.run L = some (final, [call]) ∧
    final.stack.length = L.stack.length ∧
    ∀ error, call.result = .raised error →
      ∃ handler, call.errfunc = some handler ∧ handler.ttisfunction = true

theorem leavesNoTrace_iff (L : LuaState) (invocation : Invocation) :
    LeavesNoTrace L invocation ↔ invocation.Returns L.nCcalls := by
  unfold LeavesNoTrace
  constructor
  · rintro ⟨final, call, ran, height, -⟩
    rw [invocation.run_eq, Option.some.injEq, Prod.mk.injEq] at ran
    obtain ⟨rfl, -⟩ := ran
    rw [List.length_append] at height
    apply (invocation.left_call L).mp
    apply List.eq_nil_of_length_eq_zero
    omega
  · intro returns
    refine ⟨_, _, invocation.run_eq L, ?_, ?_⟩
    · simp [(invocation.left_call L).mpr returns]
    · intro error raised
      obtain ⟨results, returned⟩ := returns
      rw [invocation.result_call, returned] at raised
      contradiction

/-- The frame of `_startServer(ip, port)`. -/
def startServer (ip : Bytes) (port : LuaValue) (nCcalls : Nat) : LuaState :=
  ⟨[.string ip, port], nCcalls⟩

def callbackMachine (frame : LuaState) : Machine LuaState Invocation where
  initial := frame
  step L invocation := (invocation.run L).map Prod.fst

theorem callbackMachine_step (frame L : LuaState) (invocation : Invocation) :
    (callbackMachine frame).step L invocation =
      some { L with stack := L.stack ++ (invocation.call L).left } := by
  simp [callbackMachine, invocation.run_eq]

theorem first_slot (ip : Bytes) (port : LuaValue) (nCcalls : Nat)
    {invocations : List Invocation} {L : LuaState}
    (reached : (callbackMachine (startServer ip port nCcalls)).run invocations = some L) :
    ∃ rest, L.stack = .string ip :: rest := by
  refine (callbackMachine (startServer ip port nCcalls)).run_induction
    (motive := fun _ L => ∃ rest, L.stack = .string ip :: rest) ?_ ?_ reached
  · exact ⟨[port], rfl⟩
  · rintro _ state event next ⟨rest, stack⟩ stepped
    rw [callbackMachine_step, Option.some.injEq] at stepped
    rw [← stepped, stack]
    exact ⟨_, rfl⟩

/-- Whatever a callback raises is replaced by the error in error handling, which
stays on the stack. -/
theorem raised_error_lost (ip : Bytes) (port : LuaValue) (nCcalls : Nat)
    {invocations : List Invocation} {L : LuaState}
    (reached : (callbackMachine (startServer ip port nCcalls)).run invocations = some L)
    (invocation : Invocation) {error : LuaValue}
    (raised : (invocation.call L).result = .raised error) :
    (invocation.call L).status = .LUA_ERRERR ∧
      (invocation.call L).left = [errorInErrorHandling] := by
  obtain ⟨rest, stack⟩ := first_slot ip port nCcalls reached
  have handler : (invocation.callback.pushed invocation.registered L).index2adr 1 =
      .string ip := by
    simp [LuaState.index2adr, Callback.pushed, stack]
  have notFunction : (LuaValue.string ip).ttisfunction = false := rfl
  have lost := LuaState.luaD_pcall_not_function 0 notFunction raised
  rw [Invocation.call, Callback.call, LuaState.protectedCall]
  simp only [handler, if_neg Nat.one_ne_zero]
  exact ⟨congrArg Prod.fst lost, congrArg Prod.snd lost⟩

/-- Every callback of a sequence leaves no trace exactly when none of the
functions it calls raises. -/
theorem leavesNoTrace_iff_returns (ip : Bytes) (port : LuaValue) (nCcalls : Nat)
    (invocations : List Invocation) :
    (callbackMachine (startServer ip port nCcalls)).MeetsFrom LeavesNoTrace
        (startServer ip port nCcalls) invocations ↔
      ∀ invocation ∈ invocations, invocation.Returns nCcalls := by
  refine (callbackMachine (startServer ip port nCcalls)).meetsFrom_iff
    (fun L => L.nCcalls = nCcalls) ?_ ?_ invocations rfl
  · intro L invocation depth
    rw [leavesNoTrace_iff, depth]
  · intro L invocation depth
    exact ⟨_, callbackMachine_step _ L invocation, depth⟩

/-- Every function of this script raises, and one is registered for messages. -/
def raising : Registered :=
  ⟨⟨fun _ => .function 1, ⟨fun _ _ => .error (.string [98, 111, 111, 109]), fun _ => .nil⟩⟩,
    1, LUA_REFNIL⟩

theorem trace_left_by_raising_callback :
    ¬ ∀ (ip : Bytes) (port : LuaValue) (nCcalls : Nat) (invocations : List Invocation),
      (callbackMachine (startServer ip port nCcalls)).MeetsFrom LeavesNoTrace
        (startServer ip port nCcalls) invocations := by
  intro clean
  have trace := (clean [49, 50, 55] (.number (.finite 9981)) 1
    [⟨raising, .onMessage [49, 0] [104, 105, 0]⟩]).1
  obtain ⟨results, returned⟩ := (leavesNoTrace_iff _ _).mp trace
  contradiction

end LuaEngine.Callbacks
