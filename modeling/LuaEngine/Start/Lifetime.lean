import Mathlib

/-!
# The lifetime of the Lua state

`LuaStart` opens a state, runs `ServMain.lua` in it and closes it; `CFSys._exit`
closes it as well, from inside a call the state is executing.
-/

namespace LuaEngine.Start

/-- What is done to the state `L`, in the order it is done. -/
inductive Operation where
  | lua_open
  | luaL_openlibs
  | set
  | luaL_register
  | exportClass
  | lua_pushcclosure
  | lua_gettop
  | luaL_loadfile
  | lua_pcall
  | statement
  | luaL_checknumber
  | lua_pushnumber
  | luaD_poscall
  | on_error
  | print_error
  | lua_tostring
  | lua_pop
  | lua_close
  deriving DecidableEq

/-- The conversion of a number to `int32_t`, which C++ leaves undefined outside its
range. -/
structure Conversion where
  int32 : Int → Int
  exact : ∀ n, -2 ^ 31 ≤ n → n < 2 ^ 31 → int32 n = n

inductive Action where
  | statement
  | exit (argument : Option Int)
  deriving DecidableEq

/-- What the script does, if it loads. -/
structure Execution where
  loaded : Bool
  actions : List Action
  raises : Bool
  deriving DecidableEq

section Code

variable (conversion : Conversion)

/-- `CFSys._exit` -/
def sysExit : Option Int → List Operation
  | none => [.lua_gettop]
  | some n =>
      [.lua_gettop, .luaL_checknumber, .lua_pushnumber] ++
        if conversion.int32 n = -1 then [.lua_close] else []

/-- A call of a C function ends with `luaD_poscall`, which takes its results from the
stack. -/
def execute : Action → List Operation
  | .statement => [.statement]
  | .exit argument => sysExit conversion argument ++ [.luaD_poscall]

def dofile (execution : Execution) : List Operation :=
  [.lua_pushcclosure, .lua_gettop, .luaL_loadfile] ++
    (if execution.loaded then
      .lua_pcall :: execution.actions.flatMap (execute conversion) ++
        if execution.raises then [.on_error, .lua_pop] else []
    else
      [.lua_tostring, .print_error, .lua_pop]) ++
    [.lua_pop]

def LuaStart (execution : Execution) : List Operation :=
  [.lua_open, .luaL_openlibs, .set, .set, .luaL_register, .luaL_register, .exportClass] ++
    dofile conversion execution ++ [.lua_close]

end Code

/-- How often the state has been closed, and whether anything was done to it after
that. -/
structure Life where
  closes : Nat
  misused : Bool
  deriving DecidableEq

def Life.perform (life : Life) (operation : Operation) : Life where
  closes := if operation = .lua_close then life.closes + 1 else life.closes
  misused := life.misused || decide (0 < life.closes)

def Life.after (operations : List Operation) : Life := operations.foldl perform ⟨0, false⟩

/-- At no point has the state been closed twice, or been used after it was closed. -/
def ClosedOnce (operations : List Operation) : Prop :=
  ∀ done, done <+: operations → (Life.after done).closes ≤ 1 ∧ (Life.after done).misused = false

namespace Life

theorem closes_foldl (operations : List Operation) (life : Life) :
    (operations.foldl perform life).closes = life.closes + operations.count .lua_close := by
  induction operations generalizing life with
  | nil => rfl
  | cons operation operations inductionHypothesis =>
      rw [List.foldl_cons, inductionHypothesis, List.count_cons]
      by_cases closes : operation = .lua_close
      · simp [perform, closes]
        omega
      · simp [perform, closes]

theorem after_concat (operations : List Operation) (operation : Operation) :
    after (operations ++ [operation]) = (after operations).perform operation :=
  List.foldl_concat perform ⟨0, false⟩ operation operations

/-- Nothing but `lua_close` closes the state. -/
theorem after_open {operations : List Operation} (stays : Operation.lua_close ∉ operations) :
    after operations = ⟨0, false⟩ := by
  induction operations using List.reverseRecOn with
  | nil => rfl
  | append_singleton operations operation inductionHypothesis =>
      rw [List.mem_append, List.mem_singleton, not_or] at stays
      rw [after_concat, inductionHypothesis stays.1]
      simp [perform, Ne.symm stays.2]

end Life

/-- A state that is closed at the end is closed once if it is not closed before. -/
theorem closedOnce_concat {operations : List Operation} :
    ClosedOnce (operations ++ [.lua_close]) ↔ Operation.lua_close ∉ operations := by
  constructor
  · intro once membership
    have bounded := (once _ (List.prefix_refl _)).1
    rw [Life.after, Life.closes_foldl, List.count_append] at bounded
    have earlier := List.count_pos_iff.mpr membership
    simp at bounded
    omega
  · intro stays done earlier
    rcases List.prefix_concat_iff.mp earlier with rfl | inside
    · rw [Life.after_concat, Life.after_open stays]
      exact ⟨le_rfl, rfl⟩
    · rw [Life.after_open fun membership => stays (inside.subset membership)]
      exact ⟨Nat.zero_le 1, rfl⟩

variable {conversion : Conversion}

theorem close_mem_execute {action : Action} :
    Operation.lua_close ∈ execute conversion action ↔
      ∃ n, action = .exit (some n) ∧ conversion.int32 n = -1 := by
  cases action with
  | statement => simp [execute]
  | exit argument =>
      cases argument with
      | none => simp [execute, sysExit]
      | some n =>
          by_cases closes : conversion.int32 n = -1
          · simp [execute, sysExit, closes]
          · simp [execute, sysExit, closes]

theorem close_mem_dofile {execution : Execution} :
    Operation.lua_close ∈ dofile conversion execution ↔
      execution.loaded = true ∧
        ∃ n, Action.exit (some n) ∈ execution.actions ∧ conversion.int32 n = -1 := by
  cases isLoaded : execution.loaded with
  | false => simp [dofile, isLoaded]
  | true =>
      have tail : Operation.lua_close ∉
          if execution.raises then [Operation.on_error, .lua_pop] else [] := by
        split <;> simp
      have script : Operation.lua_close ∈ execution.actions.flatMap (execute conversion) ↔
          ∃ n, Action.exit (some n) ∈ execution.actions ∧ conversion.int32 n = -1 := by
        rw [List.mem_flatMap]
        constructor
        · rintro ⟨action, membership, closes⟩
          obtain ⟨n, isExit, isMinusOne⟩ := close_mem_execute.mp closes
          rw [isExit] at membership
          exact ⟨n, membership, isMinusOne⟩
        · rintro ⟨n, membership, isMinusOne⟩
          exact ⟨_, membership, close_mem_execute.mpr ⟨n, rfl, isMinusOne⟩⟩
      rw [dofile, isLoaded, if_pos rfl]
      simp [tail, script]

theorem LuaStart_closedOnce {execution : Execution} :
    ClosedOnce (LuaStart conversion execution) ↔
      Operation.lua_close ∉ dofile conversion execution := by
  rw [LuaStart, closedOnce_concat]
  simp

/-- The state is closed once exactly when no call of `CFSys._exit` in the script that is
run has an argument that converts to -1. -/
theorem closedOnce_iff (conversion : Conversion) (execution : Execution) :
    ClosedOnce (LuaStart conversion execution) ↔
      (execution.loaded = true → ∀ n, Action.exit (some n) ∈ execution.actions →
        conversion.int32 n ≠ -1) := by
  rw [LuaStart_closedOnce, close_mem_dofile]
  constructor
  · intro stays isLoaded n membership isMinusOne
    exact stays ⟨isLoaded, n, membership, isMinusOne⟩
  · rintro others ⟨isLoaded, n, membership, isMinusOne⟩
    exact others isLoaded n membership isMinusOne

/-- The conversion that keeps the low 32 bits. -/
def wrapping : Conversion where
  int32 n := n.bmod (2 ^ 32)
  exact n lower upper := by
    apply Int.bmod_eq_of_le <;> omega

/-- `ServMain.lua` without a server type: the usage is printed, the state is closed, and
the script goes on to `require`. -/
def usage : Execution where
  loaded := true
  actions := [.statement, .statement, .exit (some (-1)), .statement, .statement]
  raises := false

theorem usage_closes_twice : ¬ ClosedOnce (LuaStart wrapping usage) := by
  rw [LuaStart_closedOnce, not_not, close_mem_dofile]
  exact ⟨rfl, -1, by decide, by decide⟩

end LuaEngine.Start
