import ScriptVM.Embedding.Globals

/-!
# Contexts

A context is what it takes to call functions of a unit when no run of it is going on: the constants
pool, a handle to globals, and limits. A call works on a snapshot of the globals; only if it
succeeds are they written back.
-/

namespace ScriptVM

/-- What calls from a host run in. -/
structure Context where
  constants : Array Value
  globals : Globals
  /-- The unit that the constants came from. -/
  source : CompiledUnit
  limits : Limits
  deriving Inhabited

namespace Context

/-! ## Making contexts -/

/-- A context with the default limits. There must be a source and constants, all filled in. -/
def new (constants : Option (Array Value)) (globals : Globals) (source : Option CompiledUnit) :
    Except Fault Context := do
  let some source := source | .error .invalidExecutionContext
  let some constants := constants |
    .error (.missingExecutionContext "execution-context" "constants" none)
  validateConstants constants
  .ok ⟨constants, globals, source, {}⟩

def withGlobals (c : Context) (globals : Globals) : Context := { c with globals := globals }

/-- The same context over a deep copy of its globals. -/
def withIsolatedGlobals (c : Context) : StoreM Context :=
  return c.withGlobals (← c.globals.deepCopy)

def withLimits (c : Context) (limits : Limits) : Context := { c with limits := limits }

/-- Checks the constants once more. -/
def validate (c : Context) : Except Fault Unit := validateConstants c.constants

/-! ## Calling -/

/-- Calls a value. The answer is the result and the globals as the call left them; a builtin leaves
them as they are. -/
def callWithGlobals (host : Host) (steps : Nat) (c : Context) (callee : Value)
    (args : List Value) : StoreM (Value × Array Value) :=
  match callee with
  | .function f => do
    let before ← c.globals.snapshot
    let (result, after) ←
      StoreM.onRun (f.invoke host steps (some c.constants) before args c.limits)
    -- A fault has left the computation above, so only a success gets here.
    c.globals.replace after
    return (result, after)
  | .builtin b => do
    let result ← StoreM.onHeap (b.call host args)
    return (result, ← c.globals.snapshot)
  | .undefined =>
    StoreM.fault (.missingExecutionContext "execution-context" "compiled function"
      (some "provide a valid CompiledFunction"))
  | v => StoreM.fault (.notCallable v.typeName)

/-- Calls a value for its result. -/
def call (host : Host) (steps : Nat) (c : Context) (callee : Value) (args : List Value) :
    StoreM Value :=
  return (← c.callWithGlobals host steps callee args).1

end Context
end ScriptVM
