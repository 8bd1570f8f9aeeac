import ScriptVM.Machine.Run

/-!
# Calls from outside a run

A function that a run has made can be called when the run is over. The call gets a machine of its
own: at the bottom is an activation of a stub that only halts, and above it the function is called
as any other. Returning from the function lands in the stub, which ends the run with the result.

Before there is a machine, the constants pool and the number of arguments are checked.
-/

namespace ScriptVM

/-- The stub that calls from outside return to. -/
def rootStub : Function := .ofCode #[Opcode.halt.byte] 0 0

/-- Refuses a constants pool with an entry that was never filled in. -/
def validateConstants (pool : Array Value) : Except Fault Unit :=
  match pool.findIdx? Value.isUndefined with
  | some index => .error (.invalidConstantsArray "nil constant" (some index))
  | none => .ok ()

def Exec.enterCall (f : FunctionObject) (args : List Value) : Exec Unit := do
  pushFrame (.start rootStub 0)
  push (.function f)
  pushAll args
  enterFunction f.function 0 args.length

/-- Calls a function from outside, with a constants pool if there is one. The answer is the result
and the globals as the call left them. -/
def FunctionObject.invoke (host : Host) (steps : Nat) (f : FunctionObject)
    (constants : Option (Array Value)) (globals : Array Value) (args : List Value)
    (limits : Limits) : RunM (Value × Array Value) := do
  let some pool := constants |
    RunM.fault (.missingExecutionContext "compiled-function" "constants from original compilation"
      none)
  -- Neither check depends on the limits, so both come before the machine is made.
  RunM.ofExcept (validateConstants pool)
  RunM.ofExcept (f.function.checkArity args.length)
  match Exec.enterCall f args (.idle pool globals limits (← get)) with
  | .ok _ m => RunM.finish host steps m
  | .error e m =>
    set m.heap
    RunM.fault e

end ScriptVM
