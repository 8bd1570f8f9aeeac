import ScriptVM.Builtin.Core
import ScriptVM.Machine.State

/-!
# Calls and returns

A call finds the callee below its arguments on the stack. The new activation has its base just above
the callee, so the arguments become the first local slots; a collecting parameter takes the rest of
them as a new array, and further slots start as `undefined`. A return drops everything from the
callee on and puts the result in its place.
-/

namespace ScriptVM.Exec

/-! ## Calling -/

/-- Starts an activation of a function that stands at a stack index with its arguments above. -/
def enterFunction (f : Function) (callee argc : Nat) : Exec Unit := do
  ofExcept (f.checkArity argc)
  -- The collecting parameter gets its array even where nothing is left for it.
  if f.variadic then
    let rest ← onStack (Stack.popMany (argc - (f.numParams - 1)))
    push (← onHeap (HeapM.newArray rest.toArray))
  pushUndefined (f.numLocals - ((← stackSize) - (callee + 1)))
  pushFrame (.start f (callee + 1))

/-- Calls a builtin that stands at a stack index with its arguments above, and puts its result
there. A result other than `undefined` counts as an allocation. -/
def callBuiltin (host : Host) (b : Builtin) (callee : Nat) : Exec Unit := do
  -- The arguments stay on the stack until the call has succeeded.
  let args ← onStack (Stack.sliceFrom (callee + 1))
  let result ← onHeap (b.call host args)
  unless result.isUndefined do charge
  onStack (Stack.truncate callee)
  push result

/-- Replaces the array on top of the stack, the last of some arguments, by its elements. The number
of arguments that there are then is the answer. Without arguments there is nothing to spread. -/
def spreadLast (argc : Nat) : Exec Nat := do
  if argc = 0 then return 0
  else
    match ← pop with
    | .array ref =>
      let items := (← get).heap.arrayAt ref
      pushAll items.toList
      return argc - 1 + items.size
    | v => throw (.invalidArgumentType "spread" "array" v.typeName)

/-- Calls what stands below so many arguments. -/
def call (host : Host) (argc : Nat) (spread : Bool) : Exec Unit := do
  let argc ← if spread then spreadLast argc else pure argc
  let size ← stackSize
  if size < argc + 1 then throw .stackUnderflow
  else
    let callee := size - (argc + 1)
    match ← onStack (Stack.get callee) with
    | .function f => enterFunction f.function callee argc
    | .builtin b => callBuiltin host b callee
    | v => throw (.notCallable v.typeName)

/-! ## Returning -/

/-- What an activation returns: the value on top of the stack, which is taken, or `undefined`. -/
def returnValue (taken : Bool) : Exec Value := if taken then pop else return .undefined

/-- Ends the executing activation. A return out of the outermost one ends the run with the result;
any other puts it in the callee's place. -/
def leave (result : Value) : Exec (Option Value) := do
  match (← get).frames with
  | [] => throw (.internal .returnWithoutFrame)
  | f :: rest =>
    -- The activation is over even if its result finds no callee to replace.
    modify fun m => { m with frames := rest }
    if rest.isEmpty then return some result
    else if f.base = 0 then throw .stackUnderflow
    else
      onStack (Stack.truncate (f.base - 1))
      push result
      return none

/-- What a run ends with when it is stopped: the top of the stack, if the executing activation has
anything above its local slots. -/
def haltResult : Exec Value := do
  let f ← frame
  if f.base + f.function.numLocals < (← stackSize) then top else return .undefined

end ScriptVM.Exec
