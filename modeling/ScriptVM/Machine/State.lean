import ScriptVM.Limits
import ScriptVM.Machine.Frame
import ScriptVM.Machine.Stack

/-!
# Machine states

The state of a run, and the small computations that instructions are made of. An `Exec` computation
may end in a fault; the machine is then left as far as the computation had got.
-/

namespace ScriptVM

/-- The state of a run. -/
structure Machine where
  /-- The constants pool. -/
  constants : Array Value
  stack : Stack
  /-- The activations, the executing one first. -/
  frames : List Frame
  maxFrames : Nat
  globals : Array Value
  /-- How many objects may still be allocated; no number means any. -/
  budget : Option Nat
  heap : Heap
  deriving DecidableEq, Inhabited

abbrev Exec := EStateM Fault Machine

namespace Machine

/-- A machine that has nothing to execute yet. -/
def idle (constants globals : Array Value) (limits : Limits) (heap : Heap) : Machine :=
  ⟨constants, Stack.ofCapacity limits.stackSize, [], limits.maxFrames, globals, limits.maxAllocs,
    heap⟩

def depth (m : Machine) : Nat := m.frames.length

end Machine

namespace Exec

variable {α : Type}

/-! ## Parts of the machine -/

def onStack (x : StackM α) : Exec α := fun m =>
  -- Nothing else holds the stack while `x` works on it, so it is updated in place.
  let s := m.stack
  let m := { m with stack := default }
  match x s with
  | .ok a s => .ok a { m with stack := s }
  | .error e s => .error e { m with stack := s }

def onHeap (x : HeapM α) : Exec α := fun m =>
  let h := m.heap
  let m := { m with heap := default }
  match x h with
  | .ok a h => .ok a { m with heap := h }
  | .error e h => .error e { m with heap := h }

def ofExcept : Except Fault α → Exec α
  | .ok a => pure a
  | .error e => throw e

def push (v : Value) : Exec Unit := onStack (Stack.push v)

def pop : Exec Value := onStack Stack.pop

def top : Exec Value := onStack (Stack.peek 0)

def stackSize : Exec Nat := return (← get).stack.size

def isFalsy (v : Value) : Exec Bool := return (← get).heap.isFalsy v

/-- Puts `undefined` on the stack, so many times. -/
def pushUndefined : Nat → Exec Unit
  | 0 => return
  | n + 1 => do
    push .undefined
    pushUndefined n

/-- Puts values on the stack, the last one topmost. -/
def pushAll : List Value → Exec Unit
  | [] => return
  | v :: rest => do
    push v
    pushAll rest

/-! ## Frames -/

def frame : Exec Frame := do
  match (← get).frames with
  | f :: _ => return f
  | [] => throw (.internal .noActiveFrame)

def setFrame (f : Frame) : Exec Unit :=
  modify fun m => { m with frames := f :: m.frames.tail }

/-- Starts an activation. -/
def pushFrame (f : Frame) : Exec Unit := do
  if (← get).frames.length < (← get).maxFrames then
    modify fun m => { m with frames := f :: m.frames }
  else throw .stackOverflow

/-- Goes on at an offset of the executing function. -/
def jump (target : Nat) : Exec Unit := do
  let f ← frame
  if target ≤ f.function.code.size then setFrame { f with ip := target }
  else throw (.internal (.jumpOutside target f.function.code.size))

/-! ## Constants, globals and the budget -/

def constant (index : Nat) : Exec Value := do
  let pool := (← get).constants
  match pool[index]? with
  | some v => return v
  | none => throw (.constantOutOfRange index pool.size)

def global (index : Nat) : Exec Value := do
  let globals := (← get).globals
  match globals[index]? with
  | some v => return v
  | none => throw (.globalOutOfRange index globals.size)

def setGlobal (index : Nat) (v : Value) : Exec Unit := do
  let size := (← get).globals.size
  if index < size then
    modify fun m => { m with globals := m.globals.setIfInBounds index v }
  else throw (.globalOutOfRange index size)

/-- Takes one allocation from the budget. -/
def charge : Exec Unit := do
  match (← get).budget with
  | none => return
  | some 0 => throw .objectAllocLimit
  | some (n + 1) => modify fun m => { m with budget := some n }

/-! ## Fetching -/

/-- The next byte of the executing function, which is then passed. -/
def nextByte : Exec UInt8 := do
  let f ← frame
  match f.function.code[f.ip]? with
  | some b =>
    setFrame { f with ip := f.ip + 1 }
    return b
  | none => throw (.internal .offTheCode)

/-- The number in the next so many bytes, continuing one read so far. -/
def operandFrom (acc : Nat) : (width : Nat) → Exec Nat
  | 0 => return acc
  | width + 1 => do
    let b ← nextByte
    operandFrom (acc * 256 + b.toNat) width

def operand (width : Nat) : Exec Nat := operandFrom 0 width

def opcode : Exec Opcode := do
  let b ← nextByte
  match Opcode.ofByte? b with
  | some op => return op
  | none => throw (.invalidOpcode b)

/-- The next instruction, which is then passed. -/
def instruction : Exec Instruction := do
  let op ← opcode
  let operands ← op.operandWidths.mapM operand
  return ⟨op, operands⟩

end Exec
end ScriptVM
