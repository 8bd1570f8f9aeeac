import ScriptVM.Machine.Step

/-!
# Runs

A run executes one instruction after the other until one of them ends it. Bytecode may go on
forever, so a run is given a number of steps; a run that needs more of them is told apart from one
that ends in a fault.
-/

namespace ScriptVM

/-- Why a run has no value. -/
inductive Stop where
  | fault (f : Fault)
  /-- The steps have run out. -/
  | outOfSteps
  deriving DecidableEq, Repr

/-- Runs a machine for at most so many steps. The machine is left where it stopped, and a run of it
goes on from there. -/
def Machine.run (host : Host) : (steps : Nat) → Machine → EStateM.Result Stop Machine Value
  | 0, m => .error .outOfSteps m
  | steps + 1, m =>
    match Exec.step host m with
    | .ok (some v) m => .ok v m
    | .ok none m => run host steps m
    | .error f m => .error (.fault f) m

/-- A compiled unit: a top-level function and the constants pool of all its functions. The identity
tells it apart from other units of the same content. -/
structure CompiledUnit where
  id : Nat
  main : Function
  constants : Array Value
  deriving DecidableEq, Inhabited

def Exec.enterMain (main : Function) : Exec Unit := do
  pushUndefined main.numLocals
  pushFrame (.start main 0)

/-- A machine about to execute a unit's top-level function. -/
def Machine.ofUnit (u : CompiledUnit) (globals : Array Value) (limits : Limits) (heap : Heap) :
    Except Fault Machine :=
  match Exec.enterMain u.main (.idle u.constants globals limits heap) with
  | .ok _ m => .ok m
  | .error f _ => .error f

/-- A computation over a heap that may also run out of steps. -/
abbrev RunM := EStateM Stop Heap

/-- The ends of two runs can be compared: the results or faults, and the states they leave. -/
instance decidableEqResult {ε σ α : Type} [DecidableEq ε] [DecidableEq σ] [DecidableEq α] :
    DecidableEq (EStateM.Result ε σ α)
  | .ok a s, .ok b t => decidable_of_iff (a = b ∧ s = t) (by simp)
  | .error a s, .error b t => decidable_of_iff (a = b ∧ s = t) (by simp)
  | .ok .., .error .. => isFalse nofun
  | .error .., .ok .. => isFalse nofun

namespace RunM

variable {α : Type}

def fault (f : Fault) : RunM α := throw (.fault f)

def ofExcept : Except Fault α → RunM α
  | .ok a => pure a
  | .error f => fault f

def onHeap (x : HeapM α) : RunM α := fun h =>
  match x h with
  | .ok a h => .ok a h
  | .error f h => .error (.fault f) h

/-- Runs a machine, whose heap has been taken out of the one at hand, and puts its heap back. The
answer is the value and the globals as the run left them. -/
def finish (host : Host) (steps : Nat) (m : Machine) : RunM (Value × Array Value) := fun _ =>
  match m.run host steps with
  | .ok v m => .ok (v, m.globals) m.heap
  | .error s m => .error s m.heap

end RunM

/-- Executes a unit once, from given globals. -/
def CompiledUnit.run (host : Host) (steps : Nat) (u : CompiledUnit) (globals : Array Value)
    (limits : Limits) : RunM (Value × Array Value) := do
  let m ← RunM.ofExcept (Machine.ofUnit u globals limits (← get))
  RunM.finish host steps m

end ScriptVM
