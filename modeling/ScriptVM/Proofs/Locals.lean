import ScriptVM.Proofs.CallMachine

/-!
# Ways to keep locals

The machine keeps a local on the stack, and moves it into a cell when a closure captures it for the
first time. A plainer machine keeps every local in a cell of its own from the beginning, so that a
closure only shares the cell. `Locals` is what such machines differ in: the operations that have to
do with locals. Everything else is the same interpreter for all of them.
-/

namespace ScriptVM

/-- The operations on the locals of the executing activation. -/
structure Locals where
  /-- Starts an activation, whose arguments are on the stack. -/
  enter : Frame → Exec Unit
  get : Nat → Exec Value
  set : Nat → Value → Exec Unit
  /-- Binds a local afresh. -/
  define : Nat → Value → Exec Unit
  /-- The cell of a local, for a closure. -/
  capture : Nat → Exec CellRef

namespace Locals

open Exec

/-! ## The interpreter

Each of these is the machine's own with the operations on locals left open.
-/

def enterFunction (l : Locals) (f : Function) (callee argc : Nat) : Exec Unit := do
  Exec.ofExcept (f.checkArity argc)
  if f.variadic then
    let rest ← onStack (Stack.popMany (argc - (f.numParams - 1)))
    push (← onHeap (HeapM.newArray rest.toArray))
  pushUndefined (f.numLocals - ((← stackSize) - (callee + 1)))
  l.enter (.start f (callee + 1))

def call (l : Locals) (host : Host) (argc : Nat) (spread : Bool) : Exec Unit := do
  let argc ← if spread then spreadLast argc else pure argc
  let size ← stackSize
  if size < argc + 1 then throw .stackUnderflow
  else
    let callee := size - (argc + 1)
    match ← onStack (Stack.get callee) with
    | .function f => l.enterFunction f.function callee argc
    | .builtin b => callBuiltin host b callee
    | v => throw (.notCallable v.typeName)

def captureVariable (l : Locals) : Capture → Exec CellRef
  | .ofLocal slot => l.capture slot
  | .ofFree index => freeCell index

def captureAll (l : Locals) : List Capture → Exec (List CellRef)
  | [] => return []
  | c :: rest => do
    let cell ← l.captureVariable c
    return cell :: (← l.captureAll rest)

def makeClosure (l : Locals) (index : Nat) : Exec Value := do
  match ← constant index with
  | .function prototype =>
    let cells ← l.captureAll prototype.function.captures
    charge
    return .function (← onHeap (HeapM.newFunction { prototype.function with cells := cells }))
  | v => throw (.internal (.notAFunction index v.typeName))

def execute (l : Locals) (host : Host) (i : Instruction) : Exec (Option Value) :=
  match i.op with
  | .call => goOn (l.call host i.first (i.second != 0))
  | .getLocal => goOn do push (← l.get i.first)
  | .setLocal => goOn do l.set i.first (← pop)
  | .defineLocal => goOn do l.define i.first (← pop)
  | .closure => goOn do push (← l.makeClosure i.first)
  | _ => Exec.execute host i

def step (l : Locals) (host : Host) : Exec (Option Value) := do l.execute host (← instruction)

/-- A step fetches and executes as the machine does, which does not depend on locals. -/
theorem step_eq (l : Locals) (host : Host) {m : Machine} {f : Frame} {rest : List Frame}
    (h : m.frames = f :: rest) :
    l.step host m = match f.function.fetch f.ip with
      | .instruction i next => l.execute host i (m.goTo next)
      | .fault e ip => .error e (m.goTo ip) := by
  unfold step
  rw [bind_eq, instruction_eq h]
  cases f.function.fetch f.ip <;> rfl

theorem step_of_no_frame (l : Locals) (host : Host) {m : Machine} (h : m.frames = []) :
    l.step host m = .error (.internal .noActiveFrame) m := by
  simp only [step, instruction, opcode, nextByte, bind, EStateM.bind, frame_of_no_frame h]

def run (l : Locals) (host : Host) : (steps : Nat) → Machine → EStateM.Result Stop Machine Value
  | 0, m => .error .outOfSteps m
  | steps + 1, m =>
    match l.step host m with
    | .ok (some v) m => .ok v m
    | .ok none m => l.run host steps m
    | .error f m => .error (.fault f) m

def enterMain (l : Locals) (main : Function) : Exec Unit := do
  pushUndefined main.numLocals
  l.enter (.start main 0)

/-! ## Locals that move into cells when they are captured

With the machine's own operations on locals, the interpreter is the machine.
-/

/-- The locals of the machine. -/
def onDemand : Locals := ⟨pushFrame, getLocal, setLocal, defineLocal, captureLocal⟩

theorem captureAll_onDemand (cs : List Capture) : onDemand.captureAll cs = Exec.captureAll cs := by
  induction cs with
  | nil => rfl
  | cons c cs ih =>
    have hc : onDemand.captureVariable c = Exec.capture c := by cases c <;> rfl
    rw [captureAll, Exec.captureAll, ih, hc]

theorem makeClosure_onDemand (index : Nat) :
    onDemand.makeClosure index = Exec.makeClosure index := by
  unfold makeClosure Exec.makeClosure
  refine bind_congr fun v => ?_
  cases v with
  | function prototype => simp only [captureAll_onDemand]
  | _ => rfl

theorem call_onDemand (host : Host) (argc : Nat) (spread : Bool) :
    onDemand.call host argc spread = Exec.call host argc spread := by
  cases spread <;> rfl

/-- By cases of the instructions, most of which have nothing to do with locals. -/
theorem execute_onDemand (host : Host) (i : Instruction) :
    onDemand.execute host i = Exec.execute host i := by
  obtain ⟨op, operands⟩ := i
  cases op
  case call => simp only [execute, Exec.execute, call_onDemand]
  case closure => simp only [execute, Exec.execute, makeClosure_onDemand]
  all_goals rfl

theorem step_onDemand (host : Host) : onDemand.step host = Exec.step host := by
  unfold step Exec.step
  simp only [execute_onDemand]

/-- What is proved of the interpreter with these locals is proved of the machine. -/
theorem run_onDemand (host : Host) (steps : Nat) (m : Machine) :
    onDemand.run host steps m = m.run host steps := by
  induction steps generalizing m with
  | zero => rfl
  | succ steps ih =>
    rw [run, Machine.run, step_onDemand]
    rcases Exec.step host m with ⟨_ | v, m'⟩ | ⟨e, m'⟩
    · exact ih m'
    · rfl
    · rfl

/-! ## Locals in cells of their own

Slots are still counted on the stack, so that heights and bases are the same as on the machine, but
what is in them is never read again.
-/

def cellOf (slot : Nat) : Exec CellRef := do
  match (← frame).cell? slot with
  | some cell => return cell
  | none => throw .stackUnderflow

/-- Gives the lowest so many local slots new cells with what is on the stack. -/
def bindSlots : Nat → Exec Unit
  | 0 => return
  | n + 1 => do
    bindSlots n
    let f ← frame
    let cell ← onHeap (HeapM.newCell (← onStack (Stack.get (f.base + n))))
    setFrame { f with promoted := (n, cell) :: f.promoted }

/-- Every local slot of every activation has a cell of its own: a new one when the activation
starts, and another new one each time the local is bound afresh. Closures share the cells. -/
def inCells : Locals where
  enter f := do
    pushFrame f
    bindSlots f.function.numLocals
  get slot := do
    let cell ← cellOf slot
    return (← MonadState.get).heap.cellAt cell
  set slot v := do
    let cell ← cellOf slot
    onHeap (modify fun h => h.setCell cell v)
  define slot v := do
    let f ← frame
    let cell ← onHeap (HeapM.newCell v)
    setFrame { f with promoted := (slot, cell) :: (f.unbind slot).promoted }
  capture := cellOf

end Locals
end ScriptVM
