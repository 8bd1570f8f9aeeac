import ScriptVM.Builtin.Core
import ScriptVM.Machine.State

/-!
# Variables and closures

Locals are read and written on the stack, or through their cell once they are captured. Captured
variables of the executing function are read and written through its cells. Making a closure
captures variables of the executing activation: a local slot is given a cell the first time and
keeps it until it is bound afresh, so all closures of one binding share it.
-/

namespace ScriptVM.Exec

/-! ## Locals -/

def getLocal (slot : Nat) : Exec Value := do
  let f ← frame
  match f.cell? slot with
  | some cell => return (← get).heap.cellAt cell
  | none => onStack (Stack.get (f.base + slot))

def setLocal (slot : Nat) (v : Value) : Exec Unit := do
  let f ← frame
  match f.cell? slot with
  | some cell => onHeap (modify fun h => h.setCell cell v)
  | none => onStack (Stack.set (f.base + slot) v)

/-- Binds a local afresh: closures that captured it keep the old binding. -/
def defineLocal (slot : Nat) (v : Value) : Exec Unit := do
  let f ← frame
  setFrame (f.unbind slot)
  onStack (Stack.set (f.base + slot) v)

/-! ## Captured variables -/

def freeCell (index : Nat) : Exec CellRef := do
  let f ← frame
  ofExcept (f.function.free? index)

def getFree (index : Nat) : Exec Value := do
  let cell ← freeCell index
  return (← get).heap.cellAt cell

def setFree (index : Nat) (v : Value) : Exec Unit := do
  let cell ← freeCell index
  onHeap (modify fun h => h.setCell cell v)

def coreBuiltin (index : Nat) : Exec Value :=
  match CoreBuiltin.ofIndex? index with
  | some b => return .builtin (.core b)
  | none => throw (.internal (.unknownBuiltin index))

/-! ## Closures -/

/-- The cell of a local, made and charged for if the local has not been captured yet. -/
def captureLocal (slot : Nat) : Exec CellRef := do
  let f ← frame
  -- The slot must be on the stack even where the frame has a cell for it already.
  let current ← onStack (Stack.get (f.base + slot))
  let (cell, created, f) ← onHeap (f.promote slot current)
  setFrame f
  if created then charge
  return cell

def capture : Capture → Exec CellRef
  | .ofLocal slot => captureLocal slot
  | .ofFree index => freeCell index

/-- The cells of variables to capture, in order. -/
def captureAll : List Capture → Exec (List CellRef)
  | [] => return []
  | c :: rest => do
    let cell ← capture c
    return cell :: (← captureAll rest)

/-- A new closure of a function in the constants pool. -/
def makeClosure (index : Nat) : Exec Value := do
  match ← constant index with
  | .function prototype =>
    let cells ← captureAll prototype.function.captures
    charge
    return .function (← onHeap (HeapM.newFunction { prototype.function with cells := cells }))
  | v => throw (.internal (.notAFunction index v.typeName))

end ScriptVM.Exec
