import ScriptVM.Machine.Invocation
import ScriptVM.Value.Copy

/-!
# Shared globals

A host keeps vectors of globals between runs. A handle refers to one of them, and everything that
holds the same handle sees the same vector. The `Store` is what a host keeps: the heap and these
vectors.
-/

namespace ScriptVM

/-- What a host keeps between runs. -/
structure Store where
  heap : Heap := {}
  vectors : Array (Array Value) := #[]
  deriving DecidableEq, Inhabited

/-- Why an operation of a host is refused. -/
inductive Refusal where
  /-- No global has this name. -/
  | unknownGlobal (name : String)
  /-- A run that ended without a value. -/
  | stop (s : Stop)
  deriving DecidableEq, Repr

def Refusal.message : Refusal → String
  | unknownGlobal name => "unknown global: " ++ name
  | stop (.fault f) => f.message
  | stop .outOfSteps => "out of steps"

/-- A computation of a host. -/
abbrev StoreM := EStateM Refusal Store

namespace StoreM

variable {α : Type}

def fault (f : Fault) : StoreM α := throw (.stop (.fault f))

def ofExcept : Except Fault α → StoreM α
  | .ok a => pure a
  | .error f => fault f

/-- A run over the heap of the store. -/
def onRun (x : RunM α) : StoreM α := fun s =>
  let h := s.heap
  let s := { s with heap := default }
  match x h with
  | .ok a h => .ok a { s with heap := h }
  | .error e h => .error (.stop e) { s with heap := h }

theorem bind_eq {β : Type} (x : StoreM α) (k : α → StoreM β) (s : Store) :
    (x >>= k) s = match x s with
      | .ok a t => k a t
      | .error e t => .error e t := by
  simp only [bind, EStateM.bind]
  cases x s <;> rfl

theorem onRun_eq (x : RunM α) (s : Store) :
    onRun x s = match x s.heap with
      | .ok a h => .ok a { s with heap := h }
      | .error e h => .error (.stop e) { s with heap := h } := rfl

def onHeap (x : HeapM α) : StoreM α := onRun (RunM.onHeap x)

def newUnit (main : Function) (constants : Array Value) : StoreM CompiledUnit := do
  let id ← onHeap (modifyGet Heap.addIdentity)
  return ⟨id, main, constants⟩

end StoreM

/-- A handle to a vector of globals. -/
structure Globals where
  index : Nat
  deriving DecidableEq, Repr, Inhabited

namespace Globals

/-- A handle to a new vector. -/
def new (values : Array Value) : StoreM Globals :=
  modifyGet fun s => (⟨s.vectors.size⟩, { s with vectors := s.vectors.push values })

/-- The vector as it stands. -/
def snapshot (g : Globals) : StoreM (Array Value) := return (← get).vectors.getD g.index #[]

def replace (g : Globals) (values : Array Value) : StoreM Unit :=
  modify fun s => { s with vectors := s.vectors.setIfInBounds g.index values }

def get? (g : Globals) (slot : Nat) : StoreM (Option Value) := return (← g.snapshot)[slot]?

/-- Overwrites a slot, and tells whether it is there. -/
def set (g : Globals) (slot : Nat) (v : Value) : StoreM Bool := do
  let values ← g.snapshot
  if slot < values.size then
    g.replace (values.setIfInBounds slot v)
    return true
  else return false

/-- A handle to a new vector of deep copies. -/
def deepCopy (g : Globals) : StoreM Globals := do
  let values ← g.snapshot
  let copies ← StoreM.onHeap (values.toList.mapM Value.deepCopy)
  new copies.toArray

end Globals
end ScriptVM
