import ScriptVM.FieldMap
import ScriptVM.Value.Basic

/-!
# The heap

The heap holds what values refer to: the elements of arrays, the fields of maps and the contents of
cells. Objects are only ever added, so a reference stays good; one that was never handed out reads
as an empty container or as `undefined`.

`HeapM` is a computation over a heap that may end in a fault. A fault keeps the heap as far as the
computation had got, so what was written stays written.
-/

namespace ScriptVM

/-- What values refer to. -/
structure Heap where
  arrays : Array (Array Value) := #[]
  maps : Array (FieldMap Value) := #[]
  cells : Array Value := #[]
  /-- How many identities have been given out. -/
  identities : Nat := 0
  deriving DecidableEq, Inhabited

inductive Container where
  | array (ref : ArrayRef)
  | map (ref : MapRef)
  deriving DecidableEq, Repr

namespace Heap

/-! ## Reading -/

def arrayAt (h : Heap) (ref : ArrayRef) : Array Value := h.arrays.getD ref.index #[]

def mapAt (h : Heap) (ref : MapRef) : FieldMap Value := h.maps.getD ref.index FieldMap.empty

def cellAt (h : Heap) (ref : CellRef) : Value := h.cells.getD ref.index .undefined

/-- How many containers there are. No chain of different containers is longer. -/
def containers (h : Heap) : Nat := h.arrays.size + h.maps.size

/-! ## Adding -/

def addArray (h : Heap) (items : Array Value) : ArrayRef × Heap :=
  (⟨h.arrays.size⟩, { h with arrays := h.arrays.push items })

def addMap (h : Heap) (fields : FieldMap Value) : MapRef × Heap :=
  (⟨h.maps.size⟩, { h with maps := h.maps.push fields })

def addCell (h : Heap) (v : Value) : CellRef × Heap :=
  (⟨h.cells.size⟩, { h with cells := h.cells.push v })

/-- Gives out an identity. -/
def addIdentity (h : Heap) : Nat × Heap :=
  (h.identities, { h with identities := h.identities + 1 })

/-! ## Writing -/

/-- Overwrites an element of an array, if it is there. -/
def setElement (h : Heap) (ref : ArrayRef) (index : Nat) (v : Value) : Heap :=
  { h with arrays := h.arrays.modify ref.index fun items => items.setIfInBounds index v }

/-- Overwrites or adds a field of a map. -/
def setField (h : Heap) (ref : MapRef) (key : String) (v : Value) : Heap :=
  { h with maps := h.maps.modify ref.index fun fields => fields.insert key v }

def setCell (h : Heap) (ref : CellRef) (v : Value) : Heap :=
  { h with cells := h.cells.setIfInBounds ref.index v }

/-! ## Truth -/

/-- Whether a value counts as false: `undefined`, `false`, the integer zero, NaN, errors, and empty
strings and containers. The float zero does not. -/
def isFalsy (h : Heap) : Value → Bool
  | .undefined | .error _ => true
  | .bool b => !b
  | .int n => n == 0
  | .float x => x.isNaN
  | .string s => s.isEmpty
  | .array ref => (h.arrayAt ref).isEmpty
  | .map ref => (h.mapAt ref).entries.isEmpty
  | .function _ | .builtin _ => false

end Heap

/-! ## Computations over a heap -/

/-- A computation over a heap that ends with an answer or a fault, and with a heap in either
case. -/
abbrev HeapM := EStateM Fault Heap

/-- What a host's functions do. A function is given its arguments and the heap, and nothing else: it
holds no handle to the globals, to a program or to a context. What it changes there it changes
through the objects that the values in the globals refer to; which values the globals hold is up to
the runs and to the owners of handles alone. -/
abbrev Host := HostFunction → List Value → HeapM Value

namespace HeapM

def newArray (items : Array Value) : HeapM Value :=
  modifyGet fun h =>
    let (ref, h) := h.addArray items
    (.array ref, h)

def newMap (fields : FieldMap Value) : HeapM Value :=
  modifyGet fun h =>
    let (ref, h) := h.addMap fields
    (.map ref, h)

def newCell (v : Value) : HeapM CellRef := modifyGet fun h => h.addCell v

/-- A function as a new object. -/
def newFunction (f : Function) : HeapM FunctionObject :=
  modifyGet fun h =>
    let (id, h) := h.addIdentity
    (⟨id, f⟩, h)

/-- A new object for a function of the host. -/
def newHostFunction (name : String) : HeapM HostFunction :=
  modifyGet fun h =>
    let (id, h) := h.addIdentity
    (⟨id, name⟩, h)

/-- The answer of a check or look-up that leaves the heap alone. -/
def ofExcept {α : Type} : Except Fault α → HeapM α
  | .ok a => pure a
  | .error e => throw e

end HeapM
end ScriptVM
