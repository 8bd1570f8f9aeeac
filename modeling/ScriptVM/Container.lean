import ScriptVM.Value.Heap

/-!
# Access to containers

Reading, writing and slicing by index or key. Reading what is not there gives `undefined`; writing
past the end of an array is a fault, while writing to a map adds what was not there. Strings can be
read and sliced like arrays of characters but never written.
-/

namespace ScriptVM

/-- An index that is not negative, as a position. -/
def position? (n : Int64) : Option Nat := if n < 0 then none else some n.toInt.toNat

/-- The fault of a key whose type does not fit the receiver. -/
def wrongKey (receiver key : Value) : Fault := .invalidIndexType receiver.typeName key.typeName

namespace Heap

/-! ## Reading -/

/-- What `receiver[key]` reads. An error value has one key, which holds its payload; `undefined`
can be read at any key. -/
def index (h : Heap) (receiver key : Value) : Except Fault Value :=
  match receiver, key with
  | .array ref, .int n => .ok (((position? n).bind ((h.arrayAt ref)[·]?)).getD .undefined)
  | .map ref, .string k => .ok (((h.mapAt ref).get? k).getD .undefined)
  | .string s, .int n =>
    .ok ((((position? n).bind (s.toList[·]?)).map fun c => .string (String.singleton c)).getD
      .undefined)
  | .error payload, .string "value" => .ok payload
  | .error _, _ => .error .invalidIndexOnError
  | .array _, _ | .map _, _ | .string _, _ => .error (wrongKey receiver key)
  | .undefined, _ => .ok .undefined
  | _, _ => .error (.notIndexable receiver.typeName)

end Heap

/-! ## Writing -/

/-- A place in a container that can be written. -/
inductive Place where
  | element (ref : ArrayRef) (index : Nat)
  | field (ref : MapRef) (key : String)
  deriving DecidableEq, Repr

namespace Heap

/-- Where `receiver[key]` is written: at an element that an array has, or at any field of a map. -/
def place (h : Heap) (receiver key : Value) : Except Fault Place :=
  match receiver, key with
  | .array ref, .int n =>
    let length := (h.arrayAt ref).size
    match position? n with
    | some i =>
      if i < length then .ok (.element ref i) else .error (.indexOutOfBounds n.toInt length)
    | none => .error (.indexOutOfBounds n.toInt length)
  | .map ref, .string k => .ok (.field ref k)
  | .array _, _ | .map _, _ => .error (wrongKey receiver key)
  | _, _ => .error (.notIndexAssignable receiver.typeName)

def write (h : Heap) (v : Value) : Place → Heap
  | .element ref i => h.setElement ref i v
  | .field ref k => h.setField ref k v

end Heap

def HeapM.assign (receiver key v : Value) : HeapM Unit := do
  let place ← HeapM.ofExcept ((← get).place receiver key)
  modify fun h => h.write v place

/-! ## Slicing -/

/-- How many elements or characters a value has that can be sliced. -/
def Heap.sliceLength (h : Heap) (receiver : Value) : Except Fault Nat :=
  match receiver with
  | .array ref => .ok (h.arrayAt ref).size
  | .string s => .ok s.length
  | _ => .error (.notIndexable receiver.typeName)

/-- A bound of a slice as a position between the ends. An open bound is the given end. -/
def sliceBound (receiver bound : Value) (openEnd length : Nat) : Except Fault Nat :=
  match bound with
  | .undefined => .ok openEnd
  -- A negative bound is taken for zero.
  | .int n => .ok (min n.toInt.toNat length)
  | _ => .error (wrongKey receiver bound)

/-- Both bounds of a slice of a receiver with so many elements, the low one first. -/
def sliceBounds (receiver low high : Value) (length : Nat) : Except Fault (Nat × Nat) := do
  let l ← sliceBound receiver low 0 length
  let r ← sliceBound receiver high length length
  if r < l then .error (.invalidSliceIndex l r) else .ok (l, r)

/-- What `receiver[low:high]` makes: a new array, or a string. -/
def HeapM.slice (receiver low high : Value) : HeapM Value := do
  let h ← get
  let length ← HeapM.ofExcept (h.sliceLength receiver)
  let (l, r) ← HeapM.ofExcept (sliceBounds receiver low high length)
  match receiver with
  | .array ref => HeapM.newArray ((h.arrayAt ref).extract l r)
  | .string s => return .string (String.ofList ((s.toList.drop l).take (r - l)))
  | _ => return .undefined

end ScriptVM
