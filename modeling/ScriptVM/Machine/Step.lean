import ScriptVM.Container
import ScriptVM.Machine.Activation
import ScriptVM.Machine.Variable
import ScriptVM.Operator
import ScriptVM.Value.Equality

/-!
# One instruction

A step fetches an instruction with its operands and then does what it asks for, so nothing happens
where an operand is missing. An instruction that ends the run answers with the result.
-/

namespace ScriptVM.Exec

/-! ## Operators -/

/-- Replaces two values by what an operator makes of them. -/
def applyBinary (op : Opcode) : Exec Unit := do
  let right ← pop
  let left ← pop
  let result ← onHeap (Operator.binary op left right)
  -- A result counts as an allocation whatever its type.
  charge
  push result

/-- Replaces a value by what an operator makes of it. -/
def applyUnary (op : Opcode) : Exec Unit := do
  let v ← pop
  let result ← ofExcept (Operator.unary op v)
  charge
  push result

/-- Replaces two values by whether they are in the order that an operator asks for. -/
def applyOrder (op : Opcode) : Exec Unit := do
  let right ← pop
  let left ← pop
  push (.bool (← ofExcept (Operator.order op left right)))

/-- Whether the two topmost values, which are taken, are equal. -/
def popEqual : Exec Bool := do
  let b ← pop
  let a ← pop
  return (← get).heap.equal a b

/-! ## Containers -/

def makeArray (count : Nat) : Exec Unit := do
  let items ← onStack (Stack.popMany count)
  charge
  push (← onHeap (HeapM.newArray items.toArray))

/-- The fields of keys and values that follow each other. A key that is not a string is a fault. -/
def fieldsOf (fields : FieldMap Value) : List Value → Except Fault (FieldMap Value)
  | .string k :: v :: rest => fieldsOf (fields.insert k v) rest
  | key :: _ :: _ => .error (.invalidIndexType "map" key.typeName)
  | _ => .ok fields

def makeMap (pairs : Nat) : Exec Unit := do
  let flat ← onStack (Stack.popMany (pairs * 2))
  let fields ← ofExcept (fieldsOf FieldMap.empty flat)
  charge
  push (← onHeap (HeapM.newMap fields))

def makeError : Exec Unit := do
  let payload ← pop
  charge
  push (.error payload)

def readIndex : Exec Unit := do
  let key ← pop
  let receiver ← pop
  push (← ofExcept ((← get).heap.index receiver key))

def readSlice : Exec Unit := do
  let high ← pop
  let low ← pop
  let receiver ← pop
  let result ← onHeap (HeapM.slice receiver low high)
  charge
  push result

def writeIndex : Exec Unit := do
  let v ← pop
  let key ← pop
  let receiver ← pop
  onHeap (HeapM.assign receiver key v)

/-! ## Jumps -/

/-- Jumps if the value on top, which is taken, is falsy. -/
def jumpFalsy (target : Nat) : Exec Unit := do
  if ← isFalsy (← pop) then jump target

/-- Jumps if the value on top is falsy; takes it otherwise. -/
def andJump (target : Nat) : Exec Unit := do
  if ← isFalsy (← top) then jump target else discard pop

/-- Takes the value on top if it is falsy; jumps otherwise. -/
def orJump (target : Nat) : Exec Unit := do
  if ← isFalsy (← top) then discard pop else jump target

/-! ## All instructions -/

/-- An instruction that does not end the run. -/
def goOn (x : Exec Unit) : Exec (Option Value) := do
  x
  return none

/-- Does what an instruction asks for, and answers with the result if that ends the run. -/
def execute (host : Host) (i : Instruction) : Exec (Option Value) :=
  match i.op with
  | .constant => goOn do push (← constant i.first)
  | .null => goOn (push .undefined)
  | .true => goOn (push (.bool Bool.true))
  | .false => goOn (push (.bool Bool.false))
  | .pop => goOn (discard pop)
  | .equal => goOn do push (.bool (← popEqual))
  | .notEqual => goOn do push (.bool !(← popEqual))
  | .lnot => goOn do push (.bool (← isFalsy (← pop)))
  | .add | .sub | .mul | .div | .rem | .bitAnd | .bitOr | .bitXor | .bitAndNot | .shl | .shr =>
    goOn (applyBinary i.op)
  | .less | .lessEq | .greater | .greaterEq => goOn (applyOrder i.op)
  | .minus | .bComplement => goOn (applyUnary i.op)
  | .array => goOn (makeArray i.first)
  | .map => goOn (makeMap i.first)
  | .error => goOn makeError
  | .index => goOn readIndex
  | .sliceIndex => goOn readSlice
  | .setIndex => goOn writeIndex
  | .jump => goOn (jump i.first)
  | .jumpFalsy => goOn (jumpFalsy i.first)
  | .andJump => goOn (andJump i.first)
  | .orJump => goOn (orJump i.first)
  | .call => goOn (call host i.first (i.second != 0))
  | .getGlobal => goOn do push (← global i.first)
  | .setGlobal => goOn do setGlobal i.first (← pop)
  | .getLocal => goOn do push (← getLocal i.first)
  | .setLocal => goOn do setLocal i.first (← pop)
  | .defineLocal => goOn do defineLocal i.first (← pop)
  | .getFree => goOn do push (← getFree i.first)
  | .setFree => goOn do setFree i.first (← pop)
  | .getBuiltin => goOn do push (← coreBuiltin i.first)
  | .closure => goOn do push (← makeClosure i.first)
  | .ret => do leave (← returnValue (i.first != 0))
  | .halt => do return some (← haltResult)

def step (host : Host) : Exec (Option Value) := do execute host (← instruction)

end ScriptVM.Exec
