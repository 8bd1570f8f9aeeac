import ScriptVM.Value.Display

/-!
# Operators

What the arithmetic, bitwise and ordering operators do with values. Integers wrap around at 64 bits.
An integer beside a float is taken for the nearest float. Addition also joins text to a string and
arrays to each other. An operator that does not apply to its operands is a fault that names their
types.
-/

namespace ScriptVM.Operator

/-! ## Integers -/

/-- The fault of an operator that does not apply to two operands of the given types. -/
def invalidBinary (op : Opcode) (left right : String) : Fault :=
  .invalidOperator op.symbol left (some right)

def invalidUnary (op : Opcode) (type : String) : Fault := .invalidOperator op.symbol type none

/-- A shift to the left. From 64 places on nothing is left. -/
def shiftLeft (a b : Int64) : Int64 := if 64 ≤ b then 0 else a <<< b

/-- A shift to the right, which repeats the sign. -/
def shiftRight (a b : Int64) : Int64 := if 64 ≤ b then (if a < 0 then -1 else 0) else a >>> b

def onInts (op : Opcode) (a b : Int64) : Except Fault Int64 :=
  match op with
  | .add => .ok (a + b)
  | .sub => .ok (a - b)
  | .mul => .ok (a * b)
  | .div => if b = 0 then .error .divisionByZero else .ok (a / b)
  | .rem => if b = 0 then .error .divisionByZero else .ok (a % b)
  | .bitAnd => .ok (a &&& b)
  | .bitOr => .ok (a ||| b)
  | .bitXor => .ok (a ^^^ b)
  | .bitAndNot => .ok (a &&& ~~~b)
  | .shl =>
    if b < 0 then .error (invalidBinary op "int" "negative int") else .ok (shiftLeft a b)
  | .shr =>
    if b < 0 then .error (invalidBinary op "int" "negative int") else .ok (shiftRight a b)
  | _ => .error (invalidBinary op "int" "int")

/-! ## Floats -/

/-- What an operator makes of two floats, if it applies to floats. -/
def onFloats (op : Opcode) (x y : Binary64) : Option Binary64 :=
  match op with
  | .add => some (x.add y)
  | .sub => some (x.sub y)
  | .mul => some (x.mul y)
  | .div => some (x.div y)
  | _ => none

/-! ## Values -/

/-- What an operator makes of two values that are not both integers and not both numbers. -/
def onOthers (op : Opcode) (left right : Value) : HeapM Value :=
  match op, left, right with
  | .add, .string s, v => return .string (s ++ (← get).textOf v)
  | .add, .array a, .array b => do
    let h ← get
    HeapM.newArray (h.arrayAt a ++ h.arrayAt b)
  | _, _, _ => throw (invalidBinary op left.typeName right.typeName)

def binary (op : Opcode) (left right : Value) : HeapM Value :=
  match left, right with
  | .int a, .int b => return .int (← HeapM.ofExcept (onInts op a b))
  | _, _ =>
    match left.asNumber?, right.asNumber? with
    | some x, some y =>
      match onFloats op x y with
      | some z => return .float z
      | none => throw (invalidBinary op left.typeName right.typeName)
    | _, _ => onOthers op left right

def unary (op : Opcode) (v : Value) : Except Fault Value :=
  match op, v with
  | .minus, .int n => .ok (.int (-n))
  | .minus, .float x => .ok (.float x.neg)
  | .bComplement, .int n => .ok (.int (~~~n))
  | _, _ => .error (invalidUnary op v.typeName)

/-- Whether an order is the one that an operator asks for, if the operator asks for an order. -/
def holds? (op : Opcode) (order : Ordering) : Option Bool :=
  match op with
  | .less => some order.isLT
  | .lessEq => some order.isLE
  | .greater => some order.isGT
  | .greaterEq => some order.isGE
  | _ => none

/-- Whether two values are in the order that an operator asks for. A NaN is in no order with any
number, whatever is asked for. -/
def order (op : Opcode) (left right : Value) : Except Fault Bool :=
  match left.compare? right with
  | some o =>
    match holds? op o with
    | some b => .ok b
    | none => .error (invalidBinary op left.typeName right.typeName)
  | none =>
    match left.asNumber?, right.asNumber? with
    | some _, some _ => .ok false
    | _, _ => .error (invalidBinary op left.typeName right.typeName)

end ScriptVM.Operator
