import ScriptVM.Value.Heap

/-!
# Conversions

A host works with values of its own types. A `HostType` names such a type, `Carrier` is the type
itself, and values of it are made into script values by `toValue` and read back by `ofValue`.

A script value of another type is refused; in a container, the first bad element is told, in the
order of elements or of keys. An integer is accepted where a float is expected, and anything absent
is `undefined`.
-/

namespace ScriptVM

/-- The host types that values convert to and from. -/
inductive HostType where
  | unit
  | bool
  | int32
  | int64
  /-- Sizes: 64 bits without a sign. -/
  | size
  | float
  | string
  /-- Script values as they are. -/
  | value
  | option (t : HostType)
  | list (t : HostType)
  | map (t : HostType)
  deriving DecidableEq, Repr

namespace HostType

/-- The values of a host type. -/
@[reducible] def Carrier : HostType → Type
  | unit => Unit
  | bool => Bool
  | int32 => Int32
  | int64 => Int64
  | size => UInt64
  | float => Binary64
  | string => String
  | value => Value
  | option t => Option t.Carrier
  | list t => List t.Carrier
  | map t => FieldMap t.Carrier

/-! ## To script values -/

/-- Makes a host value into a script value. Containers become new ones, and sizes keep their
bits. -/
def toValue : (t : HostType) → t.Carrier → HeapM Value
  | unit, _ => return .undefined
  | bool, b => return .bool b
  | int32, n => return .int n.toInt64
  | int64, n => return .int n
  | size, n => return .int n.toInt64
  | float, x => return .float x
  | string, s => return .string s
  | value, v => return v
  | option _, none => return .undefined
  | option t, some a => t.toValue a
  | list t, items => do
    let values ← items.mapM t.toValue
    HeapM.newArray values.toArray
  | map t, fields => do
    let values ← fields.traverse t.toValue
    HeapM.newMap values

/-! ## From script values -/

/-- The fault of a value that is not of the expected type. -/
def mismatch (expected : String) (found : Value) : Fault :=
  .invalidArgumentType "value" expected found.typeName

/-- Reads a host value from a script value. -/
def ofValue (h : Heap) : (t : HostType) → Value → Except Fault t.Carrier
  | unit, v =>
    match v with
    | .undefined => .ok ()
    | _ => .error (mismatch "undefined" v)
  | bool, v =>
    match v with
    | .bool b => .ok b
    | _ => .error (mismatch "bool" v)
  | int32, v =>
    match v with
    | .int n =>
      if Int32.minValue.toInt ≤ n.toInt ∧ n.toInt ≤ Int32.maxValue.toInt then .ok n.toInt32
      else .error (mismatch "int in i32 range" v)
    | _ => .error (mismatch "int" v)
  | int64, v =>
    match v with
    | .int n => .ok n
    | _ => .error (mismatch "int" v)
  | size, v =>
    match v with
    | .int n => if 0 ≤ n then .ok n.toUInt64 else .error (mismatch "non-negative int" v)
    | _ => .error (mismatch "non-negative int" v)
  | float, v =>
    match v.asNumber? with
    | some x => .ok x
    | none => .error (mismatch "float" v)
  | string, v =>
    match v with
    | .string s => .ok s
    | _ => .error (mismatch "string" v)
  | value, v => .ok v
  | option t, v =>
    match v with
    | .undefined => .ok none
    | _ => (t.ofValue h v).map some
  | list t, v =>
    match v with
    | .array ref => (h.arrayAt ref).toList.mapM (t.ofValue h)
    | _ => .error (mismatch "array" v)
  | map t, v =>
    match v with
    | .map ref => (h.mapAt ref).traverse (t.ofValue h)
    | _ => .error (mismatch "map" v)

end HostType
end ScriptVM
