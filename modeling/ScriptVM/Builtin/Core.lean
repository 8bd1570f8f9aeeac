import ScriptVM.Text.Blank
import ScriptVM.Value.Copy
import ScriptVM.Value.Display

/-!
# Core builtins

The table of functions that scripts reach by their place in it, and what each one does with its
arguments.
-/

namespace ScriptVM

namespace CoreBuiltin

/-! ## The table -/

/-- The core builtins in the order of the table. -/
def table : List CoreBuiltin := [len, append, copy, string, int, typeName, isError]

def ofIndex? (index : Nat) : Option CoreBuiltin := table[index]?

def indexOf? (name : String) : Option Nat := table.findIdx? (·.name == name)

/-! ## What they do -/

/-- The one argument of a function that takes no other number of them. -/
def onlyArgument : List Value → Except Fault Value
  | [v] => .ok v
  | args => .error (.wrongNumArguments (.exact 1) args.length)

/-- How many characters, elements or fields a value has. -/
def lengthOf (h : Heap) (v : Value) : Except Fault Nat :=
  match v with
  | .string s => .ok s.length
  | .array ref => .ok (h.arrayAt ref).size
  | .map ref => .ok (h.mapAt ref).size
  | _ => .error (.invalidArgumentType "first" "array/string/map" v.typeName)

/-- The integer that a value stands for, or `undefined`. Blank ends of a string do not count. -/
def toInt : Value → Value
  | .int n => .int n
  | .float x => .int x.toInt64
  | .bool b => .int (if b then 1 else 0)
  | .string s =>
    match SignedDecimal.read (Text.trim s.toList) with
    | some n => .int n
    | none => .undefined
  | _ => .undefined

/-- The string that a value stands for; `undefined` stands for none. -/
def toText (h : Heap) : Value → Value
  | .undefined => .undefined
  | v => .string (h.textOf v)

/-- A new array of the elements of an array and more values after them; `undefined` counts as an
array without elements. -/
def appendTo (args : List Value) : HeapM Value :=
  match args with
  | [] => throw (.wrongNumArguments (.atLeast 1) 0)
  | .undefined :: rest => HeapM.newArray rest.toArray
  | .array ref :: rest => do HeapM.newArray ((← get).arrayAt ref ++ rest.toArray)
  | v :: _ => throw (.invalidArgumentType "first" "array" v.typeName)

def call (b : CoreBuiltin) (args : List Value) : HeapM Value :=
  match b with
  | append => appendTo args
  | len => do
    let v ← HeapM.ofExcept (onlyArgument args)
    return .int (Int64.ofNat (← HeapM.ofExcept (lengthOf (← get) v)))
  | copy => do (← HeapM.ofExcept (onlyArgument args)).deepCopy
  | string => do
    let v ← HeapM.ofExcept (onlyArgument args)
    return toText (← get) v
  | int => return toInt (← HeapM.ofExcept (onlyArgument args))
  | typeName => return .string (← HeapM.ofExcept (onlyArgument args)).typeName
  | isError => return .bool (← HeapM.ofExcept (onlyArgument args)).isError

end CoreBuiltin

/-- Calls a builtin, where the host says what its own functions do. -/
def Builtin.call (host : Host) : Builtin → List Value → HeapM Value
  | core b, args => b.call args
  | .host f, args => host f args

end ScriptVM
