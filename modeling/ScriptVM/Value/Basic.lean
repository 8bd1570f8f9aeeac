import ScriptVM.Bytecode.Function
import ScriptVM.Number.Binary64

/-!
# Values

What scripts compute with. Scalars, strings and error values are plain data. Arrays and maps are
mutable and shared, so a value only refers to them; what they hold is in the heap. Functions never
change once they are made, so a value carries them whole, together with the identity by which two
of them are told apart.
-/

namespace ScriptVM

/-! ## References and identities -/

structure ArrayRef where
  index : Nat
  deriving DecidableEq, Repr, Inhabited

structure MapRef where
  index : Nat
  deriving DecidableEq, Repr, Inhabited

/-- A function as a value. The identity tells it apart from other functions of the same code. -/
structure FunctionObject where
  id : Nat
  function : Function
  deriving DecidableEq, Repr, Inhabited

/-- The builtin functions that every script can reach. There is one object for each. -/
inductive CoreBuiltin where
  | len
  | append
  | copy
  | string
  | int
  | typeName
  | isError
  deriving DecidableEq, Repr

/-- A function that a host adds. What it does is for the host to say. -/
structure HostFunction where
  id : Nat
  name : String
  deriving DecidableEq, Repr, Inhabited

/-- A function that is not bytecode. -/
inductive Builtin where
  | core (builtin : CoreBuiltin)
  | host (function : HostFunction)
  deriving DecidableEq, Repr

/-! ## Values -/

/-- A value of the scripting language. -/
inductive Value where
  | undefined
  | bool (b : Bool)
  | int (n : Int64)
  | float (x : Binary64)
  | string (s : String)
  | array (ref : ArrayRef)
  | map (ref : MapRef)
  /-- A script's own error, with anything for its payload. -/
  | error (payload : Value)
  | function (f : FunctionObject)
  | builtin (b : Builtin)
  deriving DecidableEq, Inhabited

namespace Value

/-- The name of a value's type, as scripts see it. -/
def typeName : Value → String
  | undefined => "undefined"
  | bool _ => "bool"
  | int _ => "int"
  | float _ => "float"
  | string _ => "string"
  | array _ => "array"
  | map _ => "map"
  | error _ => "error"
  | function _ => "compiled-function"
  | builtin _ => "builtin-function"

def isUndefined : Value → Bool
  | undefined => true
  | _ => false

def isError : Value → Bool
  | error _ => true
  | _ => false

def asInt? : Value → Option Int64
  | int n => some n
  | _ => none

def asString? : Value → Option String
  | string s => some s
  | _ => none

/-- The float that a number is or stands for. -/
def asNumber? : Value → Option Binary64
  | int n => some (Binary64.ofInt n.toInt)
  | float x => some x
  | _ => none

/-- How numbers and strings are ordered. An integer beside a float is taken for the nearest
float. -/
def compare? : Value → Value → Option Ordering
  | int a, int b => some (compare a b)
  | string a, string b => some (compare a b)
  | a, b =>
    match a.asNumber?, b.asNumber? with
    | some x, some y => x.compare? y
    | _, _ => none

end Value

/-! ## Identity of functions -/

/-- Whether two function values are one object. -/
def FunctionObject.same (f g : FunctionObject) : Bool := f.id == g.id

/-- Whether two builtins are one object. -/
def Builtin.same : Builtin → Builtin → Bool
  | core a, core b => decide (a = b)
  | host f, host g => f.id == g.id
  | _, _ => false

def CoreBuiltin.name : CoreBuiltin → String
  | len => "len"
  | append => "append"
  | copy => "copy"
  | string => "string"
  | int => "int"
  | typeName => "type_name"
  | isError => "is_error"

def Builtin.name : Builtin → String
  | core b => b.name
  | host f => f.name

end ScriptVM
