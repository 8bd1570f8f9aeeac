import ScriptVM.Bytecode.Arity
import ScriptVM.Bytecode.Opcode

/-!
# Faults

A fault ends a run. It is not a script's error value, which is an ordinary value. Each cause is a
constructor with what it has to tell; `Fault.message` is the one place where causes are put into
words.

Types are carried by their names, as scripts see them.
-/

namespace ScriptVM

/-- What only malformed bytecode, or a host function, runs into. -/
inductive InternalFault where
  /-- There is no frame to execute. -/
  | noActiveFrame
  /-- The next byte lies past the end of the function. -/
  | offTheCode
  /-- The code ends within the operands of an instruction. -/
  | truncatedOperand (op : Opcode)
  /-- A jump leaves the function. -/
  | jumpOutside (target codeSize : Nat)
  /-- A closure is made of a constant that is no function. -/
  | notAFunction (index : Nat) (type : String)
  /-- The executing function has not captured that many variables. -/
  | noFreeVariable (index count : Nat)
  /-- The core table has no such entry. -/
  | unknownBuiltin (index : Nat)
  /-- There is no frame to leave. -/
  | returnWithoutFrame
  /-- A cause in a host's own words. -/
  | told (text : String)
  deriving DecidableEq, Repr

/-- Why a run ended without a value. -/
inductive Fault where
  | stackOverflow
  | stackUnderflow
  | objectAllocLimit
  | indexOutOfBounds (index : Int) (length : Nat)
  | invalidIndexType (receiver key : String)
  | invalidIndexOnError
  | notIndexable (type : String)
  | notIndexAssignable (type : String)
  | invalidSliceIndex (low high : Int)
  /-- An operator that does not apply to its operand, or to its two operands. -/
  | invalidOperator (operator left : String) (right : Option String)
  | divisionByZero
  | notCallable (type : String)
  | wrongNumArguments (want : Arity) (got : Nat)
  | invalidArgumentType (name expected found : String)
  | globalOutOfRange (index length : Nat)
  | constantOutOfRange (index length : Nat)
  | invalidOpcode (byte : UInt8)
  | invalidExecutionContext
  | missingExecutionContext (function missing : String) (suggestion : Option String)
  | invalidConstantsArray (reason : String) (index : Option Nat)
  | invalidGlobalsArray (reason : String) (index : Option Nat)
  | internal (cause : InternalFault)
  deriving DecidableEq, Repr

def InternalFault.message : InternalFault → String
  | noActiveFrame => "no active frame"
  | offTheCode => "instruction pointer out of bounds"
  | truncatedOperand op => "truncated operand for " ++ op.name
  | jumpOutside target codeSize =>
    "jump target " ++ toString target ++ " outside function of " ++ toString codeSize ++ " bytes"
  | notAFunction index type =>
    "closure constant " ++ toString index ++ " is " ++ type ++ ", not a function"
  | noFreeVariable index count =>
    "free variable " ++ toString index ++ " out of range (have " ++ toString count ++ ")"
  | unknownBuiltin index => "unknown builtin " ++ toString index
  | returnWithoutFrame => "return without a frame"
  | told text => text

namespace Fault

/-- Where in an array something is wrong. -/
def place : Option Nat → String
  | some index => " at index " ++ toString index
  | none => ""

/-- An operator as it would be written between or before the types of its operands. -/
def operation (operator left : String) : Option String → String
  | some right => left ++ " " ++ operator ++ " " ++ right
  | none => operator ++ left

def message : Fault → String
  | stackOverflow => "stack overflow"
  | stackUnderflow => "stack underflow"
  | objectAllocLimit => "object allocation limit exceeded"
  | indexOutOfBounds index length =>
    "index out of bounds: index " ++ toString index ++ ", length " ++ toString length
  | invalidIndexType receiver key => "invalid index type: " ++ receiver ++ "[" ++ key ++ "]"
  | invalidIndexOnError => "invalid index on error"
  | notIndexable type => "not indexable: " ++ type
  | notIndexAssignable type => "not index-assignable: " ++ type
  | invalidSliceIndex low high =>
    "invalid slice index: " ++ toString low ++ " > " ++ toString high
  | invalidOperator operator left right =>
    "invalid operator: " ++ operation operator left right
  | divisionByZero => "division by zero"
  | notCallable type => "not callable: " ++ type
  | wrongNumArguments want got =>
    "wrong number of arguments: " ++ want.text ++ ", got=" ++ toString got
  | invalidArgumentType name expected found =>
    "invalid type for argument '" ++ name ++ "': expected " ++ expected ++ ", found " ++ found
  | globalOutOfRange index length =>
    "global index " ++ toString index ++ " out of range (length " ++ toString length ++ ")"
  | constantOutOfRange index length =>
    "constant index " ++ toString index ++ " out of range (length " ++ toString length ++ ")"
  | invalidOpcode byte => "invalid opcode: " ++ toString byte.toNat
  | invalidExecutionContext => "invalid execution context"
  | missingExecutionContext function missing suggestion =>
    "function '" ++ function ++ "' requires " ++ missing ++ " for execution" ++
      (match suggestion with
      | some s => " - " ++ s
      | none => "")
  | invalidConstantsArray reason index =>
    "invalid constants array" ++ place index ++ ": " ++ reason
  | invalidGlobalsArray reason index =>
    "invalid globals array" ++ place index ++ ": " ++ reason
  | internal cause => "internal error: " ++ cause.message

/-- The name of the kind of a fault, by which hosts can tell faults apart. -/
def kind : Fault → String
  | .stackOverflow => "StackOverflow"
  | .stackUnderflow => "StackUnderflow"
  | .objectAllocLimit => "ObjectAllocLimit"
  | .indexOutOfBounds .. => "IndexOutOfBounds"
  | .invalidIndexType .. => "InvalidIndexType"
  | .invalidIndexOnError => "InvalidIndexOnError"
  | .notIndexable _ => "NotIndexable"
  | .notIndexAssignable _ => "NotIndexAssignable"
  | .invalidSliceIndex .. => "InvalidSliceIndex"
  | .invalidOperator .. => "InvalidOperator"
  | .divisionByZero => "DivisionByZero"
  | .notCallable _ => "NotCallable"
  | .wrongNumArguments .. => "WrongNumArguments"
  | .invalidArgumentType .. => "InvalidArgumentType"
  | .globalOutOfRange .. => "GlobalOutOfRange"
  | .constantOutOfRange .. => "ConstantOutOfRange"
  | .invalidOpcode _ => "InvalidOpcode"
  | .invalidExecutionContext => "InvalidExecutionContext"
  | .missingExecutionContext .. => "MissingExecutionContext"
  | .invalidConstantsArray .. => "InvalidConstantsArray"
  | .invalidGlobalsArray .. => "InvalidGlobalsArray"
  | .internal _ => "Internal"

end Fault
end ScriptVM
