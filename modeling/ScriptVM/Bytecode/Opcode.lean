/-!
# Opcodes

An instruction is one opcode byte followed by its operands. An opcode's byte is its place in the
list of all opcodes, and it fixes how many operands follow and how many bytes each one takes.
-/

namespace ScriptVM

/-- The instructions of the machine, in the order of their bytes. -/
inductive Opcode where
  /-- Push an entry of the constants pool. -/
  | constant
  /-- Push `undefined`. -/
  | null
  | true
  | false
  /-- Discard the top of the stack. -/
  | pop
  | add
  | sub
  | mul
  | div
  | rem
  | bitAnd
  | bitOr
  | bitXor
  | bitAndNot
  | shl
  | shr
  | less
  | lessEq
  | greater
  | greaterEq
  | equal
  | notEqual
  | minus
  /-- Replace the top of the stack by whether it is falsy. -/
  | lnot
  | bComplement
  /-- Go on elsewhere. -/
  | jump
  /-- Pop, and go on elsewhere if the value is falsy. -/
  | jumpFalsy
  /-- Go on elsewhere if the top is falsy, otherwise pop it. -/
  | andJump
  /-- Go on elsewhere if the top is truthy, otherwise pop it. -/
  | orJump
  /-- Make an array of as many values as the operand says. -/
  | array
  /-- Make a map of as many pairs of key and value as the operand says. -/
  | map
  /-- Wrap the top of the stack in an error value. -/
  | error
  | index
  | sliceIndex
  | setIndex
  /-- Call with a number of arguments; the second operand says whether the last one is spread. -/
  | call
  /-- Leave the function; the operand says whether with the top of the stack. -/
  | ret
  | getGlobal
  | setGlobal
  | getLocal
  | setLocal
  /-- Bind a local afresh, leaving any cell it was captured in. -/
  | defineLocal
  | getFree
  | setFree
  | getBuiltin
  /-- Make a closure of a function in the constants pool. -/
  | closure
  /-- Stop the run. -/
  | halt
  deriving DecidableEq, Repr

namespace Opcode

/-- All opcodes, in the order of their bytes. -/
def all : List Opcode :=
  [constant, null, .true, .false, pop, add, sub, mul, div, rem, bitAnd, bitOr, bitXor, bitAndNot,
    shl, shr, less, lessEq, greater, greaterEq, equal, notEqual, minus, lnot, bComplement, jump,
    jumpFalsy, andJump, orJump, array, map, error, index, sliceIndex, setIndex, call, ret,
    getGlobal, setGlobal, getLocal, setLocal, defineLocal, getFree, setFree, getBuiltin, closure,
    halt]

/-! ## Bytes -/

def byte (op : Opcode) : UInt8 := UInt8.ofNat (all.idxOf op)

def ofByte? (b : UInt8) : Option Opcode := all[b.toNat]?

theorem ofByte?_byte (op : Opcode) : ofByte? op.byte = some op := by cases op <;> rfl

/-! ## Names -/

/-- The name of an opcode in listings. -/
def name : Opcode → String
  | constant => "Constant"
  | null => "Null"
  | .true => "True"
  | .false => "False"
  | pop => "Pop"
  | add => "Add"
  | sub => "Sub"
  | mul => "Mul"
  | div => "Div"
  | rem => "Rem"
  | bitAnd => "BitAnd"
  | bitOr => "BitOr"
  | bitXor => "BitXor"
  | bitAndNot => "BitAndNot"
  | shl => "Shl"
  | shr => "Shr"
  | less => "Less"
  | lessEq => "LessEq"
  | greater => "Greater"
  | greaterEq => "GreaterEq"
  | equal => "Equal"
  | notEqual => "NotEqual"
  | minus => "Minus"
  | lnot => "LNot"
  | bComplement => "BComplement"
  | jump => "Jump"
  | jumpFalsy => "JumpFalsy"
  | andJump => "AndJump"
  | orJump => "OrJump"
  | array => "Array"
  | map => "Map"
  | error => "Error"
  | index => "Index"
  | sliceIndex => "SliceIndex"
  | setIndex => "SetIndex"
  | call => "Call"
  | ret => "Return"
  | getGlobal => "GetGlobal"
  | setGlobal => "SetGlobal"
  | getLocal => "GetLocal"
  | setLocal => "SetLocal"
  | defineLocal => "DefineLocal"
  | getFree => "GetFree"
  | setFree => "SetFree"
  | getBuiltin => "GetBuiltin"
  | closure => "Closure"
  | halt => "Halt"

def ofName? (s : String) : Option Opcode := all.find? (·.name == s)

/-- How an operator is spelled in faults; every other opcode is a question mark. -/
def symbol : Opcode → String
  | add => "+"
  | sub | minus => "-"
  | mul => "*"
  | div => "/"
  | rem => "%"
  | bitAnd => "&"
  | bitOr => "|"
  | bitXor | bComplement => "^"
  | bitAndNot => "&^"
  | shl => "<<"
  | shr => ">>"
  | less => "<"
  | lessEq => "<="
  | greater => ">"
  | greaterEq => ">="
  | _ => "?"

/-! ## Operands -/

def totalWidth : (widths : List Nat) → Nat
  | [] => 0
  | width :: widths => width + totalWidth widths

def operandWidths : Opcode → List Nat
  | constant | array | map | getGlobal | setGlobal | closure => [2]
  | jump | jumpFalsy | andJump | orJump => [4]
  | ret | getLocal | setLocal | defineLocal | getFree | setFree | getBuiltin => [1]
  | call => [1, 1]
  | _ => []

def operandsWidth (op : Opcode) : Nat := totalWidth op.operandWidths

/-- How many bytes the whole instruction takes. -/
def width (op : Opcode) : Nat := 1 + op.operandsWidth

/-- Whether the instruction may go on elsewhere in the function. -/
def isJump : Opcode → Bool
  | jump | jumpFalsy | andJump | orJump => Bool.true
  | _ => Bool.false

end Opcode
end ScriptVM
