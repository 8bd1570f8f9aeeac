import ScriptVM.Bytecode.Function

/-!
# Building functions

A `FunctionBuilder` holds a function under construction. Instructions are appended one at a time; a
jump forward is emitted with an empty target and pointed to the right place later.
-/

namespace ScriptVM

/-- A function under construction. -/
structure FunctionBuilder where
  code : Array UInt8 := #[]
  numLocals : Nat := 0
  numParams : Nat := 0
  variadic : Bool := false
  captures : List Capture := []
  deriving DecidableEq, Repr, Inhabited

namespace FunctionBuilder

/-! ## What a call needs to know -/

/-- Declares the number of parameters. They take the first local slots. -/
def params (b : FunctionBuilder) (n : Nat) : FunctionBuilder :=
  { b with numParams := n, numLocals := max b.numLocals n }

/-- Declares the number of local slots, parameters included. -/
def locals (b : FunctionBuilder) (n : Nat) : FunctionBuilder :=
  { b with numLocals := max n b.numParams }

/-- Makes the last parameter collect the remaining arguments. -/
def collectRest (b : FunctionBuilder) : FunctionBuilder := { b with variadic := true }

/-- Appends a captured variable. -/
def capture (b : FunctionBuilder) (c : Capture) : FunctionBuilder :=
  { b with captures := b.captures ++ [c] }

/-! ## Instructions -/

/-- The offset of the next instruction. -/
def position (b : FunctionBuilder) : Nat := b.code.size

def emit (b : FunctionBuilder) (op : Opcode) (operands : List Nat) : FunctionBuilder :=
  { b with code := b.code ++ (op.encode operands).toArray }

/-- Appends a jump without a target yet, and tells its offset. -/
def emitJump (b : FunctionBuilder) (op : Opcode) : Nat × FunctionBuilder :=
  (b.position, b.emit op [0])

/-- Writes bytes over the ones from an offset on. -/
def overwrite (code : Array UInt8) (offset : Nat) : List UInt8 → Array UInt8
  | [] => code
  | b :: rest => overwrite (code.setIfInBounds offset b) (offset + 1) rest

/-- Points the jump at an offset to a target. Nothing happens unless four bytes follow it. -/
def patchJump (b : FunctionBuilder) (offset target : Nat) : FunctionBuilder :=
  if offset + 5 ≤ b.code.size then
    { b with code := overwrite b.code (offset + 1) (bigEndian 4 target) }
  else b

def build (b : FunctionBuilder) : Function :=
  { Function.ofCode b.code b.numLocals b.numParams with
    variadic := b.variadic
    captures := b.captures }

end FunctionBuilder
end ScriptVM
