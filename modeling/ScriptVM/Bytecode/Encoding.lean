import ScriptVM.Fault

/-!
# The encoding of instructions

Operands are written after their opcode with the most significant byte first. `encode` writes an
instruction and `readOperands` reads its operands back.
-/

namespace ScriptVM

/-! ## Numbers as bytes -/

/-- A number in a row of `width` bytes, the most significant one first. What does not fit is
lost. -/
def bigEndian : (width n : Nat) → List UInt8
  | 0, _ => []
  | width + 1, n => bigEndian width (n / 256) ++ [UInt8.ofNat n]

/-- The number in a row of bytes, continuing one read so far. -/
def bigEndianFrom (acc : Nat) : List UInt8 → Nat
  | [] => acc
  | b :: rest => bigEndianFrom (acc * 256 + b.toNat) rest

def ofBigEndian (bytes : List UInt8) : Nat := bigEndianFrom 0 bytes

theorem length_bigEndian (width n : Nat) : (bigEndian width n).length = width := by
  induction width generalizing n with
  | zero => rfl
  | succ width ih => simp [bigEndian, ih]

/-! ## Instructions as bytes -/

/-- Operands after an opcode. Missing ones are absent and surplus ones left out. -/
def encodeOperands : (widths operands : List Nat) → List UInt8
  | width :: widths, n :: operands => bigEndian width n ++ encodeOperands widths operands
  | _, _ => []

namespace Opcode

def encode (op : Opcode) (operands : List Nat) : List UInt8 :=
  op.byte :: encodeOperands op.operandWidths operands

end Opcode

/-- An opcode with the operands that followed it. -/
structure Instruction where
  op : Opcode
  operands : List Nat
  deriving DecidableEq, Repr

namespace Instruction

/-- The first operand, or zero where there is none. -/
def first (i : Instruction) : Nat := i.operands.getD 0 0

/-- The second operand, or zero where there is none. -/
def second (i : Instruction) : Nat := i.operands.getD 1 0

end Instruction

/-- Operands of the given widths at the front of some code, and the code after them. -/
def takeOperands : (widths : List Nat) → (code : List UInt8) → Option (List Nat × List UInt8)
  | [], code => some ([], code)
  | width :: widths, code =>
    -- An operand that is cut off makes the whole instruction unreadable.
    if code.length < width then none
    else (takeOperands widths (code.drop width)).map fun (operands, rest) =>
      (ofBigEndian (code.take width) :: operands, rest)

theorem length_of_takeOperands {widths : List Nat} {code : List UInt8} {operands : List Nat}
    {rest : List UInt8} (h : takeOperands widths code = some (operands, rest)) :
    code.length = Opcode.totalWidth widths + rest.length := by
  induction widths generalizing code operands with
  | nil =>
    simp only [takeOperands, Option.some.injEq, Prod.mk.injEq] at h
    simp [h.2, Opcode.totalWidth]
  | cons width widths ih =>
    simp only [takeOperands] at h
    split at h
    · simp at h
    · obtain ⟨⟨os, r⟩, hr, heq⟩ := Option.map_eq_some_iff.1 h
      simp only [Prod.mk.injEq] at heq
      obtain ⟨-, rfl⟩ := heq
      have := ih hr
      simp only [List.length_drop, Opcode.totalWidth] at *
      omega

namespace Opcode

/-- The operands in the code just past an opcode, and how many bytes they take. -/
def readOperands (op : Opcode) (code : List UInt8) : Except Fault (List Nat × Nat) :=
  match takeOperands op.operandWidths code with
  | some (operands, _) => .ok (operands, op.operandsWidth)
  | none => .error (.internal (.truncatedOperand op))

end Opcode
end ScriptVM
