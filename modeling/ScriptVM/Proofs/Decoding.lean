import Mathlib
import ScriptVM.Bytecode.Function

/-!
# Decoding

Code says nowhere where its instructions begin. They are found by reading from the first byte on:
each opcode tells how many bytes its operands take, and the next instruction starts past these.
`decode` reads code in this way, and the listing of code is made in this way too. A row of
instructions whose operands fit their widths is read back as it was written, so no instruction puts
the ones after it out of step.
-/

namespace ScriptVM

/-! ## Numbers as bytes

Operands are written with the highest byte first and read by a fold over the bytes.
-/

theorem bigEndianFrom_append (acc : Nat) (front back : List UInt8) :
    bigEndianFrom acc (front ++ back) = bigEndianFrom (bigEndianFrom acc front) back := by
  induction front generalizing acc with
  | nil => rfl
  | cons b front ih => simp [bigEndianFrom, ih]

/-- What has been read before is moved up by as many bytes. -/
theorem bigEndianFrom_bigEndian {width n : Nat} (h : n < 256 ^ width) (acc : Nat) :
    bigEndianFrom acc (bigEndian width n) = acc * 256 ^ width + n := by
  induction width generalizing n with
  | zero => simpa [bigEndian, bigEndianFrom] using h
  | succ width ih =>
    have hlt : n / 256 < 256 ^ width :=
      Nat.div_lt_of_lt_mul (by simpa [Nat.pow_succ, Nat.mul_comm] using h)
    have hlast : bigEndianFrom (acc * 256 ^ width + n / 256) [UInt8.ofNat n] =
        (acc * 256 ^ width + n / 256) * 256 + n % 256 := by
      simp [bigEndianFrom]
    rw [bigEndian, bigEndianFrom_append, ih hlt, hlast, Nat.pow_succ, ← Nat.mul_assoc]
    omega

/-- A number that fits a row of bytes is read back from it. -/
@[simp] theorem ofBigEndian_bigEndian {width n : Nat} (h : n < 256 ^ width) :
    ofBigEndian (bigEndian width n) = n := by
  simp [ofBigEndian, bigEndianFrom_bigEndian h]

/-! ## One instruction -/

namespace Instruction

def bytes (i : Instruction) : List UInt8 := i.op.encode i.operands

/-- There are as many operands as the opcode declares, and each fits its width. -/
def Fits (i : Instruction) : Prop :=
  List.Forall₂ (fun n width => n < 256 ^ width) i.operands i.op.operandWidths

instance (i : Instruction) : Decidable i.Fits :=
  inferInstanceAs (Decidable (List.Forall₂ _ i.operands i.op.operandWidths))

end Instruction

theorem length_encodeOperands {widths operands : List Nat} (h : operands.length = widths.length) :
    (encodeOperands widths operands).length = Opcode.totalWidth widths := by
  induction widths generalizing operands with
  | nil => simp [encodeOperands, Opcode.totalWidth]
  | cons width widths ih =>
    cases operands with
    | nil => simp at h
    | cons n operands =>
      simp [encodeOperands, Opcode.totalWidth, length_bigEndian, ih (Nat.succ.inj h)]

/-- Operands that fit are read back, whatever comes after them. -/
theorem takeOperands_encodeOperands {widths operands : List Nat}
    (h : List.Forall₂ (fun n width => n < 256 ^ width) operands widths) (rest : List UInt8) :
    takeOperands widths (encodeOperands widths operands ++ rest) = some (operands, rest) := by
  induction h with
  | nil => rfl
  | @cons n width operands widths hn _ ih =>
    have hlen := length_bigEndian width n
    rw [encodeOperands, List.append_assoc, takeOperands, if_neg (by simp [hlen]),
      List.drop_left' hlen, ih, List.take_left' hlen, ofBigEndian_bigEndian hn]
    rfl

namespace Instruction

variable {i : Instruction}

/-- An instruction is as long as its opcode says, whatever the operands are. -/
theorem Fits.length_bytes (h : i.Fits) : i.bytes.length = i.op.width := by
  simp [bytes, Opcode.encode, Opcode.width, Opcode.operandsWidth,
    length_encodeOperands (List.Forall₂.length_eq h), Nat.add_comm]

theorem Fits.readOperands (h : i.Fits) (rest : List UInt8) :
    i.op.readOperands (encodeOperands i.op.operandWidths i.operands ++ rest) =
      .ok (i.operands, i.op.operandsWidth) := by
  simp [Opcode.readOperands, takeOperands_encodeOperands h]

end Instruction

/-! ## A row of instructions

Since the length of an instruction follows from its opcode, what comes after it begins where it ends
and is read by itself.
-/

/-- The instructions that code consists of, unless it comes to a byte that is no opcode or ends
within an instruction. -/
def decode : List UInt8 → Except Fault (List Instruction)
  | [] => .ok []
  | b :: rest =>
    match Opcode.ofByte? b with
    | none => .error (.invalidOpcode b)
    | some op =>
      match op.readOperands rest with
      | .ok (operands, read) => (decode (rest.drop read)).map (⟨op, operands⟩ :: ·)
      | .error e => .error e
termination_by code => code.length
decreasing_by
  simp only [List.length_drop, List.length_cons]
  omega

def span (is : List Instruction) : Nat := (is.map fun i => i.op.width).sum

def assembled (is : List Instruction) : List UInt8 := is.flatMap Instruction.bytes

@[simp] theorem span_nil : span [] = 0 := rfl

@[simp] theorem span_cons (i : Instruction) (is : List Instruction) :
    span (i :: is) = i.op.width + span is := by
  simp [span]

@[simp] theorem span_append (is js : List Instruction) : span (is ++ js) = span is + span js := by
  simp [span]

@[simp] theorem assembled_nil : assembled [] = [] := rfl

@[simp] theorem assembled_cons (i : Instruction) (is : List Instruction) :
    assembled (i :: is) = i.bytes ++ assembled is := rfl

@[simp] theorem assembled_append (is js : List Instruction) :
    assembled (is ++ js) = assembled is ++ assembled js := by
  simp [assembled]

theorem length_assembled {is : List Instruction} (h : ∀ i ∈ is, i.Fits) :
    (assembled is).length = span is := by
  induction is with
  | nil => rfl
  | cons i is ih =>
    obtain ⟨hi, his⟩ := List.forall_mem_cons.1 h
    simp [hi.length_bytes, ih his]

/-- The first instruction is read, and the rest is decoded on its own. -/
theorem decode_cons {i : Instruction} (h : i.Fits) (rest : List UInt8) :
    decode (i.bytes ++ rest) = (decode rest).map (i :: ·) := by
  have hlen : (encodeOperands i.op.operandWidths i.operands).length = i.op.operandsWidth :=
    length_encodeOperands (List.Forall₂.length_eq h)
  rw [Instruction.bytes, Opcode.encode, List.cons_append, decode, Opcode.ofByte?_byte]
  simp only [h.readOperands, List.drop_left' hlen]

/-- A row of instructions is read back, and nothing is left over. -/
theorem decode_assembled {is : List Instruction} (h : ∀ i ∈ is, i.Fits) :
    decode (assembled is) = .ok is := by
  induction is with
  | nil => simp [decode]
  | cons i is ih =>
    obtain ⟨hi, his⟩ := List.forall_mem_cons.1 h
    rw [assembled_cons, decode_cons hi, ih his]
    rfl

/-- The line of the first instruction stands at its offset, and the next one at the sum. -/
theorem listingFrom_cons {i : Instruction} (h : i.Fits) (offset : Nat) (rest : List UInt8) :
    listingFrom offset (i.bytes ++ rest) =
      .instruction offset i.op i.operands :: listingFrom (offset + i.op.width) rest := by
  have hop := Opcode.ofByte?_byte i.op
  have htake := takeOperands_encodeOperands h rest
  rw [Instruction.bytes, Opcode.encode, List.cons_append, listingFrom]
  grind

/-- The listing of a row of instructions has one line for each of them. -/
theorem listingFrom_assembled {is : List Instruction} (h : ∀ i ∈ is, i.Fits) (offset : Nat) :
    listingFrom offset (assembled is) =
      is.mapIdx fun k i => .instruction (offset + span (is.take k)) i.op i.operands := by
  induction is generalizing offset with
  | nil => simp [listingFrom]
  | cons i is ih =>
    obtain ⟨hi, his⟩ := List.forall_mem_cons.1 h
    simp [listingFrom_cons hi, ih his, Nat.add_assoc]

end ScriptVM
