import ScriptVM.Proofs.Exec

/-!
# Fetching an instruction

The machine reads an instruction byte by byte. `Function.fetch` says the same at once: it is a
function of the code and an offset, and `instruction_eq` is the machine's way of reading in these
terms. A step is then a fetch followed by `Exec.execute`, which no longer looks at the code.
-/

namespace ScriptVM

/-! ## Instructions in code -/

/-- What comes of reading an instruction. -/
inductive Fetch where
  /-- An instruction, and the offset just past it. -/
  | instruction (i : Instruction) (next : Nat)
  /-- A fault, and the offset that reading has come to. -/
  | fault (e : Fault) (ip : Nat)
  deriving DecidableEq, Repr

/-- The instruction at an offset of a function. -/
def Function.fetch (f : Function) (ip : Nat) : Fetch :=
  match f.code[ip]? with
  | none => .fault (.internal .offTheCode) ip
  | some b =>
    match Opcode.ofByte? b with
    | none => .fault (.invalidOpcode b) (ip + 1)
    | some op =>
      match takeOperands op.operandWidths (f.code.toList.drop (ip + 1)) with
      | some (operands, _) => .instruction ⟨op, operands⟩ (ip + op.width)
      | none => .fault (.internal .offTheCode) f.code.size

/-- An instruction has at least its opcode in the code. -/
theorem Function.lt_size_of_fetch {f : Function} {ip : Nat} {i : Instruction} {next : Nat}
    (h : f.fetch ip = .instruction i next) : ip < f.code.size := by
  unfold fetch at h
  cases hb : f.code[ip]? with
  | none => simp [hb] at h
  | some b => exact (Array.getElem?_eq_some_iff.1 hb).1

/-! ## What an instruction takes -/

/-- How many values an instruction asks for on the stack: its operands, and in a call the callee and
the arguments. -/
def Instruction.demand (i : Instruction) : Nat :=
  match i.op with
  | .constant | .null | .true | .false | .jump | .getGlobal | .getLocal | .getFree | .getBuiltin
  | .closure | .halt => 0
  | .pop | .lnot | .minus | .bComplement | .error | .jumpFalsy | .andJump | .orJump | .setGlobal
  | .setLocal | .defineLocal | .setFree => 1
  | .add | .sub | .mul | .div | .rem | .bitAnd | .bitOr | .bitXor | .bitAndNot | .shl | .shr
  | .less | .lessEq | .greater | .greaterEq | .equal | .notEqual | .index => 2
  | .sliceIndex | .setIndex => 3
  | .array => i.first
  | .map => i.first * 2
  | .call => i.first + 1
  | .ret => if i.first != 0 then 1 else 0

/-- How many values an instruction takes from a stack of a size, or looks at. Instructions that take
many values take none if there are not as many; a call that spreads has taken the last argument by
the time it looks for the others. -/
def Instruction.takes (i : Instruction) (size : Nat) : Nat :=
  match i.op with
  | .array | .map => if i.demand ≤ size then i.demand else 0
  | .call =>
    if i.demand ≤ size then i.demand
    else if i.second != 0 && i.first != 0 then 1
    else 0
  | _ => i.demand

namespace Instruction

variable {i : Instruction} {n size size' : Nat}

/-- What an instruction asks for, it takes if it is there. -/
theorem takes_eq_demand (h : i.demand ≤ size) : i.takes size = i.demand := by
  unfold takes
  split <;> first | rfl | exact if_pos h

/-- As much as an instruction takes, there is what it asks for, or there is less on the whole
stack. -/
theorem demand_le_of_takes_le (h : i.takes size ≤ n) (hsize : i.demand ≤ size) : i.demand ≤ n :=
  takes_eq_demand hsize ▸ h

/-- Values at the bottom that an instruction leaves alone may as well not be there. -/
theorem takes_eq_of_le (hle : size' ≤ size) (h : i.takes size ≤ size') :
    i.takes size' = i.takes size := by
  by_cases hsize : i.demand ≤ size
  · rw [takes_eq_demand hsize, takes_eq_demand (demand_le_of_takes_le h hsize)]
  · have hsize' : ¬ i.demand ≤ size' := fun hn => hsize (Nat.le_trans hn hle)
    unfold takes
    split <;> first | rfl | rw [if_neg hsize, if_neg hsize']

end Instruction

/-! ## Going on at another offset

The pointer is part of the executing activation. Reading moves it, and nothing else of the machine.
-/

/-- The machine with its executing activation at another offset. -/
def Machine.goTo (m : Machine) (ip : Nat) : Machine :=
  match m.frames with
  | [] => m
  | f :: rest => { m with frames := { f with ip := ip } :: rest }

namespace Machine

variable {m : Machine} {f : Frame} {rest : List Frame}

/-- There is an activation to move on, so the others need not be mentioned. -/
theorem goTo_eq (h : m.frames = f :: rest) (ip : Nat) :
    m.goTo ip = { m with frames := { f with ip := ip } :: rest } := by
  simp [goTo, h]

theorem frames_goTo (h : m.frames = f :: rest) (ip : Nat) :
    (m.goTo ip).frames = { f with ip := ip } :: rest := by
  rw [goTo_eq h]

@[simp] theorem stack_goTo (m : Machine) (ip : Nat) : (m.goTo ip).stack = m.stack := by
  unfold goTo
  split <;> rfl

@[simp] theorem constants_goTo (m : Machine) (ip : Nat) :
    (m.goTo ip).constants = m.constants := by
  unfold goTo
  split <;> rfl

@[simp] theorem globals_goTo (m : Machine) (ip : Nat) : (m.goTo ip).globals = m.globals := by
  unfold goTo
  split <;> rfl

@[simp] theorem heap_goTo (m : Machine) (ip : Nat) : (m.goTo ip).heap = m.heap := by
  unfold goTo
  split <;> rfl

/-- The last place counts. -/
theorem goTo_goTo (m : Machine) (p q : Nat) : (m.goTo p).goTo q = m.goTo q := by
  unfold goTo
  cases h : m.frames <;> simp [h]

theorem goTo_self (h : m.frames = f :: rest) : m.goTo f.ip = m := by
  rw [goTo_eq h, ← h]

end Machine

/-! ## Reading as the machine does it

The pointer moves with every byte that is read. So a fault in the middle of an instruction leaves it
where the code has ended.
-/

namespace Exec

variable {m : Machine} {f : Frame} {rest : List Frame}

/-- The pointer is past the byte when the next one is read. -/
theorem nextByte_eq (h : m.frames = f :: rest) :
    nextByte m = match f.function.code[f.ip]? with
      | some b => .ok b (m.goTo (f.ip + 1))
      | none => .error (.internal .offTheCode) m := by
  unfold nextByte
  rw [bind_eq, frame_eq h, Machine.goTo_eq h]
  dsimp only
  cases f.function.code[f.ip]? with
  | none => rfl
  | some b =>
    show EStateM.Result.ok b { m with frames := _ :: m.frames.tail } = _
    rw [h, List.tail_cons]

/-- At the end of the code there is no opcode, and a byte may be none. -/
theorem opcode_eq (h : m.frames = f :: rest) :
    opcode m = match f.function.code[f.ip]? with
      | none => .error (.internal .offTheCode) m
      | some b =>
        match Opcode.ofByte? b with
        | some op => .ok op (m.goTo (f.ip + 1))
        | none => .error (.invalidOpcode b) (m.goTo (f.ip + 1)) := by
  unfold opcode
  rw [bind_eq, nextByte_eq h]
  cases f.function.code[f.ip]? with
  | none => rfl
  | some b =>
    dsimp only
    cases Opcode.ofByte? b <;> rfl

/-- A number is read byte by byte up to its last byte, or up to the end of the code. -/
theorem operandFrom_eq (acc width : Nat) (h : m.frames = f :: rest)
    (hip : f.ip ≤ f.function.code.size) :
    operandFrom acc width m =
      if f.ip + width ≤ f.function.code.size then
        .ok (bigEndianFrom acc ((f.function.code.toList.drop f.ip).take width))
          (m.goTo (f.ip + width))
      else .error (.internal .offTheCode) (m.goTo f.function.code.size) := by
  induction width generalizing acc m f with
  | zero =>
    rw [operandFrom, if_pos (by omega), Nat.add_zero, Machine.goTo_self h, pure_eq]
    simp [bigEndianFrom]
  | succ width ih =>
    rw [operandFrom, bind_eq, nextByte_eq h]
    rcases Nat.lt_or_ge f.ip f.function.code.size with hlt | hge
    · rw [Array.getElem?_eq_getElem hlt]
      dsimp only
      rw [ih _ (Machine.frames_goTo h _) hlt, Machine.goTo_goTo, Machine.goTo_goTo]
      dsimp only
      rw [show f.ip + 1 + width = f.ip + (width + 1) by omega]
      have hdrop : f.function.code.toList.drop f.ip =
          f.function.code[f.ip] :: f.function.code.toList.drop (f.ip + 1) := by
        rw [List.drop_eq_getElem_cons (by simpa using hlt), Array.getElem_toList]
      rw [hdrop, List.take_succ_cons, bigEndianFrom]
    · rw [Array.getElem?_eq_none hge, if_neg (by omega)]
      dsimp only
      rw [← Nat.le_antisymm hip hge, Machine.goTo_self h]

/-- The operands are read if the code is long enough for all of them. -/
theorem operands_eq (widths : List Nat) (h : m.frames = f :: rest)
    (hip : f.ip ≤ f.function.code.size) :
    widths.mapM operand m =
      match takeOperands widths (f.function.code.toList.drop f.ip) with
      | some (operands, _) => .ok operands (m.goTo (f.ip + Opcode.totalWidth widths))
      | none => .error (.internal .offTheCode) (m.goTo f.function.code.size) := by
  induction widths generalizing m f with
  | nil =>
    simp only [takeOperands, List.mapM_nil, Opcode.totalWidth, Nat.add_zero, Machine.goTo_self h]
    rfl
  | cons width widths ih =>
    rw [List.mapM_cons, bind_eq, operand, operandFrom_eq 0 width h hip]
    simp only [takeOperands, List.length_drop, Array.length_toList]
    by_cases hfit : f.ip + width ≤ f.function.code.size
    · rw [if_pos hfit, if_neg (by omega)]
      dsimp only
      rw [bind_eq, ih (Machine.frames_goTo h _) hfit, Machine.goTo_goTo, Machine.goTo_goTo]
      simp only [List.drop_drop, Opcode.totalWidth, ofBigEndian, Nat.add_assoc]
      cases takeOperands widths (f.function.code.toList.drop (f.ip + width)) <;> rfl
    · rw [if_neg hfit, if_pos (by omega)]

/-- The machine reads what `Function.fetch` says. -/
theorem instruction_eq (h : m.frames = f :: rest) :
    instruction m = match f.function.fetch f.ip with
      | .instruction i next => .ok i (m.goTo next)
      | .fault e ip => .error e (m.goTo ip) := by
  unfold instruction Function.fetch
  rw [bind_eq, opcode_eq h]
  cases hb : f.function.code[f.ip]? with
  | none => simp [Machine.goTo_self h]
  | some b =>
    dsimp only
    cases Opcode.ofByte? b with
    | none => rfl
    | some op =>
      have hlt : f.ip < f.function.code.size := (Array.getElem?_eq_some_iff.1 hb).1
      dsimp only
      rw [bind_eq, operands_eq _ (Machine.frames_goTo h _) hlt, Machine.goTo_goTo,
        Machine.goTo_goTo]
      dsimp only
      cases takeOperands op.operandWidths (f.function.code.toList.drop (f.ip + 1)) with
      | none => rfl
      | some p =>
        dsimp only
        rw [pure_eq, Opcode.width, Opcode.operandsWidth, ← Nat.add_assoc]

/-- A step fetches and then executes. -/
theorem step_eq (host : Host) (h : m.frames = f :: rest) :
    step host m = match f.function.fetch f.ip with
      | .instruction i next => execute host i (m.goTo next)
      | .fault e ip => .error e (m.goTo ip) := by
  unfold step
  rw [bind_eq, instruction_eq h]
  cases f.function.fetch f.ip <;> rfl

/-- Without an activation there is nothing to fetch. -/
theorem instruction_of_no_frame (h : m.frames = []) :
    instruction m = .error (.internal .noActiveFrame) m := by
  unfold instruction opcode nextByte
  rw [bind_eq, bind_eq, bind_eq, frame_of_no_frame h]

/-- Without an activation there is nothing to step. -/
theorem step_of_no_frame (host : Host) (h : m.frames = []) :
    step host m = .error (.internal .noActiveFrame) m := by
  unfold step
  rw [bind_eq, instruction_of_no_frame h]

end Exec

/-! ### A closure for samples

The least that a closure can do. Runs of it are samples for what is proved about captured locals.
-/

/-- Returns what it has captured. -/
def Function.readsCaptured : Function :=
  { Function.ofCode #[Opcode.getFree.byte, 0, Opcode.ret.byte, 1] 0 0 with
    captures := [.ofLocal 0] }

end ScriptVM
