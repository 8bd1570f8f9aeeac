import ScriptVM.Proofs.Ground

/-!
# Reading operands

The machine reads all operands of an instruction before it executes any of it, and goes by the
table of widths. The same machine can be written with each opcode reading its own operands, one
after another and in sizes of its own; `handle` is this form of it. That the two agree says that the
table has no width which an opcode does not read, and lacks none that it reads.

What is left to say of an instruction is where its activation goes on: at the next instruction, or
where a jump leads if it is taken.
-/

namespace ScriptVM

namespace Exec

/-! ## Each opcode by itself -/

/-- Does what an opcode asks for, where each one reads the operands that it needs. -/
def handle (host : Host) (op : Opcode) : Exec (Option Value) :=
  match op with
  | .constant => goOn do push (← constant (← operand 2))
  | .null => goOn (push .undefined)
  | .true => goOn (push (.bool Bool.true))
  | .false => goOn (push (.bool Bool.false))
  | .pop => goOn (discard pop)
  | .equal => goOn do push (.bool (← popEqual))
  | .notEqual => goOn do push (.bool !(← popEqual))
  | .lnot => goOn do push (.bool (← isFalsy (← pop)))
  | .add | .sub | .mul | .div | .rem | .bitAnd | .bitOr | .bitXor | .bitAndNot | .shl | .shr =>
    goOn (applyBinary op)
  | .less | .lessEq | .greater | .greaterEq => goOn (applyOrder op)
  | .minus | .bComplement => goOn (applyUnary op)
  | .array => goOn do makeArray (← operand 2)
  | .map => goOn do makeMap (← operand 2)
  | .error => goOn makeError
  | .index => goOn readIndex
  | .sliceIndex => goOn readSlice
  | .setIndex => goOn writeIndex
  | .jump => goOn do jump (← operand 4)
  | .jumpFalsy => goOn do jumpFalsy (← operand 4)
  | .andJump => goOn do andJump (← operand 4)
  | .orJump => goOn do orJump (← operand 4)
  | .call => goOn do
    let argc ← operand 1
    let spread ← operand 1
    call host argc (spread != 0)
  | .getGlobal => goOn do push (← global (← operand 2))
  | .setGlobal => goOn do
    let index ← operand 2
    setGlobal index (← pop)
  | .getLocal => goOn do push (← getLocal (← operand 1))
  | .setLocal => goOn do
    let slot ← operand 1
    setLocal slot (← pop)
  | .defineLocal => goOn do
    let slot ← operand 1
    defineLocal slot (← pop)
  | .getFree => goOn do push (← getFree (← operand 1))
  | .setFree => goOn do
    let index ← operand 1
    setFree index (← pop)
  | .getBuiltin => goOn do push (← coreBuiltin (← operand 1))
  | .closure => goOn do push (← makeClosure (← operand 2))
  | .ret => do
    let taken ← operand 1
    leave (← returnValue (taken != 0))
  | .halt => do return some (← haltResult)

/-- What an opcode reads by itself is what the table of widths says. -/
theorem handle_eq (host : Host) (op : Opcode) :
    handle host op = op.operandWidths.mapM operand >>= fun os => execute host ⟨op, os⟩ := by
  cases op <;>
    simp only [handle, execute, goOn, Opcode.operandWidths, List.mapM_cons, List.mapM_nil,
      bind_assoc, pure_bind, Instruction.first, Instruction.second, List.getD_cons_zero,
      List.getD_cons_succ]

/-- The machine is the one in which each opcode reads its own operands. -/
theorem step_eq_handle (host : Host) : step host = opcode >>= handle host := by
  simp only [step, instruction, bind_assoc, pure_bind, ← handle_eq]

variable {m m' : Machine} {f : Frame} {rest : List Frame} {i : Instruction} {r : Option Value}

/-- Reading an opcode and its operands is done by the table of widths, and a step does no more
before it executes what it has read. -/
theorem step_of_opcode (host : Host) {op : Opcode} (hf : m.frames = f :: rest)
    (hop : f.function.code[f.ip]?.bind Opcode.ofByte? = some op) :
    step host m = handle host op (m.goTo (f.ip + 1)) ∧
    match op.readOperands (f.function.code.toList.drop (f.ip + 1)) with
    | .ok (operands, read) =>
      f.ip + 1 + read = f.ip + op.width ∧
        f.function.fetch f.ip = .instruction ⟨op, operands⟩ (f.ip + op.width) ∧
        step host m = execute host ⟨op, operands⟩ (m.goTo (f.ip + op.width))
    | .error _ =>
      step host m = .error (.internal .offTheCode) (m.goTo f.function.code.size) := by
  obtain ⟨b, hb, hop⟩ := Option.bind_eq_some_iff.1 hop
  constructor
  · rw [step_eq_handle, bind_eq, opcode_eq hf, hb]
    simp only [hop]
  · rw [step_eq host hf, Function.fetch, Opcode.readOperands, hb]
    simp only [hop]
    cases takeOperands op.operandWidths (f.function.code.toList.drop (f.ip + 1)) with
    | none => rfl
    | some p => exact ⟨Nat.add_assoc .., rfl, rfl⟩

end Exec

/-! ## Going on

Whether a jump is taken depends on the top of the stack, and for the plain jump on nothing.
-/

/-- Whether the activation goes on where the operand of a jump leads. -/
def Machine.takesJump (m : Machine) : Opcode → Bool
  | .jump => true
  | .jumpFalsy | .andJump => m.stack.values.back?.any m.heap.isFalsy
  | .orJump => m.stack.values.back?.any fun v => !m.heap.isFalsy v
  | _ => false

/-- Where the activation goes on after an instruction that ends at an offset. -/
def Machine.nextOffset (m : Machine) (i : Instruction) (past : Nat) : Nat :=
  if m.takesJump i.op then i.first else past

/-- What is no jump goes on at the next instruction. -/
theorem Machine.takesJump_of_not_jump (m : Machine) {op : Opcode} (h : op.isJump = false) :
    m.takesJump op = false := by
  cases op <;> first | rfl | cases h

@[simp] theorem Machine.takesJump_goTo (m : Machine) (ip : Nat) (op : Opcode) :
    (m.goTo ip).takesJump op = m.takesJump op := by
  simp only [takesJump, stack_goTo, heap_goTo]

namespace Exec

variable {m m' : Machine} {f : Frame} {rest : List Frame} {i : Instruction} {r : Option Value}

/-- A jump changes the offset of its activation. -/
theorem frames_of_jump {target : Nat} (hf : m.frames = f :: rest)
    (h : jump target m = .ok () m') : m'.frames = { f with ip := target } :: rest := by
  rw [jump_eq hf] at h
  split at h
  · cases h
    rfl
  · cases h

/-- A branch jumps, or does something else that leaves the activations as they are. -/
theorem frames_of_branch {taken : Bool} {target : Nat} {x : Exec Unit} (hf : m.frames = f :: rest)
    (hx : ∀ m', x m = .ok () m' → m'.frames = m.frames)
    (h : (if taken then jump target else x) m = .ok () m') :
    m'.frames = { f with ip := if taken then target else f.ip } :: rest := by
  cases taken with
  | true => exact frames_of_jump hf h
  | false => exact (hx m' h).trans hf

theorem frames_of_discardPop (h : discard pop m = .ok () m') : m'.frames = m.frames := by
  rw [discard_eq] at h
  obtain ⟨v, m₁, hpop, h⟩ := bind_eq_ok.1 h
  cases h
  exact frames_of_pop hpop

/-- Looking at the top leaves it there. -/
theorem top_eq (m : Machine) :
    top m = match m.stack.values.back? with
      | some v => .ok v m
      | none => .error .stackUnderflow m := by
  rw [top, onStack_eq, Stack.peek, Array.back?]
  by_cases h : 0 < m.stack.values.size
  · simp only [h, if_true, Nat.sub_zero]
    cases m.stack.values[m.stack.values.size - 1]? <;> rfl
  · simp only [h, if_false]
    rw [Array.getElem?_eq_none (by omega)]

/-- The condition is the value on top before the jump. -/
theorem frames_of_jumpFalsy {target : Nat} (hf : m.frames = f :: rest)
    (h : jumpFalsy target m = .ok () m') :
    m'.frames =
      { f with ip := if m.stack.values.back?.any m.heap.isFalsy then target else f.ip } ::
        rest := by
  rw [jumpFalsy, bind_eq, pop_eq] at h
  cases hb : m.stack.values.back? with
  | none => simp [hb] at h
  | some v =>
    simp only [hb, bind_eq, isFalsy_eq] at h
    refine frames_of_branch ?_ (fun m' hm' => ?_) h
    · exact hf
    · cases hm'
      rfl

theorem frames_of_andJump {target : Nat} (hf : m.frames = f :: rest)
    (h : andJump target m = .ok () m') :
    m'.frames =
      { f with ip := if m.stack.values.back?.any m.heap.isFalsy then target else f.ip } ::
        rest := by
  rw [andJump, bind_eq, top_eq] at h
  cases hb : m.stack.values.back? with
  | none => simp [hb] at h
  | some v =>
    simp only [hb, bind_eq, isFalsy_eq] at h
    exact frames_of_branch hf (fun _ => frames_of_discardPop) h

theorem frames_of_orJump {target : Nat} (hf : m.frames = f :: rest)
    (h : orJump target m = .ok () m') :
    m'.frames =
      { f with ip := if m.stack.values.back?.any (!m.heap.isFalsy ·) then target else f.ip } ::
        rest := by
  rw [orJump, bind_eq, top_eq] at h
  cases hb : m.stack.values.back? with
  | none => simp [hb] at h
  | some v =>
    simp only [hb, bind_eq, isFalsy_eq] at h
    -- The branches stand the other way round here.
    have hbranch : (if !m.heap.isFalsy v then jump target else discard pop) m = .ok () m' := by
      cases hv : m.heap.isFalsy v <;> rwa [hv] at h
    exact frames_of_branch hf (fun _ => frames_of_discardPop) hbranch

/-- A jump goes on where it leads if it is taken, and past itself if it is not. -/
theorem frames_of_executeJump (host : Host) (hj : i.op.isJump = true) (hf : m.frames = f :: rest)
    (hx : execute host i m = .ok r m') :
    m'.frames = { f with ip := m.nextOffset i f.ip } :: rest := by
  obtain ⟨op, operands⟩ := i
  have hgoOn {x : Exec Unit} (hx : goOn x m = .ok r m') : x m = .ok () m' := by
    obtain ⟨_, m₁, hx, hr⟩ := bind_eq_ok.1 hx
    cases hr
    exact hx
  cases op <;> cases hj
  case jump => exact frames_of_jump hf (hgoOn hx)
  case jumpFalsy => exact frames_of_jumpFalsy hf (hgoOn hx)
  case andJump => exact frames_of_andJump hf (hgoOn hx)
  case orJump => exact frames_of_orJump hf (hgoOn hx)

/-- A return without a fault takes its activation off. -/
theorem frames_of_leave {result : Value} (hf : m.frames = f :: rest)
    (h : leave result m = .ok r m') : m'.frames = rest := by
  rw [leave_eq hf] at h
  split at h
  · cases h
    rfl
  split at h
  · cases h
  obtain ⟨_, m₁, htruncate, h⟩ := bind_eq_ok.1 h
  obtain ⟨_, m₂, hpush, hend⟩ := bind_eq_ok.1 h
  rw [onStack_eq, Stack.truncate] at htruncate
  cases htruncate
  cases hend
  rw [push_eq] at hpush
  split at hpush
  · cases hpush
    rfl
  · cases hpush

/-- The activations after an instruction: a return has taken its own off, and any other instruction
leaves its activation at the next offset. Only a call puts another one on top. -/
theorem frames_of_execute (host : Host) (hf : m.frames = f :: rest)
    (hx : execute host i m = .ok r m') :
    if i.op = .ret then m'.frames = rest
    else ∃ above f', m'.frames = above ++ f' :: rest ∧ f'.function = f.function ∧
      f'.base = f.base ∧ f'.ip = m.nextOffset i f.ip ∧
      (above = [] ∨ i.op = .call ∧ ∃ g base, above = [.start g base]) := by
  by_cases hret : i.op = .ret
  · rw [if_pos hret]
    obtain ⟨op, operands⟩ := i
    cases hret
    obtain ⟨v, m₁, hv, hleave⟩ := bind_eq_ok.1 hx
    exact frames_of_leave ((frames_of_returnValue hv).trans hf) hleave
  rw [if_neg hret]
  by_cases hj : i.op.isJump = true
  · exact ⟨[], _, frames_of_executeJump host hj hf hx, rfl, rfl, rfl, .inl rfl⟩
  have hnext : m.nextOffset i f.ip = f.ip := by
    rw [Machine.nextOffset, Machine.takesJump_of_not_jump m (by simpa using hj),
      if_neg Bool.false_ne_true]
  rw [hnext]
  have hmoved := (moves_execute host i m f rest).ok (.self hf) hx
  cases hmoved with
  | stays he =>
    obtain ⟨f', hfun, hb, hip, hf'⟩ := he.top
    exact ⟨[], f', hf', hfun, hb, hip, .inl rfl⟩
  | jumps hj' => exact absurd hj' hj
  | enters hc g callee f' _ hfun hb hip hf' =>
    exact ⟨[.start g (callee + 1)], f', hf', hfun, hb, hip, .inr ⟨hc, g, callee + 1, rfl⟩⟩
  | leaves hl => exact absurd hl hret

end Exec
end ScriptVM
