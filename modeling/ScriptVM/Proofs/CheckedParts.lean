import ScriptVM.Proofs.Checked

/-!
# Checks that are always passed

Many checks stand right behind a comparison that rules their failure out: nothing is looked at
beneath the stack, nothing is divided by zero, and a slice has its bounds in order. These parts of
the checked machine are parts of the machine, whatever state it is in.
-/

namespace ScriptVM

namespace Checked

variable {α β : Type}

/-! ## Ordinary computations

A part that has nothing to check is lifted as it is.
-/

theorem bind_eq (x : Checked α) (k : α → Checked β) (m : Machine) :
    (x >>= k) m = match x m with
      | .ok a m => k a m
      | .error e m => .error e m := by
  simp only [bind, EStateM.bind]
  cases x m <;> rfl

/-- Lifting respects sequences, so that a checked sequence is compared part by part. -/
theorem lift_bind (x : Exec α) (k : α → Exec β) :
    lift (x >>= k) = lift x >>= fun a => lift (k a) := by
  funext m
  simp only [lift, bind_eq, Exec.bind_eq]
  cases x m <;> rfl

theorem lift_pure (a : α) : lift (pure a) = pure a := rfl

/-! ## Checks that are passed -/

theorem add_eq {a b : Nat} (h : a + b < 2 ^ 64) : add a b = pure (a + b) := if_pos h

theorem mul_eq {a b : Nat} (h : a * b < 2 ^ 64) : mul a b = pure (a * b) := if_pos h

theorem sub_eq {a b : Nat} (h : b ≤ a) : sub a b = pure (a - b) := if_pos h

/-- An index that has been compared with the size is passed. -/
theorem elementAt_eq {items : Array α} {index : Nat} (h : index < items.size) :
    elementAt items index = pure items[index] := by
  rw [elementAt, Array.getElem?_eq_getElem h]

theorem elementsFrom_eq {items : Array α} {low high : Nat} (h : low ≤ high)
    (h' : high ≤ items.size) : elementsFrom items low high = pure (items.extract low high) :=
  if_pos ⟨h, h'⟩

/-! ## Fetching

A byte is read only where there is one, and the pointer goes at most one past the last.
-/

/-- The comparison with the length of the code comes before the look at the byte. -/
theorem nextByte_eq : nextByte = lift Exec.nextByte := by
  unfold nextByte Exec.nextByte
  rw [lift_bind]
  congr 1
  funext f
  cases hb : f.function.code[f.ip]? with
  | none => rfl
  | some b =>
    have hlt : f.ip < f.function.code.size := (Array.getElem?_eq_some_iff.1 hb).1
    simp only [if_pos (Nat.succ_le_of_lt hlt), lift_bind, lift_pure]

theorem operandFrom_eq (acc width : Nat) :
    operandFrom acc width = lift (Exec.operandFrom acc width) := by
  induction width generalizing acc with
  | zero => rfl
  | succ width ih =>
    unfold operandFrom Exec.operandFrom
    simp only [lift_bind, nextByte_eq, ih]

theorem opcode_eq : opcode = lift Exec.opcode := by
  unfold opcode Exec.opcode
  rw [lift_bind, nextByte_eq]
  congr 1
  funext b
  cases Opcode.ofByte? b <;> rfl

/-- One operand after another, each of so many bytes. -/
theorem operands_eq (widths : List Nat) :
    widths.mapM (operandFrom 0) = lift (widths.mapM Exec.operand) := by
  induction widths with
  | nil => rfl
  | cons width widths ih =>
    rw [List.mapM_cons, List.mapM_cons, lift_bind, ih, operandFrom_eq]
    simp only [lift_bind, lift_pure, Exec.operand]

theorem instruction_eq : instruction = lift Exec.instruction := by
  unfold instruction Exec.instruction
  simp only [lift_bind, lift_pure, opcode_eq, operands_eq]

/-! ## The stack -/

theorem peek_eq (distance : Nat) : peek distance = lift (Exec.onStack (Stack.peek distance)) := by
  funext m
  show (if m.stack.values.size ≤ distance then fault .stackUnderflow
    else sub m.stack.values.size 1 >>= fun n => sub n distance >>= elementAt m.stack.values) m = _
  rw [lift, Exec.onStack_eq, Stack.peek]
  by_cases h : m.stack.values.size ≤ distance
  · rw [if_pos h, if_neg (Nat.not_lt.2 h)]
    rfl
  · have hlt : m.stack.values.size - 1 - distance < m.stack.values.size := by omega
    rw [if_neg h, if_pos (Nat.lt_of_not_le h), sub_eq (by omega), pure_bind, sub_eq (by omega),
      pure_bind, elementAt_eq hlt, Array.getElem?_eq_getElem hlt]
    rfl

theorem popMany_eq (n : Nat) : popMany n = lift (Exec.onStack (Stack.popMany n)) := by
  funext m
  show (if m.stack.values.size < n then fault .stackUnderflow
    else do
      let start ← sub m.stack.values.size n
      let items ← elementsFrom m.stack.values start m.stack.values.size
      lift (Exec.onStack (Stack.truncate start))
      return items.toList) m = _
  rw [lift, Exec.onStack_eq, Stack.popMany]
  by_cases h : m.stack.values.size < n
  · rw [if_pos h, if_neg (Nat.not_le.2 h)]
    rfl
  · rw [if_neg h, if_pos (Nat.le_of_not_lt h), sub_eq (by omega), pure_bind,
      elementsFrom_eq (by omega) (Nat.le_refl _), pure_bind]
    rfl

/-! ## Operators

A divisor is compared with zero, and a shift with its least and greatest number of places, before
anything is calculated.
-/

theorem places_eq {b : Int64} (h : ¬ b < 0) (h' : ¬ 64 ≤ b) : places b = pure b :=
  if_pos ⟨Int64.not_lt.1 h, Int64.not_le.1 h'⟩

/-- By cases of the operators. Only division, remainder and shifts have anything to check. -/
theorem onInts_eq (op : Opcode) (a b : Int64) :
    onInts op a b = lift (Exec.ofExcept (Operator.onInts op a b)) := by
  cases op with
  | div =>
    unfold onInts Operator.onInts quotient
    by_cases h : b = 0 <;> simp only [h, if_true, if_false] <;> rfl
  | rem =>
    unfold onInts Operator.onInts remainder
    by_cases h : b = 0 <;> simp only [h, if_true, if_false] <;> rfl
  | shl =>
    unfold onInts Operator.onInts Operator.shiftLeft
    by_cases h : b < 0
    · simp only [h, if_true]
      rfl
    by_cases h' : 64 ≤ b
    · simp only [h, h', if_true, if_false]
      rfl
    · simp only [h, h', if_false, places_eq h h', pure_bind]
      rfl
  | shr =>
    unfold onInts Operator.onInts Operator.shiftRight
    by_cases h : b < 0
    · simp only [h, if_true]
      rfl
    by_cases h' : 64 ≤ b
    · simp only [h, h', if_true, if_false]
      rfl
    · simp only [h, h', if_false, places_eq h h', pure_bind]
      rfl
  | _ => rfl

/-- Integers are the only operands with checks. -/
theorem binary_eq (op : Opcode) (left right : Value) :
    binary op left right = lift (Exec.onHeap (Operator.binary op left right)) := by
  unfold binary
  split
  · rename_i a b
    rw [onInts_eq, Operator.binary]
    cases Operator.onInts op a b <;> rfl
  · rfl

theorem applyBinary_eq (op : Opcode) : applyBinary op = lift (Exec.applyBinary op) := by
  unfold applyBinary Exec.applyBinary
  simp only [lift_bind, binary_eq]

/-! ## Containers -/

/-- The count is compared with the height before the elements are taken. -/
theorem makeArray_eq (count : Nat) : makeArray count = lift (Exec.makeArray count) := by
  unfold makeArray Exec.makeArray
  simp only [lift_bind, popMany_eq]

/-- The number of pairs is doubled, which must fit 64 bits. -/
theorem makeMap_eq {pairs : Nat} (h : pairs * 2 < 2 ^ 64) :
    makeMap pairs = lift (Exec.makeMap pairs) := by
  unfold makeMap Exec.makeMap
  simp only [lift_bind, mul_eq h, pure_bind, popMany_eq]

/-- A bound is clamped to the length, wherever it comes from. -/
theorem sliceBound_le {receiver bound : Value} {openEnd length n : Nat} (hopen : openEnd ≤ length)
    (h : sliceBound receiver bound openEnd length = .ok n) : n ≤ length := by
  unfold sliceBound at h
  split at h
  · cases h
    exact hopen
  · cases h
    exact Nat.min_le_right _ _
  · cases h

/-- The bounds that a slice is taken by are in order and within the receiver. -/
theorem le_of_sliceBounds {receiver low high : Value} {length l r : Nat}
    (h : sliceBounds receiver low high length = .ok (l, r)) : l ≤ r ∧ r ≤ length := by
  unfold sliceBounds at h
  simp only [bind, Except.bind] at h
  cases hl : sliceBound receiver low 0 length with
  | error e => simp only [hl] at h; cases h
  | ok l' =>
    cases hr : sliceBound receiver high length length with
    | error e => simp only [hl, hr] at h; cases h
    | ok r' =>
      simp only [hl, hr] at h
      split at h
      · cases h
      · rename_i hle
        cases h
        exact ⟨Nat.le_of_not_lt hle, sliceBound_le (Nat.le_refl _) hr⟩

theorem heapSlice_eq (receiver low high : Value) (h : Heap) :
    HeapM.slice receiver low high h =
      match h.sliceLength receiver with
      | .error e => .error e h
      | .ok length =>
        match sliceBounds receiver low high length with
        | .error e => .error e h
        | .ok (l, r) =>
          (match receiver with
            | .array ref => HeapM.newArray ((h.arrayAt ref).extract l r)
            | .string s => return .string (String.ofList ((s.toList.drop l).take (r - l)))
            | _ => return .undefined : HeapM Value) h := by
  unfold HeapM.slice
  simp only [bind, EStateM.bind, Exec.get_eq]
  cases h.sliceLength receiver with
  | error e => rfl
  | ok length =>
    simp only [HeapM.ofExcept, pure, EStateM.pure]
    cases sliceBounds receiver low high length with
    | error e => rfl
    | ok b => cases receiver <;> rfl

/-- A slice whose bounds have been found. -/
theorem sliceOf_eq {receiver low high : Value} {length l r : Nat} {m : Machine}
    (hlength : m.heap.sliceLength receiver = .ok length)
    (hbounds : sliceBounds receiver low high length = .ok (l, r)) :
    sliceOf receiver l r m = lift (Exec.onHeap (HeapM.slice receiver low high)) m := by
  obtain ⟨hlr, hr⟩ := le_of_sliceBounds hbounds
  rw [lift, Exec.onHeap_eq, heapSlice_eq, hlength]
  dsimp only
  rw [hbounds]
  cases receiver with
  | array ref =>
    cases hlength
    show (elementsFrom (m.heap.arrayAt ref) l r >>= fun items =>
      lift (Exec.onHeap (HeapM.newArray items))) m = _
    rw [elementsFrom_eq hlr hr, pure_bind]
    rfl
  | string s =>
    show (sub r l >>= fun n => pure (Value.string (String.ofList ((s.toList.drop l).take n)))) m = _
    rw [sub_eq hlr, pure_bind]
    rfl
  | _ => cases hlength

theorem slice_eq (receiver low high : Value) :
    slice receiver low high = lift (Exec.onHeap (HeapM.slice receiver low high)) := by
  funext m
  show (lift (Exec.ofExcept (m.heap.sliceLength receiver)) >>= fun length =>
    lift (Exec.ofExcept (sliceBounds receiver low high length)) >>= fun b =>
      sliceOf receiver b.1 b.2) m = _
  rw [bind_eq, lift, Exec.ofExcept_eq]
  cases hlength : m.heap.sliceLength receiver with
  | error e =>
    rw [lift, Exec.onHeap_eq, heapSlice_eq, hlength]
  | ok length =>
    dsimp only
    rw [bind_eq, lift, Exec.ofExcept_eq]
    cases hbounds : sliceBounds receiver low high length with
    | error e =>
      rw [lift, Exec.onHeap_eq, heapSlice_eq, hlength]
      dsimp only
      rw [hbounds]
    | ok b => exact sliceOf_eq hlength hbounds

theorem readSlice_eq : readSlice = lift Exec.readSlice := by
  unfold readSlice Exec.readSlice
  simp only [lift_bind, slice_eq]

/-- An element that is written is there. -/
theorem write_eq {receiver key : Value} {place : Place} {m : Machine} (v : Value)
    (h : m.heap.place receiver key = .ok place) :
    write v place m = lift (Exec.onHeap (modify fun h => h.write v place)) m := by
  cases place with
  | field ref k => rfl
  | element ref i =>
    have hlt : i < (m.heap.arrayAt ref).size := by
      unfold Heap.place at h
      split at h
      · dsimp only at h
        split at h
        · split at h
          · cases h
            assumption
          · cases h
        · cases h
      all_goals cases h
    show (elementAt (m.heap.arrayAt ref) i >>= fun _ =>
      lift (Exec.onHeap (modify fun h => h.write v (.element ref i)))) m = _
    rw [elementAt_eq hlt, pure_bind]

/-- A place that is written to has been looked for, and the index found to be in range. -/
theorem assign_eq (receiver key v : Value) :
    assign receiver key v = lift (Exec.onHeap (HeapM.assign receiver key v)) := by
  funext m
  show (lift (Exec.ofExcept (m.heap.place receiver key)) >>= write v) m = _
  rw [bind_eq, lift, Exec.ofExcept_eq, lift, Exec.onHeap_eq]
  unfold HeapM.assign
  simp only [bind, EStateM.bind, Exec.get_eq]
  cases hplace : m.heap.place receiver key with
  | error e => rfl
  | ok place => exact write_eq v hplace

theorem writeIndex_eq : writeIndex = lift Exec.writeIndex := by
  unfold writeIndex Exec.writeIndex
  simp only [lift_bind, assign_eq]

/-! ## Jumps

A target is compared with the length of the code.
-/

theorem andJump_eq (target : Nat) : andJump target = lift (Exec.andJump target) := by
  unfold andJump Exec.andJump Exec.top
  simp only [lift_bind, peek_eq]
  congr 1; funext v; congr 1; funext falsy
  cases falsy <;> rfl

theorem orJump_eq (target : Nat) : orJump target = lift (Exec.orJump target) := by
  unfold orJump Exec.orJump Exec.top
  simp only [lift_bind, peek_eq]
  congr 1; funext v; congr 1; funext falsy
  cases falsy <;> rfl

end Checked
end ScriptVM
