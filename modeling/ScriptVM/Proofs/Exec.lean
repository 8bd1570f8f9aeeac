import ScriptVM.Machine.Step

/-!
# Laws of machine computations

What the small computations do to a machine, said as equations. Beside them stands `Ensures`: a
computation that is begun with one property ends with another, or in a fault with a third. It is
closed under sequencing, so a fact about an instruction is put together from facts about its parts.
-/

namespace ScriptVM.Exec

variable {α β : Type} {m : Machine}

/-- The machine that a computation or a run has left, with an answer or a fault. -/
def left {ε : Type} : EStateM.Result ε Machine α → Machine
  | .ok _ m => m
  | .error _ m => m

/-! ## Sequencing -/

theorem bind_eq (x : Exec α) (k : α → Exec β) (m : Machine) :
    (x >>= k) m = match x m with
      | .ok a m => k a m
      | .error e m => .error e m := by
  simp only [bind, EStateM.bind]
  cases x m <;> rfl

/-- A sequence has an answer if both of its parts have one. -/
theorem bind_eq_ok {x : Exec α} {k : α → Exec β} {b : β} {m'' : Machine} :
    (x >>= k) m = .ok b m'' ↔ ∃ a m', x m = .ok a m' ∧ k a m' = .ok b m'' := by
  rw [bind_eq]
  cases hx : x m with
  | ok a m' =>
    refine ⟨fun h => ⟨a, m', rfl, h⟩, ?_⟩
    rintro ⟨_, _, h, hk⟩
    cases h
    exact hk
  | error e m' => simp

theorem pure_eq (a : α) (m : Machine) : (pure a : Exec α) m = .ok a m := rfl

/-- A computation's own state, of machines and of heaps alike. -/
theorem get_eq {ε σ : Type} (s : σ) : (get : EStateM ε σ σ) s = .ok s s := rfl

theorem modify_eq {ε σ : Type} (f : σ → σ) (s : σ) :
    (modify f : EStateM ε σ PUnit) s = .ok ⟨⟩ (f s) := rfl

theorem modifyGet_eq {ε σ τ : Type} (f : σ → τ × σ) (s : σ) :
    (modifyGet f : EStateM ε σ τ) s = .ok (f s).1 (f s).2 := rfl

/-- Leaving out the answer is a sequence too, and is treated as one. -/
theorem discard_eq (x : Exec α) : discard x = x >>= fun _ => pure () := by
  funext m
  rw [bind_eq]
  simp only [discard, Functor.discard, Functor.mapConst, EStateM.map, Function.comp,
    Function.const]
  cases x m <;> rfl

/-! ## Parts of the machine

One equation for each part, in which all of the outcomes are spelled out.
-/

theorem onStack_eq (x : StackM α) (m : Machine) :
    onStack x m = match x m.stack with
      | .ok a s => .ok a { m with stack := s }
      | .error e s => .error e { m with stack := s } := rfl

theorem onHeap_eq (x : HeapM α) (m : Machine) :
    onHeap x m = match x m.heap with
      | .ok a h => .ok a { m with heap := h }
      | .error e h => .error e { m with heap := h } := rfl

theorem push_eq (v : Value) (m : Machine) :
    push v m =
      if m.stack.values.size < m.stack.capacity then
        .ok () { m with stack := ⟨m.stack.values.push v, m.stack.capacity⟩ }
      else .error .stackOverflow m := by
  rw [push, onStack_eq, Stack.push]
  by_cases h : m.stack.values.size < m.stack.capacity <;> simp only [h, if_true, if_false]

theorem pop_eq (m : Machine) :
    pop m = match m.stack.values.back? with
      | some v => .ok v { m with stack := ⟨m.stack.values.pop, m.stack.capacity⟩ }
      | none => .error .stackUnderflow m := by
  rw [pop, onStack_eq, Stack.pop]
  cases m.stack.values.back? <;> rfl

/-- With an activation at hand, asking for it succeeds. -/
theorem frame_eq {f : Frame} {rest : List Frame} (h : m.frames = f :: rest) :
    frame m = .ok f m := by
  unfold frame
  rw [bind_eq]
  simp only [get_eq, h]
  rfl

/-- Without one there is a fault of the machine. -/
theorem frame_of_no_frame (h : m.frames = []) : frame m = .error (.internal .noActiveFrame) m := by
  unfold frame
  rw [bind_eq]
  simp only [get_eq, h]
  rfl

theorem stackSize_eq (m : Machine) : stackSize m = .ok m.stack.size m := rfl

theorem isFalsy_eq (v : Value) (m : Machine) : isFalsy v m = .ok (m.heap.isFalsy v) m := rfl

theorem setFrame_eq (f : Frame) (m : Machine) :
    setFrame f m = .ok () { m with frames := f :: m.frames.tail } := rfl

theorem pushFrame_eq (f : Frame) (m : Machine) :
    pushFrame f m =
      if m.frames.length < m.maxFrames then .ok () { m with frames := f :: m.frames }
      else .error .stackOverflow m := by
  unfold pushFrame
  simp only [bind_eq, get_eq]
  split <;> rfl

theorem ofExcept_eq (x : Except Fault α) (m : Machine) :
    ofExcept x m = match x with
      | .ok a => .ok a m
      | .error e => .error e m := by
  cases x <;> rfl

theorem constant_eq (index : Nat) (m : Machine) :
    constant index m = match m.constants[index]? with
      | some v => .ok v m
      | none => .error (.constantOutOfRange index m.constants.size) m := by
  unfold constant
  simp only [bind_eq, get_eq]
  cases m.constants[index]? <;> rfl

theorem global_eq (index : Nat) (m : Machine) :
    global index m = match m.globals[index]? with
      | some v => .ok v m
      | none => .error (.globalOutOfRange index m.globals.size) m := by
  unfold global
  simp only [bind_eq, get_eq]
  cases m.globals[index]? <;> rfl

theorem setGlobal_eq (index : Nat) (v : Value) (m : Machine) :
    setGlobal index v m =
      if index < m.globals.size then
        .ok () { m with globals := m.globals.setIfInBounds index v }
      else .error (.globalOutOfRange index m.globals.size) m := by
  unfold setGlobal
  simp only [bind_eq, get_eq]
  split <;> rfl

/-- Without a budget every charge succeeds. -/
theorem charge_eq (m : Machine) :
    charge m = match m.budget with
      | none => .ok () m
      | some 0 => .error .objectAllocLimit m
      | some (n + 1) => .ok () { m with budget := some n } := by
  unfold charge
  simp only [bind_eq, get_eq]
  rcases m.budget with _ | _ | n <;> rfl

theorem jump_eq {f : Frame} {rest : List Frame} (h : m.frames = f :: rest) (target : Nat) :
    jump target m =
      if target ≤ f.function.code.size then
        .ok () { m with frames := { f with ip := target } :: rest }
      else .error (.internal (.jumpOutside target f.function.code.size)) m := by
  unfold jump
  rw [bind_eq, frame_eq h]
  dsimp only
  split
  · rw [setFrame_eq, h, List.tail_cons]
  · rfl

theorem leave_of_no_frame (h : m.frames = []) (result : Value) :
    leave result m = .error (.internal .returnWithoutFrame) m := by
  unfold leave
  rw [bind_eq]
  simp only [get_eq, h]
  rfl

/-- The result of the outermost activation is the answer, and that of any other goes where its
callee was. -/
theorem leave_eq {f : Frame} {rest : List Frame} (h : m.frames = f :: rest) (result : Value) :
    leave result m =
      if rest.isEmpty then .ok (some result) { m with frames := rest }
      else if f.base = 0 then .error .stackUnderflow { m with frames := rest }
      else (do
        onStack (Stack.truncate (f.base - 1))
        push result
        return none : Exec (Option Value)) { m with frames := rest } := by
  unfold leave
  rw [bind_eq]
  simp only [get_eq, h]
  rw [bind_eq]
  simp only [modify_eq]
  by_cases hr : rest.isEmpty = true
  · simp only [hr, if_true]
    rfl
  · by_cases hb : f.base = 0 <;> simp only [hr, hb, if_true, if_false] <;> rfl

/-! ## Calls -/

/-- A call with a spread argument is a call with what the argument is spread to. -/
theorem call_spread (host : Host) (argc : Nat) :
    call host argc true = spreadLast argc >>= fun argc => call host argc false := rfl

/-- The arguments are counted from the top to find the callee. -/
theorem call_eq_bind (host : Host) (argc : Nat) :
    call host argc false = (do
      let size ← stackSize
      if size < argc + 1 then throw .stackUnderflow
      else
        let callee := size - (argc + 1)
        match ← onStack (Stack.get callee) with
        | .function f => enterFunction f.function callee argc
        | .builtin b => callBuiltin host b callee
        | v => throw (.notCallable v.typeName)) := rfl

/-- What is called is a function, a builtin, or nothing that can be called. -/
theorem call_eq (host : Host) (argc : Nat) (m : Machine) :
    call host argc false m =
      if m.stack.size < argc + 1 then .error .stackUnderflow m
      else
        match m.stack.values[m.stack.size - (argc + 1)]? with
        | some (.function f) => enterFunction f.function (m.stack.size - (argc + 1)) argc m
        | some (.builtin b) => callBuiltin host b (m.stack.size - (argc + 1)) m
        | some v => .error (.notCallable v.typeName) m
        | none => .error .stackUnderflow m := by
  rw [call_eq_bind, bind_eq, stackSize_eq]
  dsimp only
  by_cases hlt : m.stack.size < argc + 1
  · simp only [hlt, if_true]
    rfl
  · simp only [hlt, if_false]
    rw [bind_eq, onStack_eq, Stack.get]
    cases m.stack.values[m.stack.size - (argc + 1)]? with
    | none => rfl
    | some v => cases v <;> rfl

/-! ## Properties before and after -/

/-- Begun with `P`, the computation ends with `Q`, or in a fault with `E`. -/
def Ensures (P : Machine → Prop) (x : Exec α) (Q : α → Machine → Prop)
    (E : Fault → Machine → Prop) : Prop :=
  ∀ m, P m →
    match x m with
    | .ok a m => Q a m
    | .error e m => E e m

variable {P P' : Machine → Prop} {Q Q' : α → Machine → Prop} {R : β → Machine → Prop}
  {E : Fault → Machine → Prop} {x : Exec α} {k : α → Exec β}

/-- When the computation is known to have an answer, its state has the property. -/
theorem Ensures.ok {a : α} {m' : Machine} (h : Ensures P x Q E) (hm : P m)
    (hx : x m = .ok a m') : Q a m' := by
  have := h m hm
  rwa [hx] at this

/-- The property between the two parts may depend on the answer of the first. -/
theorem Ensures.bind (hx : Ensures P x Q E) (hk : ∀ a, Ensures (Q a) (k a) R E) :
    Ensures P (x >>= k) R E := by
  intro m hm
  rw [bind_eq]
  have h := hx m hm
  cases hm' : x m with
  | ok a m' =>
    rw [hm'] at h
    exact hk a m' h
  | error e m' =>
    rw [hm'] at h
    exact h

/-- A fact that does not depend on the machine may be assumed. -/
theorem Ensures.of_and {p : Prop} (h : p → Ensures P x Q E) :
    Ensures (fun m => p ∧ P m) x Q E := fun m hm => h hm.1 m hm.2

/-- Two things that are ensured are ensured together. -/
theorem Ensures.and {E' : Fault → Machine → Prop} (h : Ensures P x Q E) (h' : Ensures P' x Q' E') :
    Ensures (fun m => P m ∧ P' m) x (fun a m => Q a m ∧ Q' a m) E := by
  intro m hm
  have h := h m hm.1
  have h' := h' m hm.2
  cases hx : x m with
  | ok a m' =>
    rw [hx] at h h'
    exact ⟨h, h'⟩
  | error e m' =>
    rw [hx] at h
    exact h

/-- What is asked for may be stronger, and what is ensured weaker. -/
theorem Ensures.mono (h : Ensures P x Q E) (hP : ∀ m, P' m → P m) (hQ : ∀ a m, Q a m → Q' a m) :
    Ensures P' x Q' E := by
  intro m hm
  have := h m (hP m hm)
  cases hx : x m with
  | ok a m' =>
    rw [hx] at this
    exact hQ a m' this
  | error e m' =>
    rw [hx] at this
    exact this

theorem Ensures.pre (h : Ensures P x Q E) (hP : ∀ m, P' m → P m) : Ensures P' x Q E :=
  h.mono hP fun _ _ hQ => hQ

theorem Ensures.post (h : Ensures P x Q E) (hQ : ∀ a m, Q a m → Q' a m) : Ensures P x Q' E :=
  h.mono (fun _ hP => hP) hQ

/-- What else is known of the machine can be left out. -/
theorem Ensures.pre_and (h : Ensures P x Q E) : Ensures (fun m => P m ∧ P' m) x Q E :=
  h.pre fun _ hm => hm.1

/-- The same, where nothing is asked of a fault. -/
theorem Ensures.anyFault (h : Ensures P x Q E) : Ensures P x Q fun _ _ => True := by
  intro m hm
  have := h m hm
  cases hx : x m with
  | ok a m' =>
    rw [hx] at this
    exact this
  | error e m' => trivial

end ScriptVM.Exec
