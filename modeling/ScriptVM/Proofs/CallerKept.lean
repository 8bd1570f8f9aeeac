import ScriptVM.Proofs.OutsideCall

/-!
# What a call leaves behind

A call works on the ground of its caller: the stack beneath the callee, and the callers'
activations. As long as no instruction in the midst of the call reaches beneath the base of its own
activation, the whole call is the run of a machine on this ground. When the callee returns, the
ground is there as it was, and the result stands on it in the callee's place.
-/

namespace ScriptVM

variable {host : Host} {m m₁ : Machine} {caller : Frame} {callers : List Frame} {i : Instruction}
  {next slot : Nat}

/-! ## Entering from any call instruction

A call may spread its last argument first, and may call a builtin, which is over at once. Until the
callee's activation has been started the activations are the caller's.
-/

theorem Exec.keepsFrames_spreadLast (argc : Nat) : KeepsFrames (spreadLast argc) :=
  (uses_spreadLast (E := [.take, .put]) argc (by decide) (by decide)).keepsFrames (by decide)

/-- A builtin starts no activation. -/
theorem Exec.keepsFrames_callBuiltin (b : Builtin) (callee : Nat) :
    KeepsFrames (callBuiltin host b callee) :=
  (keepsFrames_onStack (Stack.bounded_sliceFrom _)).bind fun _ => (keepsFrames_onHeap _).bind
    fun result => (uses_replaceCallee callee result).keepsFrames (by decide)

/-- A call that succeeds has found its callee with the arguments above. It has entered the callee
just above that place, or it is over. -/
theorem Exec.callee_of_call {argc : Nat} {spread : Bool} {m' : Machine}
    (h : call host argc spread m = .ok () m') :
    ∃ slot, m.stack.size = slot + (argc + 1) ∧ m'.stack.capacity = m.stack.capacity ∧
      (m'.frames = m.frames ∨
        (∃ f, m'.frames = .start f (slot + 1) :: m.frames) ∧ m.depth < m.maxFrames) := by
  -- Spreading changes the number of arguments and the height of the stack alike.
  have hspread : ∃ argc' m₁, call host argc' false m₁ = .ok () m' ∧
      m₁.stack.size + argc = m.stack.size + argc' ∧ m.SameFrames m₁ := by
    cases spread with
    | false => exact ⟨argc, m, h, rfl, rfl, rfl, rfl⟩
    | true =>
      obtain ⟨argc', m₁, hs, h⟩ := bind_eq_ok.1 (call_spread host argc ▸ h)
      exact ⟨argc', m₁, h, size_of_spreadLast hs,
        (keepsFrames_spreadLast argc m).ok ⟨rfl, rfl, rfl⟩ hs⟩
  obtain ⟨argc', m₁, h, hsize, hsame⟩ := hspread
  rw [call_eq] at h
  split at h
  · cases h
  rename_i hlt
  rw [show m₁.stack.size - (argc' + 1) = m.stack.size - (argc + 1) by omega] at h
  refine ⟨m.stack.size - (argc + 1), by omega, ?_⟩
  split at h
  · have hentered := (ensures_enterFunction _ _ _ m).ok hsame h
    exact ⟨hentered.capacity, .inr ⟨⟨_, hentered.frames⟩, hentered.room⟩⟩
  · have hsame' := (keepsFrames_callBuiltin _ _ m).ok hsame h
    exact ⟨hsame'.capacity, .inl hsame'.frames⟩
  · cases h
  · cases h

/-! ## The ground of a call -/

/-- What stands on the ground of a call before it is entered: the callee and what is above. -/
def Machine.above (m : Machine) (slot : Nat) : Machine :=
  { m with
    stack := ⟨m.stack.values.extract slot m.stack.values.size, m.stack.capacity - slot⟩
    frames := []
    maxFrames := m.maxFrames - m.depth }

/-- The machine is cut at the callee, and the caller's part is ready to go on behind the call. -/
theorem Machine.goTo_eq_above_on (hf : m.frames = caller :: callers) (next : Nat)
    (hslot : slot ≤ m.stack.size) (hroom : slot ≤ m.stack.capacity)
    (hdepth : m.depth ≤ m.maxFrames) :
    m.goTo next = (m.above slot).on (m.groundOf slot next) := by
  have hvalues : m.stack.values.shrink slot ++ m.stack.values.extract slot m.stack.values.size =
      m.stack.values := by
    apply Array.ext'
    have htail : (m.stack.values.toList.drop slot).take (m.stack.values.size - slot) =
        m.stack.values.toList.drop slot := List.take_of_length_le (by simp)
    rw [Array.toList_append, Array.toList_shrink, Array.toList_extract, List.extract_eq_take_drop,
      htail, List.take_append_drop]
  have hcapacity : (m.stack.values.shrink slot).size + (m.stack.capacity - slot) =
      m.stack.capacity := by
    simp only [Array.size_shrink, Stack.size] at hslot ⊢
    omega
  have hframes : m.maxFrames - m.depth + (caller :: callers).length = m.maxFrames := by
    rw [← hf, ← depth]
    omega
  rw [groundOf, goTo_eq hf]
  simp only [on, above, List.map_nil, List.nil_append, hvalues, hcapacity]
  simpa using hframes.symm

/-- What a call instruction has done when it has succeeded. -/
theorem Machine.call_of_step (hf : m.frames = caller :: callers)
    (hfetch : caller.function.fetch caller.ip = .instruction i next) (hop : i.op = .call)
    (hs : Exec.step host m = .ok none m₁) :
    Exec.call host i.first (i.second != 0) (m.goTo next) = .ok () m₁ := by
  rw [Exec.step_eq host hf, hfetch] at hs
  dsimp only at hs
  rw [Exec.execute, hop] at hs
  obtain ⟨_, m₂, hcall, hs⟩ := Exec.bind_eq_ok.1 hs
  cases hs
  exact hcall

/-- A call instruction that enters a function puts the activation just above the callee. -/
theorem Machine.frames_of_entered (hf : m.frames = caller :: callers)
    (hfetch : caller.function.fetch caller.ip = .instruction i next) (hop : i.op = .call)
    (hs : Exec.step host m = .ok none m₁) (hdeep : m.depth < m₁.depth) :
    ∃ slot f, m.stack.size = slot + (i.first + 1) ∧ m.depth < m.maxFrames ∧
      m₁.stack.capacity = m.stack.capacity ∧
      m₁.frames = .start f (slot + 1) :: { caller with ip := next } :: callers := by
  obtain ⟨slot, hsize, hcapacity, hframes⟩ :=
    Exec.callee_of_call (call_of_step hf hfetch hop hs)
  rw [stack_goTo] at hsize hcapacity
  have hdepth : (m.goTo next).depth = m.depth := by
    rw [depth, depth, frames_goTo hf, hf]
    rfl
  have hmax : (m.goTo next).maxFrames = m.maxFrames := by rw [goTo_eq hf]
  rcases hframes with hsame | ⟨⟨f, henter⟩, hlt⟩
  · -- a builtin is not entered
    rw [← hdepth, depth, depth, hsame] at hdeep
    exact absurd hdeep (Nat.lt_irrefl _)
  · rw [frames_goTo hf] at henter
    exact ⟨slot, f, hsize, by omega, hcapacity, henter⟩

/-- A call instruction that enters a function does so on the ground of the call. -/
theorem Machine.entered_on (hf : m.frames = caller :: callers)
    (hfetch : caller.function.fetch caller.ip = .instruction i next) (hop : i.op = .call)
    (hs : Exec.step host m = .ok none m₁) (hdeep : m.depth < m₁.depth)
    (hsize : m.stack.size = slot + (i.first + 1)) (hroom : slot < m.stack.capacity) :
    ∃ c : Machine, c.Called ∧ m₁ = c.on (m.groundOf slot next) := by
  obtain ⟨slot', f, hsize', hdepth, -, hf₁⟩ := frames_of_entered hf hfetch hop hs hdeep
  obtain rfl : slot' = slot := by omega
  have hcall := call_of_step hf hfetch hop hs
  have habove : (m.above slot').stack.size = i.first + 1 := by
    show (m.stack.values.extract slot' m.stack.values.size).size = _
    rw [Array.size_extract]
    rw [Stack.size] at hsize
    omega
  -- What the call does on the ground it does above it, where only the operands are on the stack.
  have hlift : Exec.Lifts (m.groundOf slot' next) (Exec.call host i.first (i.second != 0))
      (m.above slot') := Exec.lifts_call host i.first _ (fun _ => Nat.le_of_eq habove.symm)
      fun _ _ => habove ▸ Nat.succ_pos _
  have hon : m.goTo next = (m.above slot').on (m.groundOf slot' next) :=
    goTo_eq_above_on hf next (by omega) (by omega) (by omega)
  rw [hon, hlift] at hcall
  cases hc : Exec.call host i.first (i.second != 0) (m.above slot') with
  | error e c =>
    rw [hc] at hcall
    cases hcall
  | ok _ c =>
    rw [hc] at hcall
    cases hcall
    obtain ⟨s, hs', hcapacity, hframes⟩ := Exec.callee_of_call hc
    obtain rfl : s = 0 := by omega
    refine ⟨c, ⟨?_, ?_⟩, rfl⟩
    · rcases hframes with hsame | ⟨⟨f', henter⟩, -⟩
      · rw [on, hsame, groundOf, frames_goTo hf] at hf₁
        have := congrArg List.length hf₁
        simp [above] at this
      · exact ⟨[], .start f' 1, henter, rfl, by simp⟩
    · rw [hcapacity]
      show 0 < m.stack.capacity - slot'
      omega

/-- The states in the midst of a call are those of a machine on the ground of the call. -/
theorem Machine.Inside.on_ground (hf : m.frames = caller :: callers)
    (hfetch : caller.function.fetch caller.ip = .instruction i next) (hop : i.op = .call)
    (hsize : m.stack.size = slot + (i.first + 1)) (hroom : slot < m.stack.capacity)
    (hs : ∀ m₁, m.Inside host m₁ → m₁.Supplied) (h : m.Inside host m₁) :
    ∃ c : Machine, c.Called ∧ m₁ = c.on (m.groundOf slot next) := by
  have hground : (m.groundOf slot next).frames = { caller with ip := next } :: callers :=
    frames_goTo hf next
  induction h with
  | enter hstep hdeep => exact entered_on hf hfetch hop hstep hdeep hsize hroom
  | step hinside hstep hdeep ih =>
    obtain ⟨c, hc, rfl⟩ := ih
    have hcarry := Exec.carries_step host (g := m.groundOf slot next) (by simp [hground]) hc
      (hs _ hinside)
    unfold Exec.Carries at hcarry
    cases hx : Exec.step host c with
    | error e c' =>
      rw [hx] at hcarry
      dsimp only at hcarry
      rw [hstep] at hcarry
      cases hcarry
    | ok r c' =>
      rw [hx] at hcarry
      cases r with
      | none =>
        have hnext := hcarry.2
        rw [hstep] at hnext
        cases hnext
        exact ⟨c', hcarry.1, rfl⟩
      | some v =>
        dsimp only at hcarry
        split at hcarry
        · -- were the callee over, the caller would be executing
          rename_i hempty
          rw [hstep] at hcarry
          cases hcarry
          rw [depth, depth, landed, on, hempty, hground, hf] at hdeep
          exact absurd hdeep (Nat.lt_irrefl _)
        · rw [hstep] at hcarry
          cases hcarry

/-! ## What is beneath the callee -/

/-- What no instruction changes is not changed in the midst of a call either. -/
theorem Machine.Inside.kept (h : m.Inside host m₁) : m.Kept m₁ := by
  have hstep {m₁ m₂ : Machine} (hs : Exec.step host m₁ = .ok none m₂) : m₁.Kept m₂ := by
    have hkept := Exec.kept_step host m₁
    rw [hs] at hkept
    exact hkept
  induction h with
  | enter hs _ => exact hstep hs
  | step _ hs _ ih => exact ih.trans (hstep hs)

/-- To be in the midst of a call, the call must have been entered. -/
theorem Machine.Inside.entered (h : m.Inside host m₁) :
    ∃ m₂, Exec.step host m = .ok none m₂ ∧ m.depth < m₂.depth := by
  induction h with
  | enter hs hdeep => exact ⟨_, hs, hdeep⟩
  | step _ _ _ ih => exact ih

/-- In the midst of a call the callee's activation stands on the caller's, and the caller is to go
on just past the call. -/
theorem Machine.Inside.frames_eq (hf : m.frames = caller :: callers)
    (hfetch : caller.function.fetch caller.ip = .instruction i next) (hop : i.op = .call)
    (hsize : m.stack.size = slot + (i.first + 1)) (h : m.Inside host m₁) :
    ∃ upper f, m₁.frames = upper ++ f :: { caller with ip := next } :: callers ∧
      f.base = slot + 1 := by
  induction h with
  | enter hs hdeep =>
    obtain ⟨slot', f, hsize', -, -, hf₁⟩ := frames_of_entered hf hfetch hop hs hdeep
    obtain rfl : slot' = slot := by omega
    exact ⟨[], .start f (slot' + 1), hf₁, rfl⟩
  | step _ hs hdeep ih =>
    obtain ⟨upper, f, hf₁, hb⟩ := ih
    cases upper with
    | nil =>
      obtain ⟨j, _, -, hmoved⟩ := Exec.moved_of_step hf₁ hs
      rcases hmoved.frames with ⟨f', -, hb', hf' | ⟨function, callee, hf'⟩⟩ | ⟨-, hf'⟩
      · exact ⟨[], f', hf', hb'.trans hb⟩
      · exact ⟨[.start function (callee + 1)], f', hf', hb'.trans hb⟩
      · -- the callee would be over
        rw [depth, depth, hf', hf] at hdeep
        exact absurd hdeep (Nat.lt_irrefl _)
    | cons u upper =>
      obtain ⟨j, _, -, hmoved⟩ := Exec.moved_of_step hf₁ hs
      rcases hmoved.frames with ⟨u', -, -, hf' | ⟨function, callee, hf'⟩⟩ | ⟨-, hf'⟩
      · exact ⟨u' :: upper, f, hf', hb⟩
      · exact ⟨.start function (callee + 1) :: u' :: upper, f, hf', hb⟩
      · exact ⟨upper, f, hf', hb⟩

/-! ## The return

The result comes off the stack before the activation is dropped with all that it has on the stack.
-/

/-- The next instruction returns `v`, the value on top of the stack or `undefined`. -/
def Machine.Returns (m : Machine) (v : Value) : Prop :=
  ∃ f rest i next, m.frames = f :: rest ∧ f.function.fetch f.ip = .instruction i next ∧
    i.op = .ret ∧ if i.first = 0 then v = .undefined else m.stack.values.back? = some v

/-- Taking the result leaves what is beneath it. -/
theorem Exec.returnValue_eq {taken : Nat} {v : Value}
    (hv : if taken = 0 then v = .undefined else m.stack.values.back? = some v)
    (hlow : slot + (if taken = 0 then 0 else 1) ≤ m.stack.values.size) :
    ∃ values, returnValue (taken != 0) m = .ok v { m with stack := ⟨values, m.stack.capacity⟩ } ∧
      values.shrink slot = m.stack.values.shrink slot := by
  by_cases h0 : taken = 0
  · rw [if_pos h0] at hv
    subst h0 hv
    exact ⟨m.stack.values, rfl, rfl⟩
  · rw [if_neg h0] at hv hlow
    refine ⟨m.stack.values.pop, ?_, ?_⟩
    · rw [returnValue, if_pos (by simpa using h0), pop_eq, hv]
    · apply Array.ext'
      have hmin : min slot (m.stack.values.toList.length - 1) = slot := by
        rw [Array.length_toList]
        omega
      rw [Array.toList_shrink, Array.toList_shrink, Array.toList_pop, List.dropLast_eq_take,
        List.take_take, hmin]

/-- A return drops everything from the callee on and puts the result there, if there is room. For
this the stack must reach up to the callee, and to the result if that is taken from it. -/
theorem Machine.Returns.step_eq_of_le (host : Host) {f : Frame} {rest : List Frame} {v : Value}
    (hret : m.Returns v) (hf : m.frames = f :: rest) (hrest : rest ≠ []) (hb : f.base = slot + 1)
    (hlow : ∀ i next, f.function.fetch f.ip = .instruction i next →
      slot + (if i.first = 0 then 0 else 1) ≤ m.stack.values.size) :
    Exec.step host m =
      if slot < m.stack.capacity then
        .ok none { m with
          stack := ⟨(m.stack.values.shrink slot).push v, m.stack.capacity⟩
          frames := rest }
      else
        .error .stackOverflow { m with
          stack := ⟨m.stack.values.shrink slot, m.stack.capacity⟩
          frames := rest } := by
  obtain ⟨f', rest', i, next, hf', hfetch, hop, hv⟩ := hret
  rw [hf] at hf'
  cases hf'
  have hlow := hlow i next hfetch
  have hv' : if i.first = 0 then v = .undefined
      else (m.goTo next).stack.values.back? = some v := by
    rw [stack_goTo]
    exact hv
  have hlow' : slot + (if i.first = 0 then 0 else 1) ≤ (m.goTo next).stack.values.size := by
    rw [stack_goTo]
    exact hlow
  obtain ⟨values, htaken, hvalues⟩ := Exec.returnValue_eq hv' hlow'
  have hf₂ : ({ m.goTo next with
      stack := ⟨values, (m.goTo next).stack.capacity⟩ } : Machine).frames =
      { f with ip := next } :: rest := frames_goTo hf next
  have hne : rest.isEmpty = false := by simpa using hrest
  have hsize : (m.stack.values.shrink slot).size = slot := by
    rw [Array.size_shrink]
    omega
  rw [Exec.step_eq host hf, hfetch]
  dsimp only
  rw [Exec.execute, hop]
  dsimp only
  rw [Exec.bind_eq, htaken]
  dsimp only
  rw [Exec.leave_eq hf₂, hne]
  simp only [Bool.false_eq_true, if_false, hb, Nat.succ_ne_zero, Nat.add_sub_cancel]
  rw [Exec.bind_eq, Exec.onStack_eq, Stack.truncate]
  dsimp only
  rw [hvalues, stack_goTo, Exec.bind_eq, Exec.push_eq]
  dsimp only
  rw [hsize, goTo_eq hf]
  by_cases hroom : slot < m.stack.capacity
  · simp only [hroom, if_true]
    rfl
  · simp only [hroom, if_false]

/-- With its operands supplied, an activation returns to where its callee is. -/
theorem Machine.Returns.step_eq (host : Host) {f : Frame} {rest : List Frame} {v : Value}
    (hret : m.Returns v) (hf : m.frames = f :: rest) (hrest : rest ≠ []) (hb : f.base = slot + 1)
    (hs : m.Supplied) :
    Exec.step host m =
      if slot < m.stack.capacity then
        .ok none { m with
          stack := ⟨(m.stack.values.shrink slot).push v, m.stack.capacity⟩
          frames := rest }
      else
        .error .stackOverflow { m with
          stack := ⟨m.stack.values.shrink slot, m.stack.capacity⟩
          frames := rest } := by
  apply hret.step_eq_of_le host hf hrest hb
  intro i next hfetch
  obtain ⟨f', rest', i', next', hf', hfetch', hop, -⟩ := hret
  rw [hf] at hf'
  cases hf'
  rw [hfetch] at hfetch'
  cases hfetch'
  have htakes := hs f rest i next hf hfetch
  simp only [Instruction.takes, Instruction.demand, hop, hb, Stack.size] at htakes
  by_cases h0 : i.first = 0
  · rw [if_pos h0]
    omega
  · rw [if_neg h0]
    simp only [bne_iff_ne, ne_eq, h0, not_false_eq_true, if_true] at htakes
    omega

/-- A call leaves its caller as it has found it. When the callee returns, the stack is what was
beneath the callee with the result on top, the callers' activations are those that there were, of
which the first goes on just past the call, and there are as many globals. The return only fails if
the caller's stack was too high already. -/
theorem Machine.Inside.returns (hf : m.frames = caller :: callers)
    (hfetch : caller.function.fetch caller.ip = .instruction i next) (hop : i.op = .call)
    (hs : ∀ m₁, m.Inside host m₁ → m₁.Supplied) (h : m.Inside host m₁)
    (hdepth : m₁.depth = m.depth + 1) {v : Value} (hret : m₁.Returns v) :
    let slot := m.stack.size - (i.first + 1)
    (∀ r m', Exec.step host m₁ = .ok r m' →
      r = none ∧ m'.stack.values = (m.stack.values.take slot).push v ∧
        m'.frames = { caller with ip := next } :: callers ∧ m'.globals.size = m.globals.size) ∧
    (m.stack.size ≤ m.stack.capacity → ∃ m', Exec.step host m₁ = .ok none m') := by
  intro slot
  have hsize : m.stack.size = slot + (i.first + 1) := by
    obtain ⟨m₂, hcall, hdeep⟩ := h.entered
    obtain ⟨slot', -, hsize, -⟩ := frames_of_entered hf hfetch hop hcall hdeep
    omega
  obtain ⟨upper, f, hf₁, hb⟩ := h.frames_eq hf hfetch hop hsize
  obtain rfl : upper = [] := by
    rw [depth, depth, hf₁, hf] at hdepth
    simpa using hdepth
  rw [hret.step_eq host hf₁ (List.cons_ne_nil _ _) hb (hs m₁ h), h.kept.capacity]
  constructor
  · intro r m' hok
    split at hok
    · rename_i hroom
      obtain ⟨c, -, hground⟩ := h.on_ground hf hfetch hop hsize hroom hs
      -- The ground has been beneath the callee's values all the time.
      have hbeneath : m₁.stack.values.shrink slot = m.stack.values.take slot := by
        have hslot : (m.stack.values.shrink slot).size = slot := by
          rw [Array.size_shrink]
          rw [Stack.size] at hsize
          omega
        have hshrink := Exec.shrink_append (m.stack.values.shrink slot) c.stack.values 0
        rw [hslot, Nat.add_zero] at hshrink
        rw [hground, on, groundOf, hshrink, Array.shrink_eq_take]
        simp
      cases hok
      refine ⟨rfl, ?_, rfl, h.kept.globals⟩
      rw [hbeneath]
    · cases hok
  · intro hfits
    exact ⟨_, if_pos (by omega)⟩

/-- `wrapping` leaves the local beneath it, and puts its array in its own place. -/
theorem returns_wrapping :
    (∀ r m', Exec.step sampleHost wrappedWrapping = .ok r m' →
      r = none ∧ m'.stack.values = #[.undefined, .array ⟨0⟩] ∧
        m'.frames = [⟨callsWrapping, 3, 0, []⟩] ∧ m'.globals.size = 1) ∧
    ∃ m', Exec.step sampleHost wrappedWrapping = .ok none m' := by
  obtain ⟨hcall, hload, hwrap, -⟩ := steps_of_callingWrapping sampleHost
  have hfetch : callsWrapping.fetch 0 = .instruction ⟨.call, [1, 0]⟩ 3 := by decide
  have hinside : callingWrapping.Inside sampleHost wrappedWrapping :=
    ((Machine.Inside.enter hcall (by decide)).step hload (by decide)).step hwrap (by decide)
  have hreturns : wrappedWrapping.Returns (.array ⟨0⟩) :=
    ⟨_, _, ⟨.ret, [1]⟩, 7, rfl, by decide, rfl, rfl⟩
  have h := Machine.Inside.returns (m := callingWrapping) rfl hfetch rfl
    (fun _ => supplied_callingWrapping) hinside rfl hreturns
  exact ⟨h.1, h.2 (by decide)⟩

end ScriptVM
