import ScriptVM.Proofs.Activation

/-!
# Machines on top of something

A machine can stand on a `Ground`: more values beneath its stack and more activations beneath its
own, with as much more room. A computation does there what it does without the ground, as long as it
takes nothing from beneath the machine's own values. `Over` says so of one computation at one
machine, and `lifts_execute` of every instruction. Calls made inside a run and calls made from
outside then differ in the ground only.
-/

namespace ScriptVM

/-! ## The ground -/

/-- Values and activations for a machine to stand on. -/
structure Ground where
  values : Array Value
  frames : List Frame

def Frame.raise (n : Nat) (f : Frame) : Frame := { f with base := n + f.base }

def Machine.on (g : Ground) (m : Machine) : Machine :=
  { m with
    stack := ⟨g.values ++ m.stack.values, g.values.size + m.stack.capacity⟩
    frames := m.frames.map (Frame.raise g.values.size) ++ g.frames
    maxFrames := m.maxFrames + g.frames.length }

namespace Machine

variable {g : Ground} {m : Machine} {f : Frame} {rest : List Frame}

theorem frames_on (h : m.frames = f :: rest) :
    (m.on g).frames =
      f.raise g.values.size :: (rest.map (Frame.raise g.values.size) ++ g.frames) := by
  simp [on, h]

/-- Moving on in the executing activation is the same on the ground and off it. -/
theorem goTo_on (h : m.frames = f :: rest) (ip : Nat) : (m.on g).goTo ip = (m.goTo ip).on g := by
  rw [goTo_eq (frames_on h), goTo_eq h]
  rfl

end Machine

namespace Exec

variable {α β γ δ : Type} {g : Ground} {m : Machine}

/-- On the ground, `y` does to the machine what `x` does without it. The answers differ by `φ`. -/
def Over (g : Ground) (φ : α → β) (x : Exec α) (y : Exec β) (m : Machine) : Prop :=
  y (m.on g) = match x m with
    | .ok a m => .ok (φ a) (m.on g)
    | .error e m => .error e (m.on g)

/-- On the ground, `x` does to the machine what it does without it. -/
abbrev Lifts (g : Ground) (x : Exec α) (m : Machine) : Prop := Over g id x x m

/-! ## Sequencing

What is lifted is put together from lifted parts. The second part is only asked to be lifted at
machines that the first one can leave, so that it is known how much is on the stack by then.
-/

/-- The second parts get different answers if the first ones give such, as heights are. -/
theorem Over.bind {φ : α → β} {ψ : γ → δ} {x : Exec α} {y : Exec β} {k : α → Exec γ}
    {l : β → Exec δ} (hx : Over g φ x y m)
    (hk : ∀ a m', x m = .ok a m' → Over g ψ (k a) (l (φ a)) m') :
    Over g ψ (x >>= k) (y >>= l) m := by
  unfold Over
  rw [bind_eq, bind_eq, hx]
  cases h : x m with
  | ok a m' => exact hk a m' h
  | error e m' => rfl

theorem lifts_pure (a : α) : Lifts g (pure a) m := rfl

/-- The whole state looks different on the ground. Parts of it are read by what follows. -/
theorem over_state : Over g (Machine.on g) get get m := rfl

theorem lifts_throw (e : Fault) : Lifts g (throw e : Exec α) m := rfl

theorem lifts_discard {x : Exec α} (h : Lifts g x m) : Lifts g (discard x) m := by
  rw [discard_eq]
  exact h.bind fun _ _ _ => lifts_pure ()

/-! ## At the top of the stack

Taking from the top is the same on the ground if there is something to take. If there is nothing,
the machine alone would fail where the ground provides. Next to each operation stands how it changes
the height, for the one that comes after it.
-/

/-- Shrinking on top of something leaves what is beneath. -/
theorem shrink_append (xs ys : Array α) (n : Nat) :
    (xs ++ ys).shrink (xs.size + n) = xs ++ ys.shrink n := by
  apply Array.ext'
  rw [Array.toList_shrink, Array.toList_append, Array.toList_append, Array.toList_shrink,
    ← Array.length_toList, List.take_length_add_append]

/-- There is as much more room on the ground as it takes up, so pushing fails in the same cases. -/
theorem lifts_push (v : Value) : Lifts g (push v) m := by
  unfold Lifts Over
  rw [push_eq, push_eq]
  simp only [Machine.on, Array.size_append, Nat.add_lt_add_iff_left]
  split
  · simp
  · rfl

theorem size_of_push {v : Value} {u : Unit} {m' : Machine} (h : push v m = .ok u m') :
    m'.stack.size = m.stack.size + 1 := by
  rw [push_eq] at h
  by_cases hs : m.stack.values.size < m.stack.capacity <;> simp only [hs, if_true, if_false] at h
  · simp only [EStateM.Result.ok.injEq] at h
    rw [← h.2]
    exact Array.size_push ..
  · simp at h

/-- The value must be there: one that the ground has would be taken as well. -/
theorem lifts_pop (h : 0 < m.stack.size) : Lifts g pop m := by
  have hne : m.stack.values ≠ #[] := by
    intro he
    simp [Stack.size, he] at h
  unfold Lifts Over
  rw [pop_eq, pop_eq]
  simp only [Machine.on, Array.back?_append, Array.pop_append_of_ne_empty hne]
  cases hb : m.stack.values.back? with
  | none => exact absurd (Array.back?_eq_none_iff.1 hb) hne
  | some v => rfl

theorem size_of_pop {v : Value} {m' : Machine} (h : pop m = .ok v m') :
    m'.stack.size + 1 = m.stack.size := by
  rw [pop_eq] at h
  cases hb : m.stack.values.back? with
  | none => simp [hb] at h
  | some w =>
    have hne : m.stack.values.size ≠ 0 := fun h0 => by
      simp [Array.eq_empty_of_size_eq_zero h0] at hb
    simp only [hb, EStateM.Result.ok.injEq] at h
    rw [← h.2]
    simp only [Stack.size, Array.size_pop]
    omega

theorem frames_of_pop {v : Value} {m' : Machine} (h : pop m = .ok v m') :
    m'.frames = m.frames := by
  rw [pop_eq] at h
  cases hb : m.stack.values.back? with
  | none => simp [hb] at h
  | some w =>
    rw [hb] at h
    cases h
    rfl

/-- What is found at an index from the bottom is found so much higher on the ground. -/
theorem getElem?_on (i : Nat) :
    (m.on g).stack.values[g.values.size + i]? = m.stack.values[i]? := by
  simp [Machine.on, Array.getElem?_append_right]

theorem lifts_top (h : 0 < m.stack.size) : Lifts g top m := by
  unfold Lifts Over top
  rw [onStack_eq, onStack_eq, Stack.peek, Stack.peek]
  have hsize : (m.on g).stack.values.size = g.values.size + m.stack.values.size := by
    simp [Machine.on]
  have h' : 0 < m.stack.values.size := h
  rw [if_pos h', hsize, if_pos (by omega),
    show g.values.size + m.stack.values.size - 1 - 0 =
      g.values.size + (m.stack.values.size - 1 - 0) by omega, getElem?_on]
  cases m.stack.values[m.stack.values.size - 1 - 0]? <;> rfl

theorem size_of_top {v : Value} {m' : Machine} (h : top m = .ok v m') :
    m'.stack.size = m.stack.size := by
  unfold top at h
  rw [onStack_eq, Stack.peek] at h
  by_cases hs : 0 < m.stack.values.size
  · rw [if_pos hs] at h
    cases hv : m.stack.values[m.stack.values.size - 1 - 0]? with
    | none =>
      rw [hv] at h
      cases h
    | some w =>
      rw [hv] at h
      cases h
      rfl
  · rw [if_neg hs] at h
    simp at h

/-- Many values are taken at once, or none if there are not as many. Then there must not be as many
on the ground either. -/
theorem lifts_popMany {n : Nat} (h : n ≤ g.values.size + m.stack.size → n ≤ m.stack.size) :
    Lifts g (onStack (Stack.popMany n)) m := by
  have hsize : (m.on g).stack.values.size = g.values.size + m.stack.values.size := by
    simp [Machine.on]
  unfold Lifts Over
  rw [onStack_eq, onStack_eq, Stack.popMany, Stack.popMany]
  by_cases hn : n ≤ m.stack.values.size
  · rw [if_pos hn, if_pos (by omega)]
    dsimp only
    rw [hsize, Nat.add_sub_assoc hn]
    simp only [Machine.on, shrink_append]
    simp [Array.extract_append]
  · have hg : ¬ n ≤ (m.on g).stack.values.size := fun hle => hn (h (hsize ▸ hle))
    rw [if_neg hn, if_neg hg]

theorem size_of_popMany {n : Nat} {vs : List Value} {m' : Machine}
    (h : onStack (Stack.popMany n) m = .ok vs m') : m'.stack.size + n = m.stack.size := by
  rw [onStack_eq, Stack.popMany] at h
  by_cases hn : n ≤ m.stack.values.size
  · rw [if_pos hn] at h
    simp only [EStateM.Result.ok.injEq] at h
    rw [← h.2]
    simp only [Stack.size, Array.size_shrink]
    omega
  · rw [if_neg hn] at h
    simp at h

/-! ## From the bottom of the stack

An index from the bottom is so much greater on the ground. Nothing is asked of the height, since the
ground is not reached by an index beyond it.
-/

theorem over_get (i : Nat) :
    Over g id (onStack (Stack.get i)) (onStack (Stack.get (g.values.size + i))) m := by
  unfold Over
  rw [onStack_eq, onStack_eq, Stack.get, Stack.get, getElem?_on]
  cases m.stack.values[i]? <;> rfl

theorem size_of_get {i : Nat} {v : Value} {m' : Machine} (h : onStack (Stack.get i) m = .ok v m') :
    m'.stack.size = m.stack.size := by
  rw [onStack_eq, Stack.get] at h
  cases hv : m.stack.values[i]? <;> simp_all
  rw [← h.2]

theorem over_set (i : Nat) (v : Value) :
    Over g id (onStack (Stack.set i v)) (onStack (Stack.set (g.values.size + i) v)) m := by
  unfold Over
  rw [onStack_eq, onStack_eq, Stack.set, Stack.set]
  simp only [Machine.on, Array.size_append, Nat.add_lt_add_iff_left]
  by_cases h : i < m.stack.values.size
  · simp only [h, if_true]
    rw [Array.setIfInBounds_append_right (by omega), Nat.add_sub_cancel_left, id]
  · simp only [h, if_false]

theorem over_truncate (n : Nat) :
    Over g id (onStack (Stack.truncate n)) (onStack (Stack.truncate (g.values.size + n))) m := by
  unfold Over
  rw [onStack_eq, onStack_eq, Stack.truncate, Stack.truncate]
  simp only [Machine.on, shrink_append]

/-- The values above an index are the same, since the ground is beneath it. -/
theorem over_sliceFrom (n : Nat) :
    Over g id (onStack (Stack.sliceFrom n)) (onStack (Stack.sliceFrom (g.values.size + n))) m := by
  unfold Over
  rw [onStack_eq, onStack_eq, Stack.sliceFrom, Stack.sliceFrom]
  simp only [Machine.on, Array.size_append, Nat.add_le_add_iff_left]
  by_cases h : n ≤ m.stack.values.size
  · simp only [h, if_true]
    simp [Array.extract_append]
  · simp only [h, if_false]

/-- This is where answers differ: the height is measured from beneath the ground. -/
theorem over_stackSize : Over g (g.values.size + ·) stackSize stackSize m := by
  unfold Over
  rw [stackSize_eq, stackSize_eq]
  simp [Machine.on, Stack.size]

/-! ## Other parts of the machine

Heap, globals, constants and budget are the machine's own, with the ground or without it.
-/

/-- The heap is the same, so the answer is. -/
theorem lifts_onHeap (x : HeapM α) : Lifts g (onHeap x) m := by
  unfold Lifts Over
  rw [onHeap_eq, onHeap_eq]
  dsimp only [Machine.on]
  cases x m.heap <;> rfl

theorem lifts_ofExcept (x : Except Fault α) : Lifts g (ofExcept x) m := by
  unfold Lifts Over
  rw [ofExcept_eq, ofExcept_eq]
  cases x <;> rfl

theorem lifts_isFalsy (v : Value) : Lifts g (isFalsy v) m := rfl

theorem lifts_charge : Lifts g charge m := by
  unfold Lifts Over
  rw [charge_eq, charge_eq, show (m.on g).budget = m.budget from rfl]
  rcases m.budget with _ | _ | n <;> rfl

theorem lifts_constant (index : Nat) : Lifts g (constant index) m := by
  unfold Lifts Over
  rw [constant_eq, constant_eq]
  dsimp only [Machine.on]
  cases m.constants[index]? <;> rfl

theorem lifts_global (index : Nat) : Lifts g (global index) m := by
  unfold Lifts Over
  rw [global_eq, global_eq]
  dsimp only [Machine.on]
  cases m.globals[index]? <;> rfl

theorem lifts_setGlobal (index : Nat) (v : Value) : Lifts g (setGlobal index v) m := by
  unfold Lifts Over
  rw [setGlobal_eq, setGlobal_eq, show (m.on g).globals = m.globals from rfl]
  by_cases h : index < m.globals.size
  · rw [if_pos h, if_pos h]
    rfl
  · rw [if_neg h, if_neg h]

theorem lifts_pushUndefined (n : Nat) : Lifts g (pushUndefined n) m := by
  induction n generalizing m with
  | zero => exact lifts_pure ()
  | succ n ih => exact (lifts_push _).bind fun _ _ _ => ih

/-- All of the values have found room if the push has succeeded. -/
theorem size_of_pushAll {vs : List Value} {u : Unit} {m' : Machine}
    (h : pushAll vs m = .ok u m') : m'.stack.size = m.stack.size + vs.length := by
  induction vs generalizing m with
  | nil =>
    cases h
    rfl
  | cons v vs ih =>
    obtain ⟨_, m₁, hp, h⟩ := bind_eq_ok.1 h
    rw [ih h, size_of_push hp, List.length_cons]
    omega

/-- The values are pushed one by one, up to the same one if they do not fit. -/
theorem lifts_pushAll (vs : List Value) : Lifts g (pushAll vs) m := by
  induction vs generalizing m with
  | nil => exact lifts_pure ()
  | cons v vs ih => exact (lifts_push v).bind fun _ _ _ => ih

/-! ## Activations

Where an activation is at hand, it is found on the ground too, with its base so much higher. -/

variable {m₀ : Machine} {f : Frame} {rest : List Frame}

theorem over_frame (h : m₀.Executing f rest m) :
    Over g (Frame.raise g.values.size) frame frame m := by
  obtain ⟨-, f', -, -, -, hm⟩ := h
  unfold Over
  rw [frame_eq hm, frame_eq (Machine.frames_on hm)]

/-- Replacing the executing activation keeps it on the ground, raised. -/
theorem over_setFrame (h : m₀.Executing f rest m) (f' : Frame) :
    Over g id (setFrame f') (setFrame (f'.raise g.values.size)) m := by
  obtain ⟨-, f'', -, -, -, hm⟩ := h
  unfold Over
  rw [setFrame_eq, setFrame_eq, Machine.frames_on hm]
  simp [Machine.on, hm]

/-- There is room for as many more activations as there are beneath. -/
theorem over_pushFrame (f' : Frame) :
    Over g id (pushFrame f') (pushFrame (f'.raise g.values.size)) m := by
  unfold Over
  rw [pushFrame_eq, pushFrame_eq]
  have hlen : (m.on g).frames.length < (m.on g).maxFrames ↔ m.frames.length < m.maxFrames := by
    simp [Machine.on]
  by_cases hlt : m.frames.length < m.maxFrames <;> simp only [hlen, hlt, if_true, if_false]
  simp [Machine.on]

theorem lifts_jump (h : m₀.Executing f rest m) (target : Nat) : Lifts g (jump target) m := by
  refine (over_frame h).bind fun f' m' hf' => ?_
  have h' : m₀.Executing f rest m' := (stays_frame m₀ f rest).ok h hf'
  show Over g id (if target ≤ f'.function.code.size then _ else _)
    (if target ≤ f'.function.code.size then _ else _) m'
  split
  · exact over_setFrame h' { f' with ip := target }
  · exact lifts_throw _

/-! ## Locals and closures

A local without a cell is found on the stack, at its slot above the base. With the base raised this
is the same element. A local with a cell is found in the heap, which knows nothing of the ground.
-/

/-- In a cell or on the stack, the local has the same value. -/
theorem lifts_getLocal (h : m₀.Executing f rest m) (slot : Nat) : Lifts g (getLocal slot) m := by
  refine (over_frame h).bind fun f' m' _ => ?_
  rw [show (f'.raise g.values.size).cell? slot = f'.cell? slot from rfl]
  cases f'.cell? slot with
  | some cell => rfl
  | none =>
    rw [show (f'.raise g.values.size).base + slot = g.values.size + (f'.base + slot) from
      Nat.add_assoc ..]
    exact over_get _

theorem lifts_setLocal (h : m₀.Executing f rest m) (slot : Nat) (v : Value) :
    Lifts g (setLocal slot v) m := by
  refine (over_frame h).bind fun f' m' _ => ?_
  rw [show (f'.raise g.values.size).cell? slot = f'.cell? slot from rfl]
  cases f'.cell? slot with
  | some cell => exact lifts_onHeap _
  | none =>
    rw [show (f'.raise g.values.size).base + slot = g.values.size + (f'.base + slot) from
      Nat.add_assoc ..]
    exact over_set _ v

theorem lifts_defineLocal (h : m₀.Executing f rest m) (slot : Nat) (v : Value) :
    Lifts g (defineLocal slot v) m := by
  refine (over_frame h).bind fun f' m' hf' => ?_
  refine (over_setFrame ((stays_frame m₀ f rest).ok h hf') (f'.unbind slot)).bind fun _ _ _ => ?_
  rw [show (f'.raise g.values.size).base + slot = g.values.size + (f'.base + slot) from
    Nat.add_assoc ..]
  exact over_set _ v

theorem lifts_freeCell (h : m₀.Executing f rest m) (index : Nat) : Lifts g (freeCell index) m :=
  (over_frame h).bind fun f' _ _ => lifts_ofExcept (f'.function.free? index)

theorem lifts_getFree (h : m₀.Executing f rest m) (index : Nat) : Lifts g (getFree index) m :=
  (lifts_freeCell h index).bind fun _ _ _ => rfl

theorem lifts_setFree (h : m₀.Executing f rest m) (index : Nat) (v : Value) :
    Lifts g (setFree index v) m :=
  (lifts_freeCell h index).bind fun _ _ _ => lifts_onHeap _

theorem lifts_coreBuiltin (index : Nat) : Lifts g (coreBuiltin index) m := by
  unfold coreBuiltin
  split
  · exact lifts_pure _
  · exact lifts_throw _

/-- A raised activation gives its locals the same cells. -/
theorem over_promote (f' : Frame) (slot : Nat) (v : Value) :
    Over g (fun p => (p.1, p.2.1, p.2.2.raise g.values.size)) (onHeap (f'.promote slot v))
      (onHeap ((f'.raise g.values.size).promote slot v)) m := by
  have hcell : (f'.raise g.values.size).cell? slot = f'.cell? slot := rfl
  unfold Over
  rw [onHeap_eq, onHeap_eq, Frame.promote, Frame.promote, hcell]
  cases f'.cell? slot <;> rfl

/-- The new cell is filled from the same slot. -/
theorem lifts_captureLocal (h : m₀.Executing f rest m) (slot : Nat) :
    Lifts g (captureLocal slot) m := by
  refine (over_frame h).bind fun f' m₁ h₁ => ?_
  rw [show (f'.raise g.values.size).base + slot = g.values.size + (f'.base + slot) from
    Nat.add_assoc ..]
  have e₁ := (stays_frame m₀ f rest).ok h h₁
  refine (over_get _).bind fun current m₂ h₂ => ?_
  have e₂ := (stays_onStack (Stack.bounded_get _) m₀ f rest).ok e₁ h₂
  refine (over_promote f' slot current).bind fun p m₃ h₃ => ?_
  have e₃ := (stays_onHeap _ m₀ f rest).ok e₂ h₃
  obtain ⟨cell, created, f''⟩ := p
  refine (over_setFrame e₃ f'').bind fun _ m₄ _ => ?_
  cases created with
  | true => exact lifts_charge.bind fun _ _ _ => lifts_pure cell
  | false => exact lifts_pure cell

theorem lifts_capture (h : m₀.Executing f rest m) (c : Capture) : Lifts g (capture c) m := by
  cases c with
  | ofLocal slot => exact lifts_captureLocal h slot
  | ofFree index => exact lifts_freeCell h index

/-- One capture after the other, in the same activation. -/
theorem lifts_captureAll (h : m₀.Executing f rest m) (cs : List Capture) :
    Lifts g (captureAll cs) m := by
  induction cs generalizing m with
  | nil => exact lifts_pure []
  | cons c cs ih =>
    refine (lifts_capture h c).bind fun cell m' h' => ?_
    exact (ih ((stays_capture c m₀ f rest).ok h h')).bind fun _ _ _ => lifts_pure _

theorem lifts_makeClosure (h : m₀.Executing f rest m) (index : Nat) :
    Lifts g (makeClosure index) m := by
  refine (lifts_constant index).bind fun v m' h' => ?_
  have e' := (stays_constant index m₀ f rest).ok h h'
  simp only [id]
  split
  · refine (lifts_captureAll e' _).bind fun cells _ _ => ?_
    exact lifts_charge.bind fun _ _ _ => (lifts_onHeap _).bind fun _ _ _ => lifts_pure _
  · exact lifts_throw _

/-! ## Operators and containers

Each of these needs the operands that it takes. How many these are depends on the instruction, and
where a count is given, the machine must have as many as the count says if the ground and the
machine together have.
-/

theorem lifts_applyBinary (op : Opcode) (h : 2 ≤ m.stack.size) : Lifts g (applyBinary op) m := by
  refine (lifts_pop (by omega)).bind fun right m₁ h₁ => ?_
  have := size_of_pop h₁
  refine (lifts_pop (by omega)).bind fun left m₂ _ => ?_
  exact (lifts_onHeap _).bind fun _ _ _ => lifts_charge.bind fun _ _ _ => lifts_push _

theorem lifts_applyUnary (op : Opcode) (h : 1 ≤ m.stack.size) : Lifts g (applyUnary op) m :=
  (lifts_pop h).bind fun _ _ _ => (lifts_ofExcept _).bind fun _ _ _ =>
    lifts_charge.bind fun _ _ _ => lifts_push _

theorem lifts_applyOrder (op : Opcode) (h : 2 ≤ m.stack.size) : Lifts g (applyOrder op) m := by
  refine (lifts_pop (by omega)).bind fun right m₁ h₁ => ?_
  have := size_of_pop h₁
  refine (lifts_pop (by omega)).bind fun left m₂ _ => ?_
  exact (lifts_ofExcept _).bind fun _ _ _ => lifts_push _

theorem lifts_popEqual (h : 2 ≤ m.stack.size) : Lifts g popEqual m := by
  refine (lifts_pop (by omega)).bind fun right m₁ h₁ => ?_
  have := size_of_pop h₁
  exact (lifts_pop (by omega)).bind fun left m₂ _ => rfl

/-- A count that even the ground cannot satisfy is refused in both cases. -/
theorem lifts_makeArray (count : Nat)
    (h : count ≤ g.values.size + m.stack.size → count ≤ m.stack.size) :
    Lifts g (makeArray count) m :=
  (lifts_popMany h).bind fun _ _ _ => lifts_charge.bind fun _ _ _ =>
    (lifts_onHeap _).bind fun _ _ _ => lifts_push _

theorem lifts_makeMap (pairs : Nat)
    (h : pairs * 2 ≤ g.values.size + m.stack.size → pairs * 2 ≤ m.stack.size) :
    Lifts g (makeMap pairs) m :=
  (lifts_popMany h).bind fun _ _ _ => (lifts_ofExcept _).bind fun _ _ _ =>
    lifts_charge.bind fun _ _ _ => (lifts_onHeap _).bind fun _ _ _ => lifts_push _

theorem lifts_makeError (h : 1 ≤ m.stack.size) : Lifts g makeError m :=
  (lifts_pop h).bind fun _ _ _ => lifts_charge.bind fun _ _ _ => lifts_push _

theorem lifts_readIndex (h : 2 ≤ m.stack.size) : Lifts g readIndex m := by
  refine (lifts_pop (by omega)).bind fun key m₁ h₁ => ?_
  have := size_of_pop h₁
  refine (lifts_pop (by omega)).bind fun receiver m₂ _ => ?_
  refine over_state.bind fun _ _ _ => ?_
  exact (lifts_ofExcept _).bind fun _ _ _ => lifts_push _

theorem lifts_readSlice (h : 3 ≤ m.stack.size) : Lifts g readSlice m := by
  refine (lifts_pop (by omega)).bind fun high m₁ h₁ => ?_
  have := size_of_pop h₁
  refine (lifts_pop (by omega)).bind fun low m₂ h₂ => ?_
  have := size_of_pop h₂
  refine (lifts_pop (by omega)).bind fun receiver m₃ _ => ?_
  exact (lifts_onHeap _).bind fun _ _ _ => lifts_charge.bind fun _ _ _ => lifts_push _

theorem lifts_writeIndex (h : 3 ≤ m.stack.size) : Lifts g writeIndex m := by
  refine (lifts_pop (by omega)).bind fun v m₁ h₁ => ?_
  have := size_of_pop h₁
  refine (lifts_pop (by omega)).bind fun key m₂ h₂ => ?_
  have := size_of_pop h₂
  exact (lifts_pop (by omega)).bind fun receiver m₃ _ => lifts_onHeap _

/-! ## Jumps

A conditional jump looks at one value, which must be the machine's own.
-/

theorem lifts_jumpFalsy (hm : m₀.Executing f rest m) (target : Nat) (h : 1 ≤ m.stack.size) :
    Lifts g (jumpFalsy target) m := by
  refine (lifts_pop h).bind fun v m₁ h₁ => ?_
  have e₁ := (stays_pop m₀ f rest).ok hm h₁
  refine (lifts_isFalsy v).bind fun b m₂ h₂ => ?_
  have e₂ := (stays_isFalsy v m₀ f rest).ok e₁ h₂
  cases b with
  | true => exact lifts_jump e₂ target
  | false => exact lifts_pure ()

theorem lifts_andJump (hm : m₀.Executing f rest m) (target : Nat) (h : 1 ≤ m.stack.size) :
    Lifts g (andJump target) m := by
  refine (lifts_top h).bind fun v m₁ h₁ => ?_
  have e₁ := (stays_top m₀ f rest).ok hm h₁
  have s₁ := size_of_top h₁
  refine (lifts_isFalsy v).bind fun b m₂ h₂ => ?_
  cases h₂
  cases m₁.heap.isFalsy v with
  | true => exact lifts_jump e₁ target
  | false => exact lifts_discard (lifts_pop (by omega))

theorem lifts_orJump (hm : m₀.Executing f rest m) (target : Nat) (h : 1 ≤ m.stack.size) :
    Lifts g (orJump target) m := by
  refine (lifts_top h).bind fun v m₁ h₁ => ?_
  have e₁ := (stays_top m₀ f rest).ok hm h₁
  have s₁ := size_of_top h₁
  refine (lifts_isFalsy v).bind fun b m₂ h₂ => ?_
  cases h₂
  cases m₁.heap.isFalsy v with
  | true => exact lifts_discard (lifts_pop (by omega))
  | false => exact lifts_jump e₁ target

/-! ## Calls and returns

A call counts from the top of the stack to find the callee, and stores the place where it stands as
a number from the bottom. On the ground this number is greater, and the base of the new activation
with it.
-/

/-- The arguments are on the stack already, and the callee stands so much higher. -/
theorem over_enterFunction (function : Function) (callee argc : Nat) (h : argc ≤ m.stack.size) :
    Over g id (enterFunction function callee argc)
      (enterFunction function (g.values.size + callee) argc) m := by
  have hlast (m : Machine) : Over g id (do
      pushUndefined (function.numLocals - ((← stackSize) - (callee + 1)))
      pushFrame (.start function (callee + 1))) (do
      pushUndefined (function.numLocals - ((← stackSize) - (g.values.size + callee + 1)))
      pushFrame (.start function (g.values.size + callee + 1))) m := by
    refine over_stackSize.bind fun size m' _ => ?_
    rw [show g.values.size + size - (g.values.size + callee + 1) = size - (callee + 1) by omega]
    exact (lifts_pushUndefined _).bind fun _ _ _ => over_pushFrame _
  refine (lifts_ofExcept _).bind fun _ m' h' => ?_
  have hm' : m' = m := by
    rw [ofExcept_eq] at h'
    cases hc : function.checkArity argc <;> simp_all
  subst hm'
  split
  · refine (lifts_popMany fun _ => by omega).bind fun _ _ _ => ?_
    exact (lifts_onHeap _).bind fun _ _ _ => (lifts_push _).bind fun _ _ _ => hlast _
  · exact hlast _

/-- A builtin sees the arguments and the heap, and neither tells how high the stack is. -/
theorem over_callBuiltin (host : Host) (b : Builtin) (callee : Nat) :
    Over g id (callBuiltin host b callee) (callBuiltin host b (g.values.size + callee)) m := by
  have hlast (result : Value) (m : Machine) : Over g id
      (do onStack (Stack.truncate callee); push result)
      (do onStack (Stack.truncate (g.values.size + callee)); push result) m :=
    (over_truncate callee).bind fun _ _ _ => lifts_push _
  refine (over_sliceFrom (callee + 1)).bind fun args _ _ => ?_
  refine (lifts_onHeap _).bind fun result _ _ => ?_
  simp only [id]
  split
  · exact hlast _ _
  · exact lifts_charge.bind fun _ _ _ => hlast _ _

/-- Spreading changes how many arguments there are, not what is beneath them. -/
theorem size_of_spreadLast {argc argc' : Nat} {m' : Machine}
    (h : spreadLast argc m = .ok argc' m') : m'.stack.size + argc = m.stack.size + argc' := by
  unfold spreadLast at h
  by_cases h0 : argc = 0
  · rw [if_pos h0] at h
    cases h
    omega
  · rw [if_neg h0] at h
    obtain ⟨v, m₁, hp, h⟩ := bind_eq_ok.1 h
    have hs := size_of_pop hp
    split at h
    · obtain ⟨_, _, ⟨⟩, h⟩ := bind_eq_ok.1 h
      obtain ⟨_, m₂, hall, h⟩ := bind_eq_ok.1 h
      have hs' := size_of_pushAll hall
      cases h
      rw [Array.length_toList] at hs'
      omega
    · cases h

/-- Only an argument that is there can be spread. -/
theorem lifts_spreadLast (argc : Nat) (h : argc ≠ 0 → 0 < m.stack.size) :
    Lifts g (spreadLast argc) m := by
  unfold spreadLast
  split
  · exact lifts_pure 0
  · rename_i h0
    refine (lifts_pop (h h0)).bind fun v m₁ _ => ?_
    simp only [id]
    split
    · exact over_state.bind fun _ _ _ => (lifts_pushAll _).bind fun _ _ _ => lifts_pure _
    · exact lifts_throw _

/-- A call finds the callee and the arguments among the machine's own values, or not even on the
ground. In the latter case it may still have taken the argument to spread. -/
theorem lifts_call (host : Host) (argc : Nat) (spread : Bool)
    (h : argc + 1 ≤ g.values.size + m.stack.size → argc + 1 ≤ m.stack.size)
    (hspread : spread = true → argc ≠ 0 → 0 < m.stack.size) :
    Lifts g (call host argc spread) m := by
  have hcall (m : Machine) (argc : Nat)
      (h : argc + 1 ≤ g.values.size + m.stack.size → argc + 1 ≤ m.stack.size) :
      Lifts g (call host argc false) m := by
    rw [call_eq_bind]
    refine over_stackSize.bind fun size m' h' => ?_
    cases h'
    by_cases hn : m.stack.size < argc + 1
    · rw [if_pos hn, if_pos (by omega)]
      exact lifts_throw _
    · rw [if_neg hn, if_neg (by omega),
        show g.values.size + m.stack.size - (argc + 1) =
          g.values.size + (m.stack.size - (argc + 1)) by omega]
      refine (over_get _).bind fun v m' h' => ?_
      have hsize := size_of_get h'
      simp only [id]
      split
      · exact over_enterFunction _ _ _ (by omega)
      · exact over_callBuiltin _ _ _
      · exact lifts_throw _
  cases spread with
  | true =>
    refine (lifts_spreadLast argc (hspread rfl)).bind fun argc' m' h' => ?_
    have := size_of_spreadLast h'
    exact hcall _ _ (by omega)
  | false => exact hcall m argc h

theorem lifts_returnValue (taken : Bool) (h : taken = true → 0 < m.stack.size) :
    Lifts g (returnValue taken) m := by
  cases taken with
  | true => exact lifts_pop (h rfl)
  | false => exact lifts_pure _

/-- Taking the value that is returned leaves the activations to the return itself. -/
theorem frames_of_returnValue {taken : Bool} {v : Value} {m' : Machine}
    (h : returnValue taken m = .ok v m') : m'.frames = m.frames := by
  cases taken with
  | true => exact frames_of_pop h
  | false =>
    cases h
    rfl

/-- A return from an activation that is not the last one is the same on the ground. -/
theorem lifts_leave (hm : m.frames = f :: rest) (hrest : rest ≠ []) (hbase : f.base ≠ 0)
    (result : Value) : Lifts g (leave result) m := by
  have h₁ : rest.isEmpty = false := by simpa using hrest
  have h₂ : (rest.map (Frame.raise g.values.size) ++ g.frames).isEmpty = false := by
    simpa using fun h => absurd h hrest
  have h₃ : (f.raise g.values.size).base ≠ 0 := by
    show g.values.size + f.base ≠ 0
    omega
  have h₄ : (f.raise g.values.size).base - 1 = g.values.size + (f.base - 1) := by
    show g.values.size + f.base - 1 = _
    omega
  have hlast : Over g id
      (do onStack (Stack.truncate (f.base - 1)); push result; return (none : Option Value))
      (do onStack (Stack.truncate (g.values.size + (f.base - 1))); push result; return none)
      { m with frames := rest } :=
    (over_truncate _).bind fun _ _ _ => (lifts_push result).bind fun _ _ _ => lifts_pure none
  unfold Lifts Over
  rw [leave_eq hm, leave_eq (Machine.frames_on hm)]
  simp only [h₁, h₂, h₃, h₄, hbase, Bool.false_eq_true, if_false]
  exact hlast

/-- The result is what the executing activation has above its slots, so the ground does not
count. -/
theorem lifts_haltResult (hm : m₀.Executing f rest m) : Lifts g haltResult m := by
  refine (over_frame hm).bind fun f' m' _ => ?_
  refine over_stackSize.bind fun size m'' h => ?_
  cases h
  show Over g id (if f'.base + f'.function.numLocals < m'.stack.size then _ else _)
    (if g.values.size + f'.base + f'.function.numLocals < g.values.size + m'.stack.size then _
      else _) m'
  by_cases hlt : f'.base + f'.function.numLocals < m'.stack.size
  · rw [if_pos hlt, if_pos (by omega)]
    exact lifts_top (by omega)
  · rw [if_neg hlt, if_neg (by omega)]
    exact lifts_pure _

/-! ## All instructions -/

theorem Over.goOn {x y : Exec Unit} (h : Over g id x y m) : Over g id (goOn x) (goOn y) m :=
  h.bind fun _ _ _ => lifts_pure none

/-- An instruction that takes nothing of the ground does there what it does without it, unless it is
a return from the machine's last activation. -/
theorem lifts_execute (host : Host) (i : Instruction) (hm : m.frames = f :: rest)
    (htakes : i.takes (g.values.size + m.stack.size) ≤ m.stack.size)
    (hret : i.op = .ret → rest ≠ [] ∧ f.base ≠ 0) :
    Lifts g (execute host i) m := by
  have he : m.Executing f rest m := .self hm
  have hdemand := Instruction.demand_le_of_takes_le htakes
  obtain ⟨op, operands⟩ := i
  cases op with
  | constant => exact ((lifts_constant _).bind fun _ _ _ => lifts_push _).goOn
  | null | true | false => exact (lifts_push _).goOn
  | pop => exact (lifts_discard (lifts_pop htakes)).goOn
  | equal | notEqual => exact ((lifts_popEqual htakes).bind fun _ _ _ => lifts_push _).goOn
  | lnot =>
    exact ((lifts_pop htakes).bind fun _ _ _ => (lifts_isFalsy _).bind fun _ _ _ =>
      lifts_push _).goOn
  | add | sub | mul | div | rem | bitAnd | bitOr | bitXor | bitAndNot | shl | shr =>
    exact (lifts_applyBinary _ htakes).goOn
  | less | lessEq | greater | greaterEq => exact (lifts_applyOrder _ htakes).goOn
  | minus | bComplement => exact (lifts_applyUnary _ htakes).goOn
  | array => exact (lifts_makeArray _ hdemand).goOn
  | map => exact (lifts_makeMap _ hdemand).goOn
  | error => exact (lifts_makeError htakes).goOn
  | index => exact (lifts_readIndex htakes).goOn
  | sliceIndex => exact (lifts_readSlice htakes).goOn
  | setIndex => exact (lifts_writeIndex htakes).goOn
  | jump => exact (lifts_jump he _).goOn
  | jumpFalsy => exact (lifts_jumpFalsy he _ htakes).goOn
  | andJump => exact (lifts_andJump he _ htakes).goOn
  | orJump => exact (lifts_orJump he _ htakes).goOn
  | call =>
    refine (lifts_call _ _ _ hdemand fun hspread h0 => ?_).goOn
    have hone : 1 ≤ Instruction.takes ⟨.call, operands⟩ (g.values.size + m.stack.size) := by
      simp only [Instruction.takes, Instruction.demand, hspread, Bool.true_and]
      split
      · omega
      · simp [h0]
    omega
  | getGlobal => exact ((lifts_global _).bind fun _ _ _ => lifts_push _).goOn
  | setGlobal => exact ((lifts_pop htakes).bind fun _ _ _ => lifts_setGlobal _ _).goOn
  | getLocal => exact ((lifts_getLocal he _).bind fun _ _ _ => lifts_push _).goOn
  | setLocal =>
    exact ((lifts_pop htakes).bind fun _ _ h =>
      lifts_setLocal ((stays_pop m f rest).ok he h) _ _).goOn
  | defineLocal =>
    exact ((lifts_pop htakes).bind fun _ _ h =>
      lifts_defineLocal ((stays_pop m f rest).ok he h) _ _).goOn
  | getFree => exact ((lifts_getFree he _).bind fun _ _ _ => lifts_push _).goOn
  | setFree =>
    exact ((lifts_pop htakes).bind fun _ _ h =>
      lifts_setFree ((stays_pop m f rest).ok he h) _ _).goOn
  | getBuiltin => exact ((lifts_coreBuiltin _).bind fun _ _ _ => lifts_push _).goOn
  | closure => exact ((lifts_makeClosure he _).bind fun _ _ _ => lifts_push _).goOn
  | ret =>
    obtain ⟨hne, hbase⟩ := hret rfl
    have htaken (h : (Instruction.first ⟨.ret, operands⟩ != 0) = true) : 0 < m.stack.size := by
      have htaken : (if Instruction.first ⟨.ret, operands⟩ != 0 then 1 else 0) ≤ m.stack.size :=
        htakes
      rwa [if_pos h] at htaken
    refine (lifts_returnValue _ htaken).bind fun v m' h => ?_
    exact lifts_leave ((frames_of_returnValue h).trans hm) hne hbase v
  | halt => exact (lifts_haltResult he).bind fun _ _ _ => lifts_pure _

end Exec
end ScriptVM
