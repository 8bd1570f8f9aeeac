import ScriptVM.Proofs.Effects
import ScriptVM.Proofs.Fetch

/-!
# What an instruction does to the activations

Most instructions work within the executing activation: they may give its locals cells, but its
function, its offset, its base and the activations beneath stay. A jump goes on at another offset, a
call puts a new activation on top and a return takes the executing one off. `moves_execute` is the
whole list, whether the instruction succeeds or ends in a fault.
-/

namespace ScriptVM

/-! ## What a run keeps -/

/-- What no instruction changes: the constants, the limits and the number of globals. Stack and
activations stay within the limits. -/
structure Machine.Kept (m m' : Machine) : Prop where
  constants : m'.constants = m.constants
  capacity : m'.stack.capacity = m.stack.capacity
  maxFrames : m'.maxFrames = m.maxFrames
  globals : m'.globals.size = m.globals.size
  stack : m.stack.size ≤ m.stack.capacity → m'.stack.size ≤ m'.stack.capacity
  frames : m.frames.length ≤ m.maxFrames → m'.frames.length ≤ m'.maxFrames

namespace Machine.Kept

variable {m m' m'' : Machine}

theorem refl (m : Machine) : m.Kept m := ⟨rfl, rfl, rfl, rfl, id, id⟩

theorem trans (h : m.Kept m') (h' : m'.Kept m'') : m.Kept m'' :=
  ⟨h'.constants.trans h.constants, h'.capacity.trans h.capacity, h'.maxFrames.trans h.maxFrames,
    h'.globals.trans h.globals, h'.stack ∘ h.stack, h'.frames ∘ h.frames⟩

end Machine.Kept

/-- An operation of the stack keeps its capacity, and stays within it. -/
def Stack.Bounded {α : Type} (x : StackM α) : Prop :=
  ∀ s, match x s with
    | .ok _ s' => s'.capacity = s.capacity ∧ (s.size ≤ s.capacity → s'.size ≤ s'.capacity)
    | .error _ s' => s' = s

namespace Stack

theorem bounded_push (v : Value) : Bounded (push v) := by
  intro s
  unfold push
  by_cases h : s.values.size < s.capacity <;> simp only [h, if_true, if_false]
  refine ⟨trivial, fun _ => ?_⟩
  simp only [size, Array.size_push]
  omega

theorem bounded_pop : Bounded pop := by
  intro s
  unfold pop
  cases s.values.back? with
  | none => rfl
  | some v =>
    refine ⟨rfl, fun h => ?_⟩
    simp only [size, Array.size_pop] at *
    omega

theorem bounded_peek (n : Nat) : Bounded (peek n) := by
  intro s
  unfold peek
  by_cases h : n < s.values.size <;> simp only [h, if_true, if_false]
  cases s.values[s.values.size - 1 - n]? with
  | none => rfl
  | some v => exact ⟨rfl, id⟩

theorem bounded_popMany (n : Nat) : Bounded (popMany n) := by
  intro s
  unfold popMany
  by_cases h : n ≤ s.values.size <;> simp only [h, if_true, if_false]
  refine ⟨trivial, fun h => ?_⟩
  simp only [size, Array.size_shrink] at *
  omega

theorem bounded_get (i : Nat) : Bounded (get i) := by
  intro s
  unfold get
  cases s.values[i]? with
  | none => rfl
  | some v => exact ⟨rfl, id⟩

theorem bounded_set (i : Nat) (v : Value) : Bounded (set i v) := by
  intro s
  unfold set
  by_cases h : i < s.values.size <;> simp only [h, if_true, if_false]
  refine ⟨trivial, fun h => ?_⟩
  simpa only [size, Array.size_setIfInBounds] using h

theorem bounded_truncate (n : Nat) : Bounded (truncate n) := by
  refine fun s => ⟨rfl, fun h => ?_⟩
  simp only [size, Array.size_shrink] at *
  omega

theorem bounded_sliceFrom (n : Nat) : Bounded (sliceFrom n) := by
  intro s
  unfold sliceFrom
  by_cases h : n ≤ s.values.size <;> simp only [h, if_true, if_false]
  exact ⟨trivial, id⟩

theorem Uses.bounded {α : Type} {E : List Effect} {x : StackM α} (h : Uses E x) : Bounded x := by
  cases h with
  | push v => exact bounded_push v
  | pop => exact bounded_pop
  | popMany n => exact bounded_popMany n
  | truncate n => exact bounded_truncate n
  | set i v => exact bounded_set i v
  | get i => exact bounded_get i
  | peek n => exact bounded_peek n
  | sliceFrom n => exact bounded_sliceFrom n

end Stack

/-! ## Staying in an activation

An instruction that stays may still give locals cells, which changes the activation itself. So it is
said what the activation was when the instruction began, and what of it cannot have changed.
-/

/-- The executing activation is `f`, or what has become of it, on top of `rest`, and the machine is
what a run makes of `m₀`. -/
structure Machine.Executing (m₀ : Machine) (f : Frame) (rest : List Frame) (m : Machine) :
    Prop where
  kept : m₀.Kept m
  top : ∃ f', f'.function = f.function ∧ f'.base = f.base ∧ f'.ip = f.ip ∧ m.frames = f' :: rest

namespace Machine.Executing

variable {m₀ m m' : Machine} {f : Frame} {rest : List Frame}

theorem self (h : m.frames = f :: rest) : m.Executing f rest m := ⟨.refl m, f, rfl, rfl, rfl, h⟩

/-- A change elsewhere in the machine leaves the executing activation in place. -/
theorem of_frames (h : m₀.Executing f rest m) (hk : m.Kept m') (heq : m'.frames = m.frames) :
    m₀.Executing f rest m' := by
  obtain ⟨f', hf, hb, hip, hm⟩ := h.top
  exact ⟨h.kept.trans hk, f', hf, hb, hip, heq.trans hm⟩

/-- Only the heap has changed. -/
theorem heap (h : m₀.Executing f rest m) (heap : Heap) :
    m₀.Executing f rest { m with heap := heap } :=
  h.of_frames ⟨rfl, rfl, rfl, rfl, id, id⟩ rfl

end Machine.Executing

namespace Exec

variable {α β : Type} {m₀ m : Machine} {f : Frame} {rest : List Frame}

/-- Whatever comes of the computation, the executing activation goes on. -/
def Stays (x : Exec α) : Prop :=
  ∀ m₀ f rest, Ensures (Machine.Executing m₀ f rest) x (fun _ => Machine.Executing m₀ f rest)
    (fun _ => Machine.Executing m₀ f rest)

/-! ## Sequencing

The activation goes on over a sequence if it does over both parts.
-/

theorem Stays.bind {x : Exec α} {k : α → Exec β} (hx : Stays x) (hk : ∀ a, Stays (k a)) :
    Stays (x >>= k) := fun m₀ f rest =>
  (hx m₀ f rest).bind fun a => hk a m₀ f rest

theorem stays_pure (a : α) : Stays (pure a) := fun _ _ _ _ h => h

theorem stays_throw (e : Fault) : Stays (throw e : Exec α) := fun _ _ _ _ h => h

theorem Stays.discard {x : Exec α} (h : Stays x) : Stays (discard x) := by
  rw [discard_eq]
  exact h.bind fun _ => stays_pure ()

/-! ## Parts of the machine -/

/-- The stack changes within its bounds, and no activation with it. -/
theorem stays_onStack {x : StackM α} (hx : Stack.Bounded x) : Stays (onStack x) := by
  intro m₀ f rest m h
  rw [onStack_eq]
  have := hx m.stack
  cases hs : x m.stack with
  | ok a s =>
    rw [hs] at this
    exact h.of_frames ⟨rfl, this.1, rfl, rfl, this.2, id⟩ rfl
  | error e s =>
    rw [hs] at this
    subst this
    exact h

theorem stays_onHeap (x : HeapM α) : Stays (onHeap x) := by
  intro m₀ f rest m h
  rw [onHeap_eq]
  cases x m.heap <;> exact h.heap _

theorem stays_ofExcept (x : Except Fault α) : Stays (ofExcept x) := by
  intro m₀ f rest m h
  rw [ofExcept_eq]
  cases x <;> exact h

theorem stays_get : Stays get := fun _ _ _ _ h => h

theorem stays_pop : Stays pop := stays_onStack Stack.bounded_pop

theorem stays_top : Stays top := stays_onStack (Stack.bounded_peek 0)

theorem stays_isFalsy (v : Value) : Stays (isFalsy v) := fun _ _ _ _ h => h

theorem stays_constant (index : Nat) : Stays (constant index) := by
  intro m₀ f rest m h
  rw [constant_eq]
  cases m.constants[index]? <;> exact h

theorem stays_global (index : Nat) : Stays (global index) := by
  intro m₀ f rest m h
  rw [global_eq]
  cases m.globals[index]? <;> exact h

theorem stays_setGlobal (index : Nat) (v : Value) : Stays (setGlobal index v) := by
  intro m₀ f rest m h
  rw [setGlobal_eq]
  by_cases hi : index < m.globals.size <;> simp only [hi, if_true, if_false]
  · refine h.of_frames ⟨rfl, rfl, rfl, ?_, id, id⟩ rfl
    exact Array.size_setIfInBounds ..
  · exact h

theorem stays_charge : Stays charge := by
  intro m₀ f rest m h
  rw [charge_eq]
  rcases m.budget with _ | _ | n
  · exact h
  · exact h
  · exact h.of_frames ⟨rfl, rfl, rfl, rfl, id, id⟩ rfl

/-! ## The executing activation

Some computations first ask for the activation and then put another one in its place. In between it
must be known that this is the one that is executing.
-/

/-- The executing activation is `f'`, which `f` has become. -/
structure Became (m₀ : Machine) (f f' : Frame) (rest : List Frame) (m : Machine) : Prop where
  kept : m₀.Kept m
  function : f'.function = f.function
  base : f'.base = f.base
  ip : f'.ip = f.ip
  frames : m.frames = f' :: rest

/-- An activation that has become another one is still executing. -/
theorem Became.executing {f' : Frame} (h : Became m₀ f f' rest m) : m₀.Executing f rest m :=
  ⟨h.kept, f', h.function, h.base, h.ip, h.frames⟩

theorem ensures_frame {E : Fault → Machine → Prop} :
    Ensures (Machine.Executing m₀ f rest) frame (Became m₀ f · rest) E := by
  rintro m ⟨hk, f', hf, hb, hip, hm⟩
  rw [frame_eq hm]
  exact ⟨hk, hf, hb, hip, hm⟩

/-- What is done with the executing activation stays in it. -/
theorem Stays.of_frame {k : Frame → Exec α}
    (hk : ∀ m₀ f f' rest, Ensures (Became m₀ f f' rest) (k f')
      (fun _ => Machine.Executing m₀ f rest) (fun _ => Machine.Executing m₀ f rest)) :
    Stays (frame >>= k) :=
  fun m₀ f rest => ensures_frame.bind fun f' => hk m₀ f f' rest

/-- The executing activation may be replaced by one of the same function, base and offset. -/
theorem ensures_setFrame (f' g : Frame) {E : Fault → Machine → Prop}
    (hf : g.function = f'.function) (hb : g.base = f'.base) (hip : g.ip = f'.ip) :
    Ensures (Became m₀ f f' rest) (setFrame g) (fun _ => Became m₀ f g rest) E := by
  rintro m ⟨hk, hf', hb', hip', hm⟩
  rw [setFrame_eq, hm]
  refine ⟨hk.trans ⟨rfl, rfl, rfl, rfl, id, ?_⟩, hf.trans hf', hb.trans hb', hip.trans hip', rfl⟩
  simp only [hm, List.tail_cons, List.length_cons, imp_self]

/-- A computation that stays may come before the rest, wherever the activation has got to. -/
theorem Stays.after {f' : Frame} {x : Exec α} (h : Stays x) :
    Ensures (Became m₀ f f' rest) x (fun _ => Machine.Executing m₀ f rest)
      (fun _ => Machine.Executing m₀ f rest) :=
  (h m₀ f rest).pre fun _ => Became.executing

theorem stays_frame : Stays frame := fun _ _ _ => ensures_frame.post fun _ _ => Became.executing

/-! ## Locals with and without cells -/

/-- Binding a local afresh takes a cell from the table, and nothing else of the activation. -/
theorem stays_defineLocal (slot : Nat) (v : Value) : Stays (defineLocal slot v) :=
  .of_frame fun _ _ f' _ =>
    (ensures_setFrame f' (f'.unbind slot) rfl rfl rfl).bind fun _ =>
      (stays_onStack (Stack.bounded_set _ v)).after

/-- A frame with one more cell is still of the same function, base and offset. -/
theorem same_of_promote {f' : Frame} {slot : Nat} {v : Value} {h h' : Heap} {cell : CellRef}
    {created : Bool} (hp : f.promote slot v h = .ok (cell, created, f') h') :
    f'.function = f.function ∧ f'.base = f.base ∧ f'.ip = f.ip := by
  unfold Frame.promote at hp
  cases hc : f.cell? slot with
  | some c =>
    simp only [hc, pure, EStateM.pure, EStateM.Result.ok.injEq, Prod.mk.injEq] at hp
    rw [← hp.1.2.2]
    exact ⟨rfl, rfl, rfl⟩
  | none =>
    simp only [hc, bind, EStateM.bind, HeapM.newCell, modifyGet_eq, pure, EStateM.pure,
      EStateM.Result.ok.injEq, Prod.mk.injEq] at hp
    rw [← hp.1.2.2]
    exact ⟨rfl, rfl, rfl⟩

/-- The local gets a cell, if it has none, in the executing activation. -/
theorem stays_captureLocal (slot : Nat) : Stays (captureLocal slot) := by
  refine .of_frame fun m₀ f f' rest => ?_
  refine Ensures.bind (Q := fun _ => Became m₀ f f' rest) ?_ fun current => ?_
  · intro m hm
    rw [onStack_eq, Stack.get]
    cases m.stack.values[f'.base + slot]? with
    | none => exact hm.executing
    | some v => exact hm
  refine Ensures.bind (Q := fun p m => (p.2.2.function = f'.function ∧ p.2.2.base = f'.base ∧
    p.2.2.ip = f'.ip) ∧ Became m₀ f f' rest m) ?_ fun p => ?_
  · intro m hm
    rw [onHeap_eq]
    cases hp : f'.promote slot current m.heap with
    | ok p h =>
      have hk := hm.executing.heap h
      exact ⟨same_of_promote hp, hk.kept, hm.function, hm.base, hm.ip, hm.frames⟩
    | error e h => exact hm.executing.heap h
  obtain ⟨cell, created, g⟩ := p
  rintro m ⟨⟨hf, hb, hip⟩, hm⟩
  refine ((ensures_setFrame f' g hf hb hip).bind fun _ => Stays.after ?_) m hm
  cases created with
  | true => exact stays_charge.bind fun _ => stays_pure _
  | false => exact stays_pure _

/-! ## Whatever stays

The remaining computations are covered by their effects.
-/

/-- None of the effects reaches beyond the executing activation. -/
theorem Uses.stays {E : List Effect} {x : Exec α} (h : Uses E x) : Stays x := by
  induction h with
  | pure a => exact stays_pure a
  | bind _ _ hx hk => exact hx.bind hk
  | throw _ => exact stays_throw _
  | withHeap _ ih => exact stays_get.bind fun m => ih m.heap
  | stackSize => exact stays_get.bind fun _ => stays_pure _
  | frame => exact stays_frame
  | constant index => exact stays_constant index
  | global index => exact stays_global index
  | ofExcept _ => exact stays_ofExcept _
  | onStack h => exact stays_onStack h.bounded
  | onHeap _ => exact stays_onHeap _
  | setGlobal index v => exact stays_setGlobal index v
  | charge => exact stays_charge
  | defineLocal slot v => exact stays_defineLocal slot v
  | captureLocal slot => exact stays_captureLocal slot

theorem stays_pushAll (vs : List Value) : Stays (pushAll vs) :=
  (uses_pushAll (E := [.put]) vs (by decide)).stays

theorem stays_capture (c : Capture) : Stays (capture c) :=
  (uses_capture (E := Opcode.closure.effects) c (by decide) (by decide) (by decide)).stays

theorem stays_spreadLast (argc : Nat) : Stays (spreadLast argc) :=
  (uses_spreadLast (E := Opcode.call.effects) argc (by decide) (by decide)).stays

theorem stays_returnValue (taken : Bool) : Stays (returnValue taken) :=
  (uses_returnValue (E := Opcode.ret.effects) taken (by decide)).stays

theorem stays_callBuiltin (host : Host) (b : Builtin) (callee : Nat) :
    Stays (callBuiltin host b callee) :=
  (stays_onStack (Stack.bounded_sliceFrom _)).bind fun _ => (stays_onHeap _).bind fun result =>
    (uses_replaceCallee callee result).stays

/-! ## All that an instruction can do

The cases are few: the activation goes on, it goes on elsewhere, another one is entered, or this one
is left. A fault leaves the machine in one of these states as well.
-/

/-- What an instruction executed by `f` on top of `rest` can make of `m₀`. -/
inductive Moved (i : Instruction) (m₀ : Machine) (f : Frame) (rest : List Frame) (m : Machine) :
    Prop where
  /-- The activation goes on. -/
  | stays (h : m₀.Executing f rest m)
  /-- It goes on where a jump has led. -/
  | jumps (hj : i.op.isJump = true) (h : m₀.Executing { f with ip := i.first } rest m)
  /-- Another one is entered, with its base just above the callee. -/
  | enters (hc : i.op = .call) (function : Function) (callee : Nat) (f' : Frame) (kept : m₀.Kept m)
      (hf : f'.function = f.function) (hb : f'.base = f.base) (hip : f'.ip = f.ip)
      (h : m.frames = .start function (callee + 1) :: f' :: rest)
  /-- The activation is over. -/
  | leaves (hl : i.op = .ret) (kept : m₀.Kept m) (h : m.frames = rest)

/-- In each of these cases the limits, the constants and the number of globals are as they were. -/
theorem Moved.kept {i : Instruction} (h : Moved i m₀ f rest m) : m₀.Kept m := by
  cases h with
  | stays he => exact he.kept
  | jumps _ he => exact he.kept
  | enters _ _ _ _ hk => exact hk
  | leaves _ hk => exact hk

/-- The activations that there are then. -/
theorem Moved.frames {i : Instruction} (h : Moved i m₀ f rest m) :
    (∃ f', f'.function = f.function ∧ f'.base = f.base ∧
      (m.frames = f' :: rest ∨
        ∃ function callee, m.frames = .start function (callee + 1) :: f' :: rest)) ∨
    i.op = .ret ∧ m.frames = rest := by
  cases h with
  | stays he =>
    obtain ⟨f', hf, hb, -, hf'⟩ := he.top
    exact .inl ⟨f', hf, hb, .inl hf'⟩
  | jumps _ he =>
    obtain ⟨f', hf, hb, -, hf'⟩ := he.top
    exact .inl ⟨f', hf, hb, .inl hf'⟩
  | enters _ function callee f' _ hf hb _ hf' =>
    exact .inl ⟨f', hf, hb, .inr ⟨function, callee, hf'⟩⟩
  | leaves hop _ hf' => exact .inr ⟨hop, hf'⟩

/-- Whatever comes of the computation, it is something that the instruction can do. -/
def Moves (i : Instruction) (x : Exec α) : Prop :=
  ∀ m₀ f rest, Ensures (Machine.Executing m₀ f rest) x (fun _ => Moved i m₀ f rest)
    (fun _ => Moved i m₀ f rest)

variable {i : Instruction}

/-- Going on is something that every instruction can do. -/
theorem Stays.moves {x : Exec α} (h : Stays x) : Moves i x := by
  intro m₀ f rest m hm
  have := h m₀ f rest m hm
  cases hx : x m with
  | ok a m' =>
    rw [hx] at this
    exact .stays this
  | error e m' =>
    rw [hx] at this
    exact .stays this

/-- The part that stays does not take away what the rest can do. -/
theorem Stays.first {x : Exec α} {k : α → Exec β} (h : Stays x) (hk : ∀ a, Moves i (k a)) :
    Moves i (x >>= k) := by
  intro m₀ f rest
  refine Ensures.bind (Q := fun _ => Machine.Executing m₀ f rest) ?_ fun a => hk a m₀ f rest
  intro m hm
  have := h m₀ f rest m hm
  cases hx : x m with
  | ok a m' =>
    rw [hx] at this
    exact this
  | error e m' =>
    rw [hx] at this
    exact .stays this

theorem Moves.goOn {x : Exec Unit} (h : Moves i x) : Moves i (goOn x) :=
  fun m₀ f rest => (h m₀ f rest).bind fun _ _ hm => hm

/-! ## Jumps -/

theorem moves_jump (hj : i.op.isJump = true) : Moves i (jump i.first) := by
  rintro m₀ f rest m ⟨hk, f', hf, hb, hip, hm⟩
  rw [jump_eq hm]
  by_cases ht : i.first ≤ f'.function.code.size <;> simp only [ht, if_true, if_false]
  · refine .jumps hj ⟨hk.trans ⟨rfl, rfl, rfl, rfl, id, fun h => ?_⟩,
      { f' with ip := i.first }, hf, hb, rfl, rfl⟩
    rw [hm] at h
    exact h
  · exact .stays ⟨hk, f', hf, hb, hip, hm⟩

/-! ## Entering and leaving

The activation that is entered or left is the top one, and the stack is known to fit its limits
before and after.
-/

theorem moves_pushFrame (hc : i.op = .call) (function : Function) (callee : Nat) :
    Moves i (pushFrame (.start function (callee + 1))) := by
  rintro m₀ f rest m ⟨hk, f', hf, hb, hip, hm⟩
  rw [pushFrame_eq]
  by_cases hlt : m.frames.length < m.maxFrames <;> simp only [hlt, if_true, if_false]
  · refine .enters hc function callee f' (hk.trans ⟨rfl, rfl, rfl, rfl, id, fun _ => ?_⟩) hf hb
      hip ?_
    · exact hlt
    · rw [hm]
  · exact .stays ⟨hk, f', hf, hb, hip, hm⟩

/-- An activation taken off leaves the machine within its limits. -/
theorem kept_of_leave (hk : m₀.Kept m) {f' : Frame} (hm : m.frames = f' :: rest) :
    m₀.Kept { m with frames := rest } := by
  refine hk.trans ⟨rfl, rfl, rfl, rfl, id, fun h => ?_⟩
  rw [hm, List.length_cons] at h
  exact Nat.le_of_succ_le h

/-- Only a return takes an activation off. -/
theorem moves_leave (hl : i.op = .ret) (result : Value) : Moves i (leave result) := by
  rintro m₀ f rest m ⟨hk, f', -, -, -, hm⟩
  have hk' := kept_of_leave hk hm
  rw [leave_eq hm]
  by_cases hr : rest.isEmpty = true
  · simp only [hr, if_true]
    exact .leaves hl hk' rfl
  · by_cases hb : f'.base = 0 <;> simp only [hr, hb, Bool.false_eq_true, if_true, if_false]
    · exact .leaves hl hk' rfl
    have ht : m₀.Kept { m with
        frames := rest, stack := ⟨m.stack.values.shrink (f'.base - 1), m.stack.capacity⟩ } :=
      hk'.trans ⟨rfl, rfl, rfl, rfl, (Stack.bounded_truncate _ m.stack).2, id⟩
    rw [bind_eq, onStack_eq, Stack.truncate]
    dsimp only
    rw [bind_eq, push_eq]
    by_cases hlt : (m.stack.values.shrink (f'.base - 1)).size < m.stack.capacity <;>
      simp only [hlt, if_true, if_false]
    · refine .leaves hl (ht.trans ⟨rfl, rfl, rfl, rfl, fun _ => ?_, id⟩) rfl
      simp only [Stack.size, Array.size_push]
      exact hlt
    · exact .leaves hl ht rfl

/-! ## All instructions -/

theorem Performs.moves {host : Host} {x : Exec α} (h : Performs host i.op i.first x) :
    Moves i x := by
  induction h with
  | uses h => exact h.stays.moves
  | first hx _ ih => exact hx.stays.first ih
  | goOn _ ih => exact ih.goOn
  | jump hop => exact moves_jump hop
  | enter hop f callee => exact moves_pushFrame hop f callee
  | builtin _ b callee => exact (stays_callBuiltin host b callee).moves
  | leave hop result => exact moves_leave hop result

/-- An instruction stays in its activation, goes on elsewhere in it if it is a jump, enters another
one or, if it is a return, leaves its own. -/
theorem moves_execute (host : Host) (i : Instruction) : Moves i (execute host i) :=
  (performs_execute host i).moves

/-- The offset of the executing activation is no limit. -/
theorem kept_goTo (m : Machine) (ip : Nat) : m.Kept (m.goTo ip) := by
  cases hf : m.frames with
  | nil => rw [show m.goTo ip = m by simp [Machine.goTo, hf]]; exact .refl m
  | cons f rest =>
    rw [Machine.goTo_eq hf]
    refine ⟨rfl, rfl, rfl, rfl, id, fun hlt => ?_⟩
    rw [hf] at hlt
    exact hlt

/-- A step first goes past its instruction, and then does to the activations what the instruction
does. Where there is no instruction it only moves. -/
theorem moves_step (host : Host) (h : m.frames = f :: rest) :
    match step host m with
    | .ok _ m' => ∃ i next, f.function.fetch f.ip = .instruction i next ∧
      Moved i m { f with ip := next } rest m'
    | .error _ m' => (∃ ip, m.Executing { f with ip := ip } rest m') ∨
      ∃ i next, f.function.fetch f.ip = .instruction i next ∧
        Moved i m { f with ip := next } rest m' := by
  have hgo (ip : Nat) : m.Executing { f with ip := ip } rest (m.goTo ip) :=
    ⟨kept_goTo m ip, _, rfl, rfl, rfl, Machine.frames_goTo h ip⟩
  rw [step_eq host h]
  cases hfetch : f.function.fetch f.ip with
  | fault e ip => exact .inl ⟨ip, hgo ip⟩
  | instruction i next =>
    have hmoves := moves_execute host i m _ rest (m.goTo next) (hgo next)
    dsimp only
    cases hx : execute host i (m.goTo next) with
    | error e m' =>
      rw [hx] at hmoves
      exact .inr ⟨i, next, rfl, hmoves⟩
    | ok r m' =>
      rw [hx] at hmoves
      exact ⟨i, next, rfl, hmoves⟩

/-- A step that has succeeded has had an instruction to execute. -/
theorem moved_of_step {host : Host} {r : Option Value} {m' : Machine} (h : m.frames = f :: rest)
    (hs : step host m = .ok r m') :
    ∃ i next, f.function.fetch f.ip = .instruction i next ∧
      Moved i m { f with ip := next } rest m' := by
  have hmoves := moves_step host h
  rw [hs] at hmoves
  exact hmoves

/-- A step, however it ends, has kept what a run keeps. -/
theorem kept_step (host : Host) (m : Machine) :
    match step host m with
    | .ok _ m' => m.Kept m'
    | .error _ m' => m.Kept m' := by
  cases hf : m.frames with
  | nil =>
    rw [step_of_no_frame host hf]
    exact .refl m
  | cons f rest =>
    have h := moves_step host hf
    cases hx : step host m with
    | error e m' =>
      rw [hx] at h
      rcases h with ⟨ip, he⟩ | ⟨i, next, -, hmoved⟩
      · exact he.kept
      · exact hmoved.kept
    | ok r m' =>
      rw [hx] at h
      obtain ⟨i, next, -, hmoved⟩ := h
      exact hmoved.kept

end Exec
end ScriptVM
