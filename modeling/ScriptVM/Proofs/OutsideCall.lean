import ScriptVM.Builtin.Sample
import ScriptVM.Machine.Invocation
import ScriptVM.Proofs.CallMachine

/-!
# Calls from outside and calls inside a run

A compiled function that is called from outside gets a machine of its own, and one that is called in
a run works on top of its caller. Both are the same machine on different grounds, so both are
compared with the run of this machine by itself.
-/

namespace ScriptVM

variable {host : Host} {m : Machine}

/-! ## Entering

A call from outside puts the callee and the arguments on an empty stack and then enters the callee
as any call does. From there on, the machine of the call is the same in both cases.
-/

structure Machine.SameFrames (m m' : Machine) : Prop where
  frames : m'.frames = m.frames
  capacity : m'.stack.capacity = m.stack.capacity
  maxFrames : m'.maxFrames = m.maxFrames

/-- Unless it faults, the computation leaves the activations as they are. -/
def Exec.KeepsFrames {α : Type} (x : Exec α) : Prop :=
  ∀ m₀ : Machine, Ensures m₀.SameFrames x (fun _ => m₀.SameFrames) (fun _ _ => True)

theorem Exec.KeepsFrames.bind {α β : Type} {x : Exec α} {k : α → Exec β} (hx : KeepsFrames x)
    (hk : ∀ a, KeepsFrames (k a)) : KeepsFrames (x >>= k) := fun m₀ =>
  (hx m₀).bind fun a => hk a m₀

theorem Exec.keepsFrames_pure {α : Type} (a : α) : KeepsFrames (pure a) := fun _ _ hm => hm

theorem Exec.keepsFrames_throw {α : Type} (e : Fault) : KeepsFrames (throw e : Exec α) :=
  fun _ _ _ => trivial

/-- An operation of the stack keeps its capacity and has no activations to change. -/
theorem Exec.keepsFrames_onStack {α : Type} {x : StackM α} (hx : Stack.Bounded x) :
    KeepsFrames (onStack x) := by
  intro m₀ m hm
  have h := hx m.stack
  rw [onStack_eq]
  cases hs : x m.stack with
  | error e s => trivial
  | ok a s =>
    rw [hs] at h
    exact ⟨hm.frames, h.1.trans hm.capacity, hm.maxFrames⟩

theorem Exec.keepsFrames_onHeap {α : Type} (x : HeapM α) : KeepsFrames (onHeap x) := by
  intro m₀ m hm
  rw [onHeap_eq]
  cases x m.heap with
  | error e h => trivial
  | ok a h => exact ⟨hm.frames, hm.capacity, hm.maxFrames⟩

theorem Exec.keepsFrames_ofExcept {α : Type} (x : Except Fault α) : KeepsFrames (ofExcept x) := by
  cases x with
  | error e => exact keepsFrames_throw e
  | ok a => exact keepsFrames_pure a

theorem Exec.keepsFrames_constant (index : Nat) : KeepsFrames (constant index) := by
  intro m₀ m hm
  rw [constant_eq]
  cases m.constants[index]? with
  | none => trivial
  | some v => exact hm

theorem Exec.keepsFrames_global (index : Nat) : KeepsFrames (global index) := by
  intro m₀ m hm
  rw [global_eq]
  cases m.globals[index]? with
  | none => trivial
  | some v => exact hm

theorem Exec.keepsFrames_setGlobal (index : Nat) (v : Value) :
    KeepsFrames (setGlobal index v) := by
  intro m₀ m hm
  rw [setGlobal_eq]
  by_cases hlt : index < m.globals.size <;> simp only [hlt, if_true, if_false]
  exact ⟨hm.frames, hm.capacity, hm.maxFrames⟩

theorem Exec.keepsFrames_charge : KeepsFrames charge := by
  intro m₀ m hm
  rw [charge_eq]
  rcases m.budget with _ | _ | n
  · exact hm
  · trivial
  · exact ⟨hm.frames, hm.capacity, hm.maxFrames⟩

theorem Exec.keepsFrames_frame : KeepsFrames frame := by
  intro m₀ m hm
  cases hf : m.frames with
  | nil =>
    rw [frame_of_no_frame hf]
    trivial
  | cons f rest =>
    rw [frame_eq hf]
    exact hm

/-- Of all effects only one is on the activations, and it changes the executing one. -/
theorem Exec.Uses.keepsFrames {α : Type} {E : List Effect} {x : Exec α} (h : Uses E x)
    (hE : .rebind ∉ E) : KeepsFrames x := by
  induction h with
  | pure a => exact keepsFrames_pure a
  | bind _ _ hx hk => exact hx.bind hk
  | throw _ => exact keepsFrames_throw _
  | withHeap _ ih => exact fun m₀ m => ih m.heap m₀ m
  | stackSize => exact fun _ _ hm => hm
  | frame => exact keepsFrames_frame
  | constant index => exact keepsFrames_constant index
  | global index => exact keepsFrames_global index
  | ofExcept _ => exact keepsFrames_ofExcept _
  | onStack h => exact keepsFrames_onStack h.bounded
  | onHeap _ => exact keepsFrames_onHeap _
  | setGlobal index v => exact keepsFrames_setGlobal index v
  | charge => exact keepsFrames_charge
  | defineLocal _ _ h => exact absurd h hE
  | captureLocal _ h => exact absurd h hE

theorem Exec.keepsFrames_push (v : Value) : KeepsFrames (push v) :=
  keepsFrames_onStack (Stack.bounded_push v)

theorem Exec.keepsFrames_pushUndefined (n : Nat) : KeepsFrames (pushUndefined n) :=
  (uses_pushUndefined (E := [.put]) n (by decide)).keepsFrames (by decide)

theorem Exec.keepsFrames_pushAll (vs : List Value) : KeepsFrames (pushAll vs) :=
  (uses_pushAll (E := [.put]) vs (by decide)).keepsFrames (by decide)

/-- An activation has been started on top of those that there were, and there was room for it. -/
structure Machine.Entered (m : Machine) (f : Frame) (m' : Machine) : Prop where
  frames : m'.frames = f :: m.frames
  capacity : m'.stack.capacity = m.stack.capacity
  maxFrames : m'.maxFrames = m.maxFrames
  room : m.depth < m.maxFrames

/-- There is room for the activation if the push has succeeded. -/
theorem Exec.ensures_pushFrame (f : Frame) (m₀ : Machine) :
    Ensures m₀.SameFrames (pushFrame f) (fun _ => m₀.Entered f) (fun _ _ => True) := by
  intro m hm
  rw [pushFrame_eq, hm.frames, hm.maxFrames]
  by_cases hlt : m₀.frames.length < m₀.maxFrames <;> simp only [hlt, if_true, if_false]
  exact ⟨rfl, hm.capacity, rfl, hlt⟩

/-- A call starts an activation just above the callee. -/
theorem Exec.ensures_enterFunction (function : Function) (callee argc : Nat) (m₀ : Machine) :
    Ensures m₀.SameFrames (enterFunction function callee argc)
      (fun _ => m₀.Entered (.start function (callee + 1))) (fun _ _ => True) := by
  have hlast : Ensures m₀.SameFrames (do
      pushUndefined (function.numLocals - ((← stackSize) - (callee + 1)))
      pushFrame (.start function (callee + 1)))
      (fun _ => m₀.Entered (.start function (callee + 1))) (fun _ _ => True) := by
    have hsize : KeepsFrames stackSize := fun _ _ hm => hm
    exact (hsize m₀).bind fun size =>
      (keepsFrames_pushUndefined _ m₀).bind fun _ => ensures_pushFrame _ m₀
  refine (keepsFrames_ofExcept _ m₀).bind fun _ => ?_
  split
  · refine (keepsFrames_onStack (Stack.bounded_popMany _) m₀).bind fun _ => ?_
    refine (keepsFrames_onHeap _ m₀).bind fun _ => ?_
    exact (keepsFrames_push _ m₀).bind fun _ => hlast
  · exact hlast

/-- With room for all of them, the values are appended to the stack. -/
theorem Exec.pushAll_eq (vs : List Value) (m : Machine)
    (h : m.stack.size + vs.length ≤ m.stack.capacity) :
    pushAll vs m =
      .ok () { m with stack := ⟨m.stack.values ++ vs.toArray, m.stack.capacity⟩ } := by
  induction vs generalizing m with
  | nil => simp [pushAll, pure_eq]
  | cons v vs ih =>
    rw [List.length_cons, Stack.size] at h
    rw [pushAll, bind_eq, push_eq, if_pos (by omega)]
    dsimp only
    rw [ih _ (by simp only [Stack.size, Array.size_push]; omega)]
    simp

/-- The machine of a call by itself, before it is entered: all of its stack is the callee with the
arguments. -/
def Machine.ofCall (m : Machine) (f : FunctionObject) (args : List Value) (slot : Nat) : Machine :=
  { m with
    stack := ⟨(.function f :: args).toArray, m.stack.capacity - slot⟩
    frames := []
    maxFrames := m.maxFrames - m.depth }

/-- The ground of the call: the stack beneath the callee, and the caller that goes on at `next`. -/
def Machine.groundOf (m : Machine) (slot next : Nat) : Ground :=
  ⟨m.stack.values.shrink slot, (m.goTo next).frames⟩

/-- Calls from outside are made on the stub alone. -/
def stubGround : Ground := ⟨#[], [.start rootStub 0]⟩

/-- The machine is about to execute a call of `f`, which is at an index of the stack with its
arguments above. -/
structure Machine.Calls (m : Machine) (f : FunctionObject) (args : List Value) (slot : Nat) :
    Prop where
  fetches : ∃ caller callers next, m.frames = caller :: callers ∧
    caller.function.fetch caller.ip = .instruction ⟨.call, [args.length, 0]⟩ next
  operands : m.stack.values.toList.drop slot = .function f :: args
  /-- The machine is within its limits, as every operation leaves it. -/
  stack : m.stack.size ≤ m.stack.capacity
  frames : m.depth ≤ m.maxFrames

namespace Machine.Calls

variable {f : FunctionObject} {args : List Value} {slot : Nat}

/-- Callee and arguments are what is on the stack from the slot on. -/
theorem size_eq (h : m.Calls f args slot) : m.stack.size = slot + (args.length + 1) := by
  have := congrArg List.length h.operands
  simp only [List.length_drop, List.length_cons, Array.length_toList, Stack.size] at this ⊢
  omega

/-- The caller stands on the ground of the call. -/
theorem goTo_eq_on (h : m.Calls f args slot) (next : Nat) :
    m.goTo next = (m.ofCall f args slot).on (m.groundOf slot next) := by
  obtain ⟨caller, callers, _, hf, -⟩ := h.fetches
  have hsize := h.size_eq
  have hvalues : m.stack.values.shrink slot ++ (Value.function f :: args).toArray =
      m.stack.values := by
    apply Array.ext'
    rw [Array.toList_append, Array.toList_shrink, List.toList_toArray, ← h.operands,
      List.take_append_drop]
  have hcapacity : (m.stack.values.shrink slot).size + (m.stack.capacity - slot) =
      m.stack.capacity := by
    have := h.stack
    simp only [Stack.size] at hsize this
    simp only [Array.size_shrink]
    omega
  have hframes : m.maxFrames - m.depth + (caller :: callers).length = m.maxFrames := by
    have := h.frames
    rw [← hf, ← depth]
    omega
  rw [groundOf, goTo_eq hf]
  simp only [on, ofCall, List.map_nil, List.nil_append, hvalues, hcapacity]
  simpa using hframes.symm

/-- The callee stands just above its ground. -/
theorem size_ground (h : m.Calls f args slot) (next : Nat) :
    (m.groundOf slot next).values.size = slot := by
  have hsize := h.size_eq
  simp only [groundOf, Array.size_shrink, Stack.size] at hsize ⊢
  omega

/-- The call instruction enters the callee, on the ground of the call. -/
theorem step_eq (host : Host) (h : m.Calls f args slot) :
    ∃ next, (m.groundOf slot next).frames.length = m.depth ∧
      Exec.step host m =
        match Exec.enterFunction f.function 0 args.length (m.ofCall f args slot) with
        | .ok _ c => .ok none (c.on (m.groundOf slot next))
        | .error e c => .error e (c.on (m.groundOf slot next)) := by
  obtain ⟨caller, callers, next, hf, hfetch⟩ := h.fetches
  refine ⟨next, by rw [groundOf, frames_goTo hf, depth, hf]; rfl, ?_⟩
  have hsize := h.size_eq
  have hground : (m.groundOf slot next).values.size = slot := h.size_ground next
  have hcallee : (m.goTo next).stack.values[slot]? = some (.function f) := by
    have := congrArg List.head? h.operands
    rw [List.head?_drop, List.head?_cons, Array.getElem?_toList] at this
    rwa [goTo_eq hf]
  have hover := Exec.over_enterFunction (g := m.groundOf slot next) (m := m.ofCall f args slot)
    f.function 0 args.length (by simp [ofCall, Stack.size])
  rw [Exec.Over, ← h.goTo_eq_on, hground, Nat.add_zero] at hover
  have hcall : Exec.call host args.length false (m.goTo next) =
      Exec.enterFunction f.function slot args.length (m.goTo next) := by
    have hsize' : (m.goTo next).stack.size = slot + (args.length + 1) := by
      rw [goTo_eq hf]
      exact hsize
    unfold Exec.call
    simp only [Bool.false_eq_true, if_false]
    rw [Exec.bind_eq, Exec.pure_eq]
    dsimp only
    rw [Exec.bind_eq, Exec.stackSize_eq]
    dsimp only
    rw [if_neg (by omega), hsize', Nat.add_sub_cancel, Exec.bind_eq, Exec.onStack_eq, Stack.get,
      hcallee]
  rw [Exec.step_eq host hf, hfetch]
  show (Exec.call host args.length false >>= fun _ => pure none) (m.goTo next) = _
  rw [Exec.bind_eq, hcall, hover]
  cases Exec.enterFunction f.function 0 args.length (m.ofCall f args slot) <;> rfl

/-- A call from outside enters the callee on the ground of the stub. -/
theorem enterCall_eq (h : m.Calls f args slot) :
    Exec.enterCall f args (.idle m.constants m.globals
        ⟨m.stack.capacity - slot, m.maxFrames - m.depth + 1, m.budget⟩ m.heap) =
      match Exec.enterFunction f.function 0 args.length (m.ofCall f args slot) with
      | .ok _ c => .ok () (c.on stubGround)
      | .error e c => .error e (c.on stubGround) := by
  have hroom : args.length + 1 ≤ m.stack.capacity - slot := by
    have := h.stack
    rw [h.size_eq] at this
    omega
  have hover := Exec.over_enterFunction (g := stubGround) (m := m.ofCall f args slot)
    f.function 0 args.length (by simp [ofCall, Stack.size])
  rw [Exec.Over, show stubGround.values.size + 0 = 0 from rfl] at hover
  have henter {m₁ : Machine} (h₁ : m₁ = (m.ofCall f args slot).on stubGround) :
      Exec.enterFunction f.function 0 args.length m₁ =
        match Exec.enterFunction f.function 0 args.length (m.ofCall f args slot) with
        | .ok _ c => .ok () (c.on stubGround)
        | .error e c => .error e (c.on stubGround) := by
    rw [h₁, hover]
    cases Exec.enterFunction f.function 0 args.length (m.ofCall f args slot) <;> rfl
  unfold Exec.enterCall
  rw [Exec.bind_eq, Exec.pushFrame_eq, if_pos (by simp [idle])]
  dsimp only
  rw [Exec.bind_eq, Exec.push_eq, if_pos (by simp [idle, Stack.ofCapacity]; omega)]
  dsimp only
  rw [Exec.bind_eq, Exec.pushAll_eq _ _ (by simp [idle, Stack.ofCapacity, Stack.size]; omega)]
  dsimp only
  apply henter
  simp [idle, on, ofCall, stubGround, Stack.ofCapacity]

/-- The machine that has been entered is the machine of a call. -/
theorem called (h : m.Calls f args slot) {c : Machine}
    (hc : Exec.enterFunction f.function 0 args.length (m.ofCall f args slot) = .ok () c) :
    c.Called := by
  have hentered := (Exec.ensures_enterFunction f.function 0 args.length (m.ofCall f args slot)).ok
    ⟨rfl, rfl, rfl⟩ hc
  refine ⟨⟨[], .start f.function 1, hentered.frames, rfl, by simp⟩, ?_⟩
  have := h.stack
  rw [h.size_eq] at this
  rw [hentered.capacity, ofCall]
  show 0 < m.stack.capacity - slot
  omega

end Machine.Calls

/-! ## The two ways of calling -/

/-- The states in the midst of a call that the machine makes: there are more activations than at the
call. -/
inductive Machine.Inside (host : Host) (m : Machine) : Machine → Prop where
  | enter {m₁ : Machine} (hs : Exec.step host m = .ok none m₁) (hdeep : m.depth < m₁.depth) :
    Inside host m m₁
  | step {m₁ m₂ : Machine} (h : Inside host m m₁) (hs : Exec.step host m₁ = .ok none m₂)
    (hdeep : m.depth < m₂.depth) : Inside host m m₂

/-- On the ground there are the activations of the ground besides. -/
theorem Machine.depth_on (g : Ground) (c : Machine) :
    (c.on g).depth = c.depth + g.frames.length := by
  simp [depth, on]

/-- What the machine of a call reaches by itself is on the ground a state in the midst of it. -/
theorem Machine.Inside.of_reaches {g : Ground} {c c' : Machine} (hg : g.frames ≠ [])
    (hdepth : g.frames.length = m.depth) (hstep : Exec.step host m = .ok none (c.on g))
    (hs : ∀ m₁, m.Inside host m₁ → m₁.Supplied) (hc : c.Called) (h : c.Reaches host c') :
    c'.Called ∧ m.Inside host (c'.on g) := by
  have hdeep {c' : Machine} (hc' : c'.Called) : m.depth < (c'.on g).depth := by
    have := List.length_pos_iff.2 hc'.frames_ne_nil
    rw [depth_on, hdepth]
    show m.depth < c'.frames.length + m.depth
    omega
  induction h with
  | start => exact ⟨hc, .enter hstep (hdeep hc)⟩
  | step _ hs' ih =>
    obtain ⟨hc₁, hinside⟩ := ih
    have h := Exec.carries_step host hg hc₁ (hs _ hinside)
    rw [Exec.Carries, hs'] at h
    exact ⟨h.1, hinside.step h.2 (hdeep h.1)⟩

/-- The stub halts with what has been returned to it. -/
theorem Machine.run_landed (host : Host) (steps : Nat) (v : Value) {c : Machine}
    (hc : c.frames = []) :
    (c.landed stubGround v).run host steps =
      if steps = 0 then .error .outOfSteps (c.landed stubGround v)
      else .ok v ((c.landed stubGround v).goTo 1) := by
  cases steps with
  | zero => rfl
  | succ steps =>
    have hf : (c.landed stubGround v).frames = [.start rootStub 0] := by
      simp [landed, on, stubGround, hc]
    have hfetch : rootStub.fetch 0 = .instruction ⟨.halt, []⟩ 1 := by decide
    have hstep : Exec.step host (c.landed stubGround v) =
        .ok (some v) ((c.landed stubGround v).goTo 1) := by
      rw [Exec.step_eq host hf, show (Frame.start rootStub 0).function.fetch
        (Frame.start rootStub 0).ip = .instruction ⟨.halt, []⟩ 1 from hfetch]
      dsimp only
      rw [goTo_eq hf]
      rfl
    rw [run, hstep]
    simp

/-- Left to itself, the machine ends with a value, and with these globals and this heap. -/
def Machine.Yields (host : Host) (m : Machine) (v : Value) (globals : Array Value) (heap : Heap) :
    Prop :=
  ∃ steps m', m.run host steps = .ok v m' ∧ m'.globals = globals ∧ m'.heap = heap

/-- Left to itself, the machine ends in a fault, and with this heap. -/
def Machine.Faults (host : Host) (m : Machine) (e : Fault) (heap : Heap) : Prop :=
  ∃ steps m', m.run host steps = .error (.fault e) m' ∧ m'.heap = heap

/-- What a call is over with: the value that stands in the callee's place, or the one that the run
has been halted with. -/
def CallEnd.Gives (slot : Nat) (m : Machine) (v : Value) : CallEnd → Prop
  | .returned => m.stack.values[slot]? = some v
  | .halted w => w = v

section

variable {g : Ground} {c : Machine} {v : Value} {e : Fault} {globals : Array Value} {heap : Heap}

/-- On the stub, a call's machine ends with what it ends with by itself. -/
theorem Machine.yields_on_stub (hc : c.Called)
    (hs : ∀ c', c.Reaches host c' → (c'.on stubGround).Supplied) :
    (c.on stubGround).Yields host v globals heap ↔ c.Yields host v globals heap := by
  have hg : stubGround.frames ≠ [] := List.cons_ne_nil _ _
  constructor
  · rintro ⟨steps, m', hrun, hglobals, hheap⟩
    have h := run_eq_runCall host 1 steps (c.on stubGround)
    rw [show 1 = stubGround.frames.length from rfl, runCall_on hg hc hs] at h
    cases hx : c.run host steps with
    | error s c' =>
      simp only [hx, endOn, hrun] at h
      cases h
    | ok w c' =>
      by_cases hf : c'.frames = []
      · simp only [hx, endOn, hf, if_true] at h
        obtain ⟨j, hj, h⟩ := h
        have hlast := h (steps - j)
        rw [Nat.add_sub_cancel' hj, hrun, run_landed host _ _ hf] at hlast
        split at hlast
        · cases hlast
        · cases hlast
          rw [globals_goTo] at hglobals
          rw [heap_goTo] at hheap
          exact ⟨steps, c', hx, hglobals, hheap⟩
      · simp only [hx, endOn, hf, if_false, hrun] at h
        cases h
        exact ⟨steps, c', hx, hglobals, hheap⟩
  · rintro ⟨steps, c', hx, hglobals, hheap⟩
    have h := run_eq_runCall host 1 steps (c.on stubGround)
    rw [show 1 = stubGround.frames.length from rfl, runCall_on hg hc hs, hx] at h
    -- After a return the stub still has its own instruction to execute, which ends the run.
    by_cases hf : c'.frames = []
    · simp only [endOn, hf, if_true] at h
      obtain ⟨j, -, h⟩ := h
      refine ⟨j + 1, (c'.landed stubGround v).goTo 1, ?_, ?_⟩
      · rw [h 1, run_landed host _ _ hf]
        exact if_neg Nat.one_ne_zero
      · rw [globals_goTo, heap_goTo]
        exact ⟨hglobals, hheap⟩
    · simp only [endOn, hf, if_false] at h
      exact ⟨steps, _, h, hglobals, hheap⟩

/-- On the stub, a call's machine faults as it does by itself. -/
theorem Machine.faults_on_stub (hc : c.Called)
    (hs : ∀ c', c.Reaches host c' → (c'.on stubGround).Supplied) :
    (c.on stubGround).Faults host e heap ↔ c.Faults host e heap := by
  have hg : stubGround.frames ≠ [] := List.cons_ne_nil _ _
  constructor
  · rintro ⟨steps, m', hrun, hheap⟩
    have h := run_eq_runCall host 1 steps (c.on stubGround)
    rw [show 1 = stubGround.frames.length from rfl, runCall_on hg hc hs] at h
    cases hx : c.run host steps with
    | error s c' =>
      simp only [hx, endOn, hrun] at h
      cases h
      exact ⟨steps, c', hx, hheap⟩
    | ok w c' =>
      by_cases hf : c'.frames = []
      · simp only [hx, endOn, hf, if_true] at h
        obtain ⟨j, hj, h⟩ := h
        have hlast := h (steps - j)
        rw [Nat.add_sub_cancel' hj, hrun, run_landed host _ _ hf] at hlast
        split at hlast <;> cases hlast
      · simp only [hx, endOn, hf, if_false, hrun] at h
        cases h
  · rintro ⟨steps, c', hx, hheap⟩
    have h := run_eq_runCall host 1 steps (c.on stubGround)
    rw [show 1 = stubGround.frames.length from rfl, runCall_on hg hc hs, hx] at h
    exact ⟨steps, _, h, hheap⟩

/-- In a run, a call is over with what its machine ends with by itself. -/
theorem Machine.runCall_gives_iff (v : Value) (globals : Array Value) (heap : Heap)
    (hg : g.frames ≠ []) (hc : c.Called) (hs : ∀ c', c.Reaches host c' → (c'.on g).Supplied) :
    (∃ steps e m', (c.on g).runCall host g.frames.length steps = .ok e m' ∧
      e.Gives g.values.size m' v ∧ m'.globals = globals ∧ m'.heap = heap) ↔
    c.Yields host v globals heap := by
  simp only [runCall_on hg hc hs]
  constructor
  · rintro ⟨steps, e, m', h, hgives, hglobals, hheap⟩
    cases hx : c.run host steps with
    | error s c' => simp [hx, endOn] at h
    | ok w c' =>
      by_cases hf : c'.frames = []
      · simp only [hx, endOn, hf, if_true] at h
        cases h
        have hw : w = v := by simpa [CallEnd.Gives, landed] using hgives
        exact ⟨steps, c', by rw [hx, hw], hglobals, hheap⟩
      · simp only [hx, endOn, hf, if_false] at h
        cases h
        have hw : w = v := hgives
        exact ⟨steps, c', by rw [hx, hw], hglobals, hheap⟩
  · rintro ⟨steps, c', hx, hglobals, hheap⟩
    by_cases hf : c'.frames = []
    · refine ⟨steps, .returned, c'.landed g v, ?_, ?_, hglobals, hheap⟩
      · simp only [hx, endOn, hf, if_true]
      · simp [CallEnd.Gives, landed]
    · refine ⟨steps, .halted v, c'.on g, ?_, rfl, hglobals, hheap⟩
      simp only [hx, endOn, hf, if_false]

/-- In a run, a call faults as its machine does by itself. -/
theorem Machine.runCall_faults_iff (e : Fault) (heap : Heap) (hg : g.frames ≠ []) (hc : c.Called)
    (hs : ∀ c', c.Reaches host c' → (c'.on g).Supplied) :
    (∃ steps m', (c.on g).runCall host g.frames.length steps = .error (.fault e) m' ∧
      m'.heap = heap) ↔ c.Faults host e heap := by
  simp only [runCall_on hg hc hs]
  constructor
  · rintro ⟨steps, m', h, hheap⟩
    cases hx : c.run host steps with
    | error s c' =>
      simp only [hx, endOn] at h
      cases h
      exact ⟨steps, c', hx, hheap⟩
    | ok w c' =>
      by_cases hf : c'.frames = [] <;> simp [hx, endOn, hf] at h
  · rintro ⟨steps, c', hx, hheap⟩
    exact ⟨steps, c'.on g, by rw [hx, endOn], hheap⟩

end

/-- A call from outside makes its checks, enters the callee and runs the machine that there is
then. -/
theorem FunctionObject.invoke_eq (steps : Nat) (f : FunctionObject) (pool globals : Array Value)
    (args : List Value) (limits : Limits) (h : Heap) :
    f.invoke host steps (some pool) globals args limits h =
      match validateConstants pool, f.function.checkArity args.length with
      | .error e, _ => .error (.fault e) h
      | .ok _, .error e => .error (.fault e) h
      | .ok _, .ok _ =>
        match Exec.enterCall f args (.idle pool globals limits h) with
        | .ok _ m => RunM.finish host steps m h
        | .error e m => .error (.fault e) m.heap := by
  unfold invoke
  dsimp only
  cases validateConstants pool with
  | error e => rfl
  | ok _ =>
    cases f.function.checkArity args.length with
    | error e => rfl
    | ok _ =>
      show (match Exec.enterCall f args (.idle pool globals limits h) with
        | .ok _ m => RunM.finish host steps m
        | .error e m => do set m.heap; RunM.fault e : RunM _) h = _
      cases Exec.enterCall f args (.idle pool globals limits h) <;> rfl

namespace Machine.Calls

variable {f : FunctionObject} {args : List Value} {slot : Nat}

/-- A call from outside, whose constants are all there, enters the callee and runs it on the
stub. -/
theorem invoke_eq (h : m.Calls f args slot) (hpool : .undefined ∉ m.constants) (steps : Nat) :
    f.invoke host steps (some m.constants) m.globals args
        ⟨m.stack.capacity - slot, m.maxFrames - m.depth + 1, m.budget⟩ m.heap =
      match Exec.enterFunction f.function 0 args.length (m.ofCall f args slot) with
      | .ok _ c => RunM.finish host steps (c.on stubGround) m.heap
      | .error e c => .error (.fault e) c.heap := by
  have hvalid : validateConstants m.constants = .ok () := by
    have hnone : m.constants.findIdx? Value.isUndefined = none := by
      rw [Array.findIdx?_eq_none_iff]
      intro v hv
      cases v with
      | undefined => exact absurd hv hpool
      | _ => rfl
    rw [validateConstants, hnone]
  rw [FunctionObject.invoke_eq, hvalid, h.enterCall_eq]
  cases harity : f.function.checkArity args.length with
  | error e =>
    have henter : Exec.enterFunction f.function 0 args.length (m.ofCall f args slot) =
        .error e (m.ofCall f args slot) := by
      rw [Exec.enterFunction, Exec.bind_eq, harity]
      rfl
    rw [henter]
    rfl
  | ok u => cases Exec.enterFunction f.function 0 args.length (m.ofCall f args slot) <;> rfl

end Machine.Calls

/-- A run that is given enough steps ends with what its machine yields. -/
theorem RunM.finish_ok_iff {v : Value} {globals : Array Value} {heap : Heap} (h : Heap) :
    (∃ steps, finish host steps m h = .ok (v, globals) heap) ↔ m.Yields host v globals heap := by
  refine exists_congr fun steps => ?_
  unfold finish
  cases m.run host steps <;> simp [and_assoc]

theorem RunM.finish_fault_iff {e : Fault} {heap : Heap} (h : Heap) :
    (∃ steps, finish host steps m h = .error (.fault e) heap) ↔ m.Faults host e heap := by
  refine exists_congr fun steps => ?_
  unfold finish
  cases m.run host steps <;> simp [and_assoc]

/-- The run of a call begins with the call instruction. -/
theorem Machine.exists_runCall {depth : Nat} {m₁ : Machine}
    {p : EStateM.Result Stop Machine CallEnd → Prop} (hp : ∀ m, ¬ p (.error .outOfSteps m))
    (hstep : Exec.step host m = .ok none m₁) (hdeep : depth < m₁.depth) :
    (∃ steps, p (m.runCall host depth steps)) ↔ ∃ steps, p (m₁.runCall host depth steps) := by
  have hrun (steps : Nat) : m.runCall host depth (steps + 1) = m₁.runCall host depth steps := by
    rw [runCall, hstep]
    exact if_neg (Nat.not_le.2 hdeep)
  constructor
  · rintro ⟨_ | steps, h⟩
    · exact absurd h (hp m)
    · exact ⟨steps, hrun steps ▸ h⟩
  · rintro ⟨steps, h⟩
    exact ⟨steps + 1, (hrun steps).symm ▸ h⟩

/-- If the call instruction faults, that is where the run of the call ends. -/
theorem Machine.exists_runCall_of_fault (depth : Nat) {e : Fault} {m₁ : Machine}
    {p : EStateM.Result Stop Machine CallEnd → Prop} (hp : ∀ m, ¬ p (.error .outOfSteps m))
    (hstep : Exec.step host m = .error e m₁) :
    (∃ steps, p (m.runCall host depth steps)) ↔ p (.error (.fault e) m₁) := by
  have hrun (steps : Nat) : m.runCall host depth (steps + 1) = .error (.fault e) m₁ := by
    rw [runCall, hstep]
  constructor
  · rintro ⟨_ | steps, h⟩
    · exact absurd h (hp m)
    · exact hrun steps ▸ h
  · intro h
    exact ⟨1, (hrun 0).symm ▸ h⟩

/-- A call from outside and the same call in a run have the same outcome: the value and what becomes
of the globals and the heap, or the fault. -/
theorem FunctionObject.invoke_iff_runCall {f : FunctionObject} {args : List Value} {slot : Nat}
    (h : m.Calls f args slot) (hpool : .undefined ∉ m.constants)
    (hs : ∀ m₁, m.Inside host m₁ → m₁.Supplied) :
    let invoke := fun steps => f.invoke host steps (some m.constants) m.globals args
      ⟨m.stack.capacity - slot, m.maxFrames - m.depth + 1, m.budget⟩ m.heap
    (∀ v globals heap, (∃ steps, invoke steps = .ok (v, globals) heap) ↔
      ∃ steps e m', m.runCall host m.depth steps = .ok e m' ∧ e.Gives slot m' v ∧
        m'.globals = globals ∧ m'.heap = heap) ∧
    (∀ e heap, (∃ steps, invoke steps = .error (.fault e) heap) ↔
      ∃ steps m', m.runCall host m.depth steps = .error (.fault e) m' ∧ m'.heap = heap) := by
  obtain ⟨next, hdepth, hstep⟩ := h.step_eq host
  have hslot : (m.groundOf slot next).values.size = slot := h.size_ground next
  simp only [h.invoke_eq hpool]
  cases henter : Exec.enterFunction f.function 0 args.length (m.ofCall f args slot) with
  | error e c =>
    -- the callee is not entered, and the call instruction is where both end
    rw [henter] at hstep
    refine ⟨fun v globals heap => ?_, fun e' heap => ?_⟩
    · have hfirst := Machine.exists_runCall_of_fault m.depth (p := fun r => ∃ e m',
        r = .ok e m' ∧ e.Gives slot m' v ∧ m'.globals = globals ∧ m'.heap = heap) (by simp) hstep
      rw [hfirst]
      simp
    · have hfirst := Machine.exists_runCall_of_fault m.depth (p := fun r => ∃ m',
        r = .error (.fault e') m' ∧ m'.heap = heap) (by simp) hstep
      rw [hfirst]
      simp [Machine.on, and_assoc]
  | ok u c =>
    -- both are the run of the entered machine, on the ground of the call and on the stub
    rw [henter] at hstep
    have hc : c.Called := h.called henter
    have hg : (m.groundOf slot next).frames ≠ [] := by
      obtain ⟨caller, callers, -, hf, -⟩ := h.fetches
      intro h0
      rw [h0, Machine.depth, hf] at hdepth
      cases hdepth
    have hs' (c' : Machine) (hr : c.Reaches host c') : (c'.on (m.groundOf slot next)).Supplied :=
      hs _ (Machine.Inside.of_reaches hg hdepth hstep hs hc hr).2
    have hstub (c' : Machine) (hr : c.Reaches host c') : (c'.on stubGround).Supplied := by
      have hc' := (Machine.Inside.of_reaches hg hdepth hstep hs hc hr).1
      exact (hs' c' hr).on_lower (Nat.zero_le _) hc'.frames_ne_nil
    have hdeep : m.depth < (c.on (m.groundOf slot next)).depth := by
      have := List.length_pos_iff.2 hc.frames_ne_nil
      rw [Machine.depth_on, hdepth]
      show m.depth < c.frames.length + m.depth
      omega
    refine ⟨fun v globals heap => ?_, fun e heap => ?_⟩
    · have hfirst := Machine.exists_runCall (p := fun r => ∃ e m', r = .ok e m' ∧
        e.Gives slot m' v ∧ m'.globals = globals ∧ m'.heap = heap) (by simp) hstep hdeep
      have hgives := Machine.runCall_gives_iff v globals heap hg hc hs'
      rw [hslot, hdepth] at hgives
      exact (RunM.finish_ok_iff m.heap).trans ((Machine.yields_on_stub hc hstub).trans
        (hfirst.trans hgives).symm)
    · have hfirst := Machine.exists_runCall (p := fun r => ∃ m', r = .error (.fault e) m' ∧
        m'.heap = heap) (by simp) hstep hdeep
      have hfaults := Machine.runCall_faults_iff e heap hg hc hs'
      rw [hdepth] at hfaults
      exact (RunM.finish_fault_iff m.heap).trans ((Machine.faults_on_stub hc hstub).trans
        (hfirst.trans hfaults).symm)

/-! ### A call that makes an array

The function wraps its argument in a new array. It is called on top of a local, so the call in the
run has a ground.
-/

def wrapping : FunctionObject :=
  ⟨0, .ofCode #[Opcode.getLocal.byte, 0, Opcode.array.byte, 0, 1, Opcode.ret.byte, 1] 1 1⟩

def callsWrapping : Function := .ofCode #[Opcode.call.byte, 1, 0, Opcode.halt.byte] 1 0

def callingWrapping : Machine where
  constants := #[.bool true]
  stack := ⟨#[.undefined, .function wrapping, .int 7], 8⟩
  frames := [.start callsWrapping 0]
  maxFrames := 2
  globals := #[.int 1]
  budget := some 3
  heap := {}

def wrappedHeap : Heap := { arrays := #[#[.int 7]] }

def enteredWrapping : Machine :=
  { callingWrapping with frames := [.start wrapping.function 2, ⟨callsWrapping, 3, 0, []⟩] }

def loadedWrapping : Machine :=
  { enteredWrapping.goTo 2 with stack := ⟨callingWrapping.stack.values.push (.int 7), 8⟩ }

def wrappedWrapping : Machine :=
  { enteredWrapping.goTo 5 with
    stack := ⟨callingWrapping.stack.values.push (.array ⟨0⟩), 8⟩
    budget := some 2
    heap := wrappedHeap }

def calledWrapping : Machine :=
  { callingWrapping with
    frames := [⟨callsWrapping, 3, 0, []⟩]
    stack := ⟨#[.undefined, .array ⟨0⟩], 8⟩
    budget := some 2
    heap := wrappedHeap }

/-- The call takes four steps, up to the one that returns. -/
theorem steps_of_callingWrapping (host : Host) :
    Exec.step host callingWrapping = .ok none enteredWrapping ∧
    Exec.step host enteredWrapping = .ok none loadedWrapping ∧
    Exec.step host loadedWrapping = .ok none wrappedWrapping ∧
    Exec.step host wrappedWrapping = .ok none calledWrapping := by
  refine ⟨?_, ?_, ?_, ?_⟩
  all_goals
    rw [Exec.step_eq host rfl]
    rfl

/-- Three machines are in the midst of the call. -/
theorem inside_callingWrapping {m : Machine} (h : callingWrapping.Inside host m) :
    m = enteredWrapping ∨ m = loadedWrapping ∨ m = wrappedWrapping := by
  obtain ⟨hcall, hload, hwrap, hret⟩ := steps_of_callingWrapping host
  induction h with
  | enter hs _ =>
    rw [hcall] at hs
    cases hs
    exact .inl rfl
  | step _ hs hdeep ih =>
    rcases ih with h | h | h
    · rw [h, hload] at hs
      cases hs
      exact .inr (.inl rfl)
    · rw [h, hwrap] at hs
      cases hs
      exact .inr (.inr rfl)
    · rw [h, hret] at hs
      cases hs
      exact absurd hdeep (Nat.lt_irrefl 1)

/-- Each of them has on the stack what its instruction takes. -/
theorem supplied_callingWrapping {m : Machine} (h : callingWrapping.Inside host m) :
    m.Supplied := by
  rcases inside_callingWrapping h with rfl | rfl | rfl
  · have hfetch : wrapping.function.fetch 0 = .instruction ⟨.getLocal, [0]⟩ 2 := by decide
    exact .of_fetch rfl hfetch (by decide)
  · have hfetch : wrapping.function.fetch 2 = .instruction ⟨.array, [1]⟩ 5 := by decide
    exact .of_fetch rfl hfetch (by decide)
  · have hfetch : wrapping.function.fetch 5 = .instruction ⟨.ret, [1]⟩ 7 := by decide
    exact .of_fetch rfl hfetch (by decide)

/-- Called from outside with as much room as it has in the run, `wrapping` makes the same array. -/
theorem invoke_wrapping :
    ∃ steps, wrapping.invoke sampleHost steps (some #[.bool true]) #[.int 1] [.int 7]
      ⟨8 - 1, 2 - 1 + 1, some 3⟩ {} = .ok (.array ⟨0⟩, #[.int 1]) wrappedHeap := by
  have hcalls : callingWrapping.Calls wrapping [.int 7] 1 :=
    ⟨⟨_, _, 3, rfl, by decide⟩, rfl, by decide, by decide⟩
  have hsupplied (m₁ : Machine) (h : callingWrapping.Inside sampleHost m₁) : m₁.Supplied :=
    supplied_callingWrapping h
  have hrun : callingWrapping.runCall sampleHost 1 4 = .ok .returned calledWrapping := by
    obtain ⟨hcall, hload, hwrap, hret⟩ := steps_of_callingWrapping sampleHost
    simp only [Machine.runCall, hcall, hload, hwrap, hret]
    rfl
  exact ((FunctionObject.invoke_iff_runCall hcalls (by simp [callingWrapping]) hsupplied).1 _ _ _).2
    ⟨4, .returned, calledWrapping, hrun, rfl, rfl, rfl⟩

end ScriptVM
