import ScriptVM.Proofs.CheckedStep
import ScriptVM.Proofs.Launch

/-!
# No bytecode makes the machine panic

Whatever the bytes of its functions are, and however often a machine is run on, it stays within its
limits and passes all checks of the checked machine. The invariant is `Machine.Safe`. A step keeps
it, whether it succeeds or faults, so a machine that has faulted can be run on.
-/

namespace ScriptVM

open Exec (left)

/-! ## Entering within the capacity

How high the stack is matters for the slots of an activation that is started: when all of them have
been pushed, they lie within the capacity.
-/

/-- The machine is what a run makes of `m₀`, with these activations and so many values on its
stack. -/
structure Machine.Holds (m₀ : Machine) (F : List Frame) (n : Nat) (m : Machine) : Prop where
  kept : m₀.Kept m
  frames : m.frames = F
  size : m.stack.size = n

namespace Exec

variable {α β : Type} {m₀ : Machine} {F : List Frame} {n n' n'' : Nat} {x : Exec α}
  {k : α → Exec β}

/-- The computation takes the stack from one height to another, below the same activations. -/
def Raises (m₀ : Machine) (F : List Frame) (n : Nat) (x : Exec α) (n' : Nat) : Prop :=
  Ensures (m₀.Holds F n) x (fun _ => m₀.Holds F n') (fun _ m => m₀.Kept m ∧ m.frames = F)

/-- Heights are chained like sizes. -/
theorem Raises.bind (hx : Raises m₀ F n x n') (hk : ∀ a, Raises m₀ F n' (k a) n'') :
    Raises m₀ F n (x >>= k) n'' := Ensures.bind hx hk

theorem raises_pure (a : α) : Raises m₀ F n (pure a) n := fun _ hm => hm

/-- The height is that of the stack, and the operation tells what becomes of it. -/
theorem raises_onStack {x : StackM α} (hx : Stack.Bounded x)
    (hsize : ∀ s a s', s.size = n → x s = .ok a s' → s'.size = n') :
    Raises m₀ F n (onStack x) n' := by
  intro m hm
  have hb := hx m.stack
  rw [onStack_eq]
  cases hr : x m.stack with
  | ok a s =>
    rw [hr] at hb
    exact ⟨hm.kept.trans ⟨rfl, hb.1, rfl, rfl, hb.2, id⟩, hm.frames, hsize _ a s hm.size hr⟩
  | error e s =>
    rw [hr] at hb
    subst hb
    exact ⟨hm.kept, hm.frames⟩

theorem raises_push (v : Value) : Raises m₀ F n (push v) (n + 1) := by
  refine raises_onStack (Stack.bounded_push v) fun s _ s' hs hpush => ?_
  unfold Stack.push at hpush
  by_cases hlt : s.values.size < s.capacity <;> simp only [hlt, if_true, if_false] at hpush
  · cases hpush
    rw [← hs]
    exact Array.size_push ..
  · cases hpush

theorem raises_popMany {count : Nat} :
    Raises m₀ F n (onStack (Stack.popMany count)) (n - count) := by
  refine raises_onStack (Stack.bounded_popMany count) fun s _ s' hs hpop => ?_
  unfold Stack.popMany at hpop
  by_cases hle : count ≤ s.values.size <;> simp only [hle, if_true, if_false] at hpop
  · cases hpop
    rw [← hs]
    simp only [Stack.size, Array.size_shrink]
    omega
  · cases hpop

/-- So many values are pushed, or there is no room and a fault. -/
theorem raises_pushUndefined (count : Nat) :
    Raises m₀ F n (pushUndefined count) (n + count) := by
  induction count generalizing n with
  | zero => exact raises_pure ()
  | succ count ih =>
    have h := (raises_push .undefined).bind fun _ => ih (n := n + 1)
    rwa [Nat.add_right_comm] at h

theorem raises_pushAll (vs : List Value) : Raises m₀ F n (pushAll vs) (n + vs.length) := by
  induction vs generalizing n with
  | nil => exact raises_pure ()
  | cons v vs ih =>
    have h := (raises_push v).bind fun _ => ih (n := n + 1)
    rwa [Nat.add_right_comm] at h

theorem raises_onHeap (x : HeapM α) : Raises m₀ F n (onHeap x) n := by
  intro m hm
  rw [onHeap_eq]
  cases x m.heap with
  | ok a h => exact ⟨hm.kept.trans ⟨rfl, rfl, rfl, rfl, id, id⟩, hm.frames, hm.size⟩
  | error e h => exact ⟨hm.kept.trans ⟨rfl, rfl, rfl, rfl, id, id⟩, hm.frames⟩

theorem raises_ofExcept (r : Except Fault α) : Raises m₀ F n (ofExcept r) n := by
  intro m hm
  rw [ofExcept_eq]
  cases r with
  | ok a => exact hm
  | error e => exact ⟨hm.kept, hm.frames⟩

/-- A failed activation is none, so the others are as they were. -/
theorem holds_pushFrame (g : Frame) :
    Ensures (m₀.Holds F n) (pushFrame g) (fun _ => m₀.Holds (g :: F) n)
      (fun _ m => m₀.Kept m ∧ m.frames = F) := by
  intro m hm
  rw [pushFrame_eq]
  by_cases hlt : m.frames.length < m.maxFrames <;> simp only [hlt, if_true, if_false]
  · refine ⟨hm.kept.trans ⟨rfl, rfl, rfl, rfl, id, fun _ => hlt⟩, ?_, hm.size⟩
    rw [hm.frames]
  · exact ⟨hm.kept, hm.frames⟩

/-- The local slots of an activation that has been entered are on the stack. -/
theorem room_of_enterFunction (f : Function) (callee argc : Nat) :
    Ensures (m₀.Holds F (callee + (argc + 1))) (enterFunction f callee argc)
      (fun _ m => m₀.Kept m ∧ m.frames = .start f (callee + 1) :: F ∧
        callee + 1 + f.numLocals ≤ m.stack.size)
      (fun _ m => m₀.Kept m ∧ m.frames = F) := by
  have hlast {n : Nat} (hle : callee + 1 ≤ n) : Ensures (m₀.Holds F n) (do
        pushUndefined (f.numLocals - ((← stackSize) - (callee + 1)))
        pushFrame (.start f (callee + 1)))
      (fun _ m => m₀.Kept m ∧ m.frames = .start f (callee + 1) :: F ∧
        callee + 1 + f.numLocals ≤ m.stack.size)
      (fun _ m => m₀.Kept m ∧ m.frames = F) := by
    intro m hm
    rw [bind_eq, stackSize_eq, hm.size]
    refine Ensures.bind (raises_pushUndefined _) (fun _ => ?_) m hm
    exact (holds_pushFrame _).post fun _ m' h => ⟨h.kept, h.frames, by rw [h.size]; omega⟩
  refine Ensures.bind (raises_ofExcept _) fun _ => ?_
  split
  · refine Ensures.bind raises_popMany fun rest => Ensures.bind (raises_onHeap _) fun v => ?_
    exact Ensures.bind (raises_push v) fun _ => hlast (by omega)
  · exact hlast (by omega)

end Exec

/-! ## The invariant is kept

A fault may come at any point of an instruction. So the invariant is proved of the machine that an
instruction leaves, whether it succeeds or not.
-/

namespace Machine.Safe

variable {host : Host} {constants : Array Value} {limits : Limits} {m m' : Machine} {f : Frame}
  {rest : List Frame}

/-- As long as activations stay, there is only the stack to look at, and no operation breaks its
limits. -/
theorem of_frames (hm : m.Safe constants limits) (hk : m.Kept m') (hf : m'.frames = m.frames) :
    m'.Safe constants limits :=
  hm.of_kept hk (fun g hg => hm.locals g (hf ▸ hg)) fun g hg => hm.callee g (hf ▸ hg)

/-- An activation that goes on has the slots that it had. -/
theorem of_stays {α : Type} {x : Exec α} (hm : m.Safe constants limits) (hf : m.frames = f :: rest)
    (hx : Exec.Stays x) : (left (x m)).Safe constants limits := by
  have h := hx m f rest m (.self hf)
  cases hr : x m with
  | ok a m' =>
    rw [hr] at h
    obtain ⟨f', hfun, hb, -, hf'⟩ := h.top
    exact hm.of_top hf h.kept hf' hfun hb
  | error e m' =>
    rw [hr] at h
    obtain ⟨f', hfun, hb, -, hf'⟩ := h.top
    exact hm.of_top hf h.kept hf' hfun hb

/-- An activation that is entered has its local slots on the stack, and a callee beneath them. -/
theorem of_enter {g : Function} {callee : Nat} (hm : m.Safe constants limits) (hk : m.Kept m')
    (hf' : m'.frames = .start g (callee + 1) :: m.frames)
    (hroom : callee + 1 + g.numLocals ≤ m'.stack.size) : m'.Safe constants limits := by
  have hstack := hk.stack (hm.capacity ▸ hm.stack)
  rw [hk.capacity, hm.capacity] at hstack
  refine hm.of_kept hk (fun g' hg => ?_) fun g' hg => ?_
  · rw [hf'] at hg
    rcases List.mem_cons.1 hg with rfl | hg
    · exact Nat.le_trans hroom hstack
    · exact hm.locals g' hg
  · rw [hf'] at hg
    cases hf : m.frames with
    | nil => simp [hf] at hg
    | cons f rest =>
      rw [hf] at hg
      rcases List.mem_cons.1 hg with rfl | hg
      · exact Nat.le_add_left 1 callee
      · exact hm.callee g' (hf ▸ hg)

/-- The callee and the arguments are on the stack, so a callee is beneath the new activation. -/
theorem enterFunction {g : Function} {callee argc : Nat} (hm : m.Safe constants limits)
    (hsize : m.stack.size = callee + (argc + 1)) :
    (left (Exec.enterFunction g callee argc m)).Safe constants limits := by
  have h := Exec.room_of_enterFunction g callee argc m ⟨.refl m, rfl, hsize⟩
  cases hr : Exec.enterFunction g callee argc m with
  | ok _ m' =>
    rw [hr] at h
    obtain ⟨hk, hf', hroom⟩ := h
    exact hm.of_enter hk hf' hroom
  | error e m' =>
    rw [hr] at h
    exact hm.of_frames h.1 h.2

/-- What is called has been found on the stack, spread arguments included. -/
theorem call (hm : m.Safe constants limits) (hf : m.frames = f :: rest) (argc : Nat)
    (spread : Bool) : (left (Exec.call host argc spread m)).Safe constants limits := by
  have hcall {m : Machine} {f : Frame} (hm : m.Safe constants limits) (hf : m.frames = f :: rest)
      (argc : Nat) : (left (Exec.call host argc false m)).Safe constants limits := by
    rw [Exec.call_eq]
    by_cases hlt : m.stack.size < argc + 1
    · rw [if_pos hlt]
      exact hm
    rw [if_neg hlt]
    cases m.stack.values[m.stack.size - (argc + 1)]? with
    | none => exact hm
    | some v =>
      cases v with
      | function g => exact hm.enterFunction (by omega)
      | builtin b => exact hm.of_stays hf (Exec.stays_callBuiltin host b _)
      | _ => exact hm
  cases spread with
  | false => exact hcall hm hf argc
  | true =>
    rw [Exec.call_spread, Exec.bind_eq]
    have hspread := hm.of_stays hf (Exec.stays_spreadLast argc)
    have hstays := Exec.stays_spreadLast argc m f rest m (.self hf)
    cases hr : Exec.spreadLast argc m with
    | ok argc' m' =>
      rw [hr] at hspread hstays
      obtain ⟨f', -, -, -, hf'⟩ := hstays.top
      exact hcall hspread hf' argc'
    | error e m' =>
      rw [hr] at hspread
      exact hspread

/-- Any other instruction stays, jumps or leaves. -/
theorem of_moved {i : Instruction} (hm : m.Safe constants limits) (hf : m.frames = f :: rest)
    (hop : i.op ≠ .call) (h : Exec.Moved i m f rest m') : m'.Safe constants limits := by
  cases h with
  | stays he =>
    obtain ⟨f', hfun, hb, -, hf'⟩ := he.top
    exact hm.of_top hf he.kept hf' hfun hb
  | jumps _ he =>
    obtain ⟨f', hfun, hb, -, hf'⟩ := he.top
    exact hm.of_top hf he.kept hf' hfun hb
  | enters hc => exact absurd hc hop
  | leaves _ hk hf' =>
    refine hm.of_kept hk (fun g hg => hm.locals g ?_) fun g hg => hm.callee g ?_
    · rw [hf]
      exact .tail _ (hf' ▸ hg)
    · rw [hf, List.dropLast_cons_of_ne_nil]
      · exact .tail _ (hf' ▸ hg)
      · rintro rfl
        simp [hf'] at hg

/-- An instruction keeps the invariant, even where it faults. -/
theorem execute (hm : m.Safe constants limits) (hf : m.frames = f :: rest) (i : Instruction) :
    (left (Exec.execute host i m)).Safe constants limits := by
  by_cases hop : i.op = .call
  · have hcall : (left (Exec.call host i.first (i.second != 0) m)).Safe constants limits :=
      hm.call hf _ _
    rw [Exec.execute, hop]
    dsimp only
    rw [Exec.goOn, Exec.bind_eq]
    cases hr : Exec.call host i.first (i.second != 0) m <;> rw [hr] at hcall <;> exact hcall
  · have h := Exec.moves_execute host i m f rest m (.self hf)
    cases hr : Exec.execute host i m <;> rw [hr] at h <;> exact hm.of_moved hf hop h

/-- Fetching moves the pointer only. -/
theorem step (hm : m.Safe constants limits) : (left (Exec.step host m)).Safe constants limits := by
  cases hf : m.frames with
  | nil =>
    rw [Exec.step_of_no_frame host hf]
    exact hm
  | cons f rest =>
    rw [Exec.step_eq host hf]
    cases f.function.fetch f.ip with
    | fault e ip => exact hm.goTo ip
    | instruction i next => exact (hm.goTo next).execute (frames_goTo hf next) i

/-- By induction on the steps. -/
theorem run (hm : m.Safe constants limits) (steps : Nat) :
    (left (m.run host steps)).Safe constants limits := by
  induction steps generalizing m with
  | zero => exact hm
  | succ steps ih =>
    have hstep : (left (Exec.step host m)).Safe constants limits := hm.step
    rw [Machine.run]
    cases hr : Exec.step host m with
    | ok r m' =>
      rw [hr] at hstep
      cases r with
      | none => exact ih hstep
      | some v => exact hstep
    | error e m' =>
      rw [hr] at hstep
      exact hstep

end Machine.Safe
/-! ## Beginning -/

namespace Launch

variable {constants globals : Array Value} {limits : Limits} {heap : Heap} {start : Machine}

/-- Without activations and values there is nothing that could be out of bounds. -/
theorem safe_idle : (Machine.idle constants globals limits heap).Safe constants limits where
  constants := rfl
  capacity := rfl
  maxFrames := rfl
  stack := Nat.zero_le _
  depth := Nat.zero_le _
  locals := by simp [Machine.idle]
  callee := by simp [Machine.idle]

/-- What is on the machine when a call from outside enters its callee. -/
theorem holds_supply (f : FunctionObject) (args : List Value) :
    Exec.Ensures ((Machine.idle constants globals limits heap).Holds [] 0) (call f args).supply
      (fun _ => (Machine.idle constants globals limits heap).Holds [.start rootStub 0]
        (0 + (args.length + 1))) (fun _ _ => True) := by
  intro m hm
  refine ((Exec.raises_ofExcept (validateConstants m.constants)).anyFault.bind fun _ => ?_) m hm
  refine (Exec.raises_ofExcept (f.function.checkArity args.length)).anyFault.bind fun _ => ?_
  refine (Exec.holds_pushFrame _).anyFault.bind fun _ => ?_
  rw [show 0 + (args.length + 1) = 0 + 1 + args.length by omega]
  exact (Exec.Raises.bind (Exec.raises_push _) fun _ => Exec.raises_pushAll args).anyFault

theorem holds_idle : (Machine.idle constants globals limits heap).Holds [] 0
    (.idle constants globals limits heap) := ⟨.refl _, rfl, rfl⟩

/-- A call from outside begins with the stub on the machine. -/
theorem safe_supply {f : FunctionObject} {args : List Value} {m : Machine}
    (h : (call f args).supply (.idle constants globals limits heap) = .ok () m) :
    m.Safe constants limits ∧ m.stack.size = 0 + (args.length + 1) := by
  have hm := (holds_supply f args).ok holds_idle h
  refine ⟨safe_idle.of_kept hm.kept (fun g hg => ?_) fun g hg => ?_, hm.size⟩
  · rw [hm.frames, List.mem_singleton] at hg
    subst hg
    exact Nat.zero_le _
  · rw [hm.frames] at hg
    cases hg

/-- A machine that has been prepared is safe. -/
theorem safe_enter {l : Launch} (h : l.enter (.idle constants globals limits heap) = .ok () start) :
    start.Safe constants limits := by
  cases l with
  | main f =>
    have hm : (Machine.idle constants globals limits heap).Holds [.start f 0] (0 + f.numLocals)
        start := ((Exec.raises_pushUndefined _).anyFault.bind fun _ =>
          (Exec.holds_pushFrame _).anyFault).ok holds_idle h
    have hstack := hm.kept.stack (Nat.zero_le _)
    refine safe_idle.of_kept hm.kept (fun g hg => ?_) fun g hg => ?_
    · rw [hm.frames, List.mem_singleton] at hg
      subst hg
      rwa [hm.kept.capacity, hm.size] at hstack
    · rw [hm.frames] at hg
      cases hg
  | call f args =>
    obtain ⟨_, m, hsupply, hstart⟩ := Exec.bind_eq_ok.1 h
    obtain ⟨hm, hsize⟩ := safe_supply hsupply
    have hentered : (left (Exec.enterFunction f.function 0 args.length m)).Safe constants limits :=
      hm.enterFunction hsize
    rwa [show Exec.enterFunction f.function 0 args.length m = .ok () start from hstart] at hentered

end Launch

/-! ## Runs -/

/-- The machine is one that consecutive runs come to, each for any number of steps. -/
inductive Machine.Resumes (host : Host) (m : Machine) : Machine → Prop where
  | start : Resumes host m m
  | run {r : Machine} (steps : Nat) (h : Resumes host m r) :
    Resumes host m (left (r.run host steps))

namespace Checked

variable {host : Host} {constants globals : Array Value} {limits : Limits} {heap : Heap}
  {m : Machine}

def enter : Launch → Checked Unit
  | .main f => lift (Launch.main f).enter
  | .call f args => do
    lift (Launch.call f args).supply
    enterFunction f.function 0 args.length

/-- By induction on the steps, each of which agrees with its checked form as the machine is safe. -/
theorem run_eq (hn : limits.stackSize < 2 ^ 63)
    (hslots : ∀ f, .function f ∈ constants → f.function.NarrowSlots)
    (hm : m.Safe constants limits) (steps : Nat) : run host steps m = ofRun (m.run host steps) := by
  induction steps generalizing m with
  | zero => rfl
  | succ steps ih =>
    have hstep : (left (Exec.step host m)).Safe constants limits := hm.step
    have hagrees : step host m = lift (Exec.step host) m := agrees_step host hn hslots hm
    rw [run, Machine.run, hagrees, lift]
    cases hr : Exec.step host m with
    | ok r m' =>
      rw [hr] at hstep
      cases r with
      | none => exact ih hstep
      | some v => rfl
    | error e m' => rfl

end Checked

/-- No bytecode makes the machine panic. Whatever a unit's functions and a call's arguments are,
preparing a run passes all checks. So do consecutive runs of the machine, each of which may have
been stopped by a fault; and the machine stays within its limits, with the local slots of its
activations within the capacity of the stack and a callee beneath all but the outermost one. -/
theorem Launch.no_panic (host : Host) (l : Launch) {constants : Array Value}
    (globals : Array Value) {limits : Limits} (heap : Heap) (hn : limits.stackSize < 2 ^ 63)
    (hslots : ∀ f, .function f ∈ constants → f.function.NarrowSlots) :
    let idle := Machine.idle constants globals limits heap
    Checked.enter l idle = Checked.lift l.enter idle ∧
      ∀ start, l.enter idle = .ok () start → ∀ m, start.Resumes host m →
        m.stack.size ≤ limits.stackSize ∧ m.depth ≤ limits.maxFrames ∧
          (∀ f ∈ m.frames, f.base + f.function.numLocals ≤ limits.stackSize) ∧
          (∀ f ∈ m.frames.dropLast, 1 ≤ f.base) ∧
          ∀ steps, Checked.run host steps m = Checked.ofRun (m.run host steps) := by
  intro idle
  constructor
  · cases l with
    | main f => rfl
    | call f args =>
      refine Checked.agrees_first fun _ m hsupply => ?_
      obtain ⟨hm, hsize⟩ := safe_supply hsupply
      have hstack := hm.stack
      exact Checked.agrees_enterFunction hsize (by omega)
  · intro start hstart m hm
    have hsafe : m.Safe constants limits := by
      induction hm with
      | start => exact safe_enter hstart
      | run steps _ ih => exact ih.run steps
    exact ⟨hsafe.stack, hsafe.depth, hsafe.locals, hsafe.callee, Checked.run_eq hn hslots hsafe⟩

/-! ### A function that takes its own local off the stack

There is nothing left to capture then, so the first run faults. A second run goes on after that.
-/

def takesItsLocal : Function :=
  .ofCode #[Opcode.pop.byte, Opcode.closure.byte, 0, 0, Opcode.ret.byte, 1] 1 0

/-- The second run goes on where the fault of the first has left the machine. -/
theorem no_panic_takesItsLocal :
    ∃ start, (Launch.main takesItsLocal).enter
        (.idle #[.function ⟨0, .readsCaptured⟩] #[] {} { identities := 1 }) = .ok () start ∧
      ∀ n k, Checked.run sampleHost k (left (start.run sampleHost n)) =
        Checked.ofRun ((left (start.run sampleHost n)).run sampleHost k) := by
  have hslots : ∀ f, .function f ∈ #[Value.function ⟨0, .readsCaptured⟩] →
      f.function.NarrowSlots := by
    intro f hf slot hslot
    rw [List.mem_toArray, List.mem_singleton] at hf
    cases hf
    rw [Function.readsCaptured, List.mem_singleton] at hslot
    cases hslot
    decide
  have h := Launch.no_panic sampleHost (.main takesItsLocal) #[] { identities := 1 }
    (show ({} : Limits).stackSize < 2 ^ 63 by decide) hslots
  exact ⟨_, rfl, fun n k => (h.2 _ rfl _ (.run n .start)).2.2.2.2 k⟩

end ScriptVM
