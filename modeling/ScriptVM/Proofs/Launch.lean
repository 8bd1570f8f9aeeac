import ScriptVM.Proofs.Height
import ScriptVM.Proofs.OutsideCall

/-!
# How runs begin and what they come to

A unit's run begins with its top-level function, a call from outside with the function and its
arguments on the stack. Both are a computation on an idle machine, and then the machine is run. What
comes of it is an `Outcome`, which also tells the globals of a run that has no value.
-/

namespace ScriptVM

open Exec (left)

variable {host : Host}

/-! ## Outcomes

A failed run has globals and a heap too. Some callers drop the globals, others look at them, so they
are part of what is compared.
-/

/-- What a run comes to: its value or why it has none, the globals and the heap. -/
structure Outcome where
  result : Except Stop Value
  globals : Array Value
  heap : Heap

def Outcome.ofRun : EStateM.Result Stop Machine Value → Outcome
  | .ok v m => ⟨.ok v, m.globals, m.heap⟩
  | .error s m => ⟨.error s, m.globals, m.heap⟩

/-- The outcome as a computation over the heap, where the globals of a run without a value are
lost. -/
def Outcome.toRun (o : Outcome) : EStateM.Result Stop Heap (Value × Array Value) :=
  match o.result with
  | .ok v => .ok (v, o.globals) o.heap
  | .error s => .error s o.heap

/-- What a run of a machine comes to, told as a computation, is how every run is finished. -/
theorem Outcome.toRun_ofRun (steps : Nat) (m : Machine) (h : Heap) :
    (Outcome.ofRun (m.run host steps)).toRun = RunM.finish host steps m h := by
  unfold RunM.finish
  cases m.run host steps <;> rfl

/-! ## Beginnings -/

/-- An idle machine with the stub on which a call from outside is made. -/
def Machine.onStub (pool globals : Array Value) (limits : Limits) (heap : Heap) : Machine :=
  { Machine.idle pool globals limits heap with frames := [.start rootStub 0] }

/-- An idle machine has no activation yet, so the stub only asks for room for one. -/
theorem Exec.pushFrame_rootStub (pool globals : Array Value) (limits : Limits) (heap : Heap) :
    pushFrame (.start rootStub 0) (.idle pool globals limits heap) =
      if 0 < limits.maxFrames then .ok () (.onStub pool globals limits heap)
      else .error .stackOverflow (.idle pool globals limits heap) :=
  pushFrame_eq ..

/-- A call that has been prepared has found room for the callee, and for two activations. -/
theorem Exec.entered_of_enterCall {f : FunctionObject} {args : List Value}
    {pool globals : Array Value} {limits : Limits} {heap : Heap} {start : Machine}
    (h : enterCall f args (.idle pool globals limits heap) = .ok () start) :
    (Machine.onStub pool globals limits heap).Entered (.start f.function 1) start ∧
      0 < limits.stackSize := by
  obtain ⟨_, m₁, hframe, h⟩ := bind_eq_ok.1 h
  obtain ⟨_, m₂, hpush, h⟩ := bind_eq_ok.1 h
  obtain ⟨_, m₃, hargs, hstart⟩ := bind_eq_ok.1 h
  have hm₁ : m₁ = .onStub pool globals limits heap := by
    rw [pushFrame_rootStub] at hframe
    split at hframe
    · cases hframe
      rfl
    · cases hframe
  rw [← hm₁]
  have hm₂ := (keepsFrames_push _ m₁).ok ⟨rfl, rfl, rfl⟩ hpush
  have hm₃ := (keepsFrames_pushAll _ m₁).ok hm₂ hargs
  refine ⟨(ensures_enterFunction f.function 0 args.length m₁).ok hm₃ hstart, ?_⟩
  -- The function itself has found room on the stack.
  rw [push_eq, hm₁] at hpush
  split at hpush
  · assumption
  · cases hpush

/-- When the call has been prepared, the target is about to begin on the stub. -/
theorem Exec.frames_of_enterCall {f : FunctionObject} {args : List Value}
    {pool globals : Array Value} {limits : Limits} {heap : Heap} {start : Machine}
    (h : enterCall f args (.idle pool globals limits heap) = .ok () start) :
    start.frames = [.start f.function 1, .start rootStub 0] ∧ 0 < start.stack.capacity := by
  obtain ⟨hentered, hroom⟩ := entered_of_enterCall h
  exact ⟨hentered.frames, hentered.capacity ▸ hroom⟩

/-- A call that has been prepared has been given a number of arguments that the target accepts. -/
theorem Exec.accepted_of_enterCall {f : FunctionObject} {args : List Value}
    {m start : Machine} (h : enterCall f args m = .ok () start) :
    f.function.checkArity args.length = .ok () := by
  obtain ⟨_, m₁, -, h⟩ := bind_eq_ok.1 h
  obtain ⟨_, m₂, -, h⟩ := bind_eq_ok.1 h
  obtain ⟨_, m₃, -, hstart⟩ := bind_eq_ok.1 h
  obtain ⟨_, m₄, hcheck, -⟩ := bind_eq_ok.1 hstart
  rw [ofExcept_eq] at hcheck
  cases harity : f.function.checkArity args.length with
  | ok _ => rfl
  | error e =>
    rw [harity] at hcheck
    cases hcheck

/-- What is run: a unit's top-level function, or a function called from outside. -/
inductive Launch where
  | main (f : Function)
  | call (f : FunctionObject) (args : List Value)

namespace Launch

/-- Checks what is called and puts it on the stack with its arguments. -/
def supply : Launch → Exec Unit
  | main _ => return
  | call f args => do
    Exec.ofExcept (validateConstants (← get).constants)
    Exec.ofExcept (f.function.checkArity args.length)
    Exec.pushFrame (.start rootStub 0)
    Exec.push (.function f)
    Exec.pushAll args

/-- Starts the activation of what is called. -/
def start : Launch → Exec Unit
  | main f => Exec.enterMain f
  | call f args => Exec.enterFunction f.function 0 args.length

def enter (l : Launch) : Exec Unit := do
  l.supply
  l.start

/-- What the run of an idle machine comes to. -/
def outcome (host : Host) (steps : Nat) (l : Launch) (m : Machine) : Outcome :=
  match l.enter m with
  | .ok _ m => .ofRun (m.run host steps)
  | .error e m => ⟨.error (.fault e), m.globals, m.heap⟩

/-! ## The states of a run -/

/-- The states that the run goes on from in its first so many steps. -/
def trail (host : Host) (steps : Nat) (l : Launch) (m : Machine) : List Machine :=
  match l.enter m with
  | .ok _ start => start.trail host steps
  | .error _ _ => []

/-- If the run is over after so many steps, it has only gone on from the states on its trail. -/
theorem mem_trail {l : Launch} {steps : Nat} {m start r : Machine}
    (henter : l.enter m = .ok () start) (hr : start.Reaches host r)
    (hover : (l.outcome host steps m).result ≠ .error .outOfSteps) :
    r ∈ l.trail host steps m := by
  rw [outcome, henter] at hover
  rw [trail, henter]
  apply hr.mem_trail
  unfold Machine.isOver
  cases hrun : start.run host steps with
  | ok v m' => rfl
  | error s m' =>
    cases s with
    | fault e => rfl
    | outOfSteps =>
      dsimp only at hover
      rw [hrun] at hover
      exact absurd rfl hover

/-! ## Runs of units and calls from outside

A run of a unit and a call from outside are made into launches here, so that what is proved of
launches holds of both.
-/

/-- Filling slots is nothing to the heap. -/
theorem heap_pushUndefined (n : Nat) (m : Machine) :
    (left (Exec.pushUndefined n m)).heap = m.heap := by
  induction n generalizing m with
  | zero => rfl
  | succ n ih =>
    rw [Exec.pushUndefined, Exec.bind_eq, Exec.push_eq]
    by_cases hlt : m.stack.values.size < m.stack.capacity <;> simp only [hlt, if_true, if_false]
    · exact ih _
    · rfl

/-- A failed preparation leaves the heap as it was. -/
theorem heap_enterMain (f : Function) (m : Machine) :
    (left (Exec.enterMain f m)).heap = m.heap := by
  have hpush := heap_pushUndefined f.numLocals m
  rw [Exec.enterMain, Exec.bind_eq]
  cases hr : Exec.pushUndefined f.numLocals m with
  | error e m' =>
    rw [hr] at hpush
    exact hpush
  | ok _ m' =>
    rw [hr] at hpush
    dsimp only
    rw [Exec.pushFrame_eq]
    split <;> exact hpush

/-- A unit's run is that of its top-level function. -/
theorem run_eq_outcome (steps : Nat) (u : CompiledUnit) (globals : Array Value) (limits : Limits)
    (h : Heap) :
    u.run host steps globals limits h =
      ((main u.main).outcome host steps (.idle u.constants globals limits h)).toRun := by
  have henter : (main u.main).enter = Exec.enterMain u.main := rfl
  have hheap := heap_enterMain u.main (.idle u.constants globals limits h)
  rw [CompiledUnit.run_eq, outcome, henter, Machine.ofUnit]
  cases hx : Exec.enterMain u.main (.idle u.constants globals limits h) with
  | ok _ m => exact (Outcome.toRun_ofRun steps m h).symm
  | error e m =>
    rw [hx] at hheap
    exact congrArg (EStateM.Result.error (Stop.fault e)) hheap.symm

/-- A call is prepared in the same way when it is made from outside, after the checks. -/
theorem enter_call_eq (f : FunctionObject) (args : List Value) (pool globals : Array Value)
    (limits : Limits) (h : Heap) :
    (call f args).enter (.idle pool globals limits h) =
      (do
        Exec.ofExcept (validateConstants pool)
        Exec.ofExcept (f.function.checkArity args.length)
        Exec.enterCall f args : Exec Unit) (.idle pool globals limits h) := by
  simp only [enter, supply, start, Exec.enterCall, bind_assoc]
  rfl

/-- A call from outside is the run of the function that is called. -/
theorem invoke_eq_outcome (steps : Nat) (f : FunctionObject) (pool globals : Array Value)
    (args : List Value) (limits : Limits) (h : Heap) :
    f.invoke host steps (some pool) globals args limits h =
      ((call f args).outcome host steps (.idle pool globals limits h)).toRun := by
  rw [FunctionObject.invoke_eq, outcome, enter_call_eq]
  cases validateConstants pool with
  | error e => rfl
  | ok _ =>
    cases f.function.checkArity args.length with
    | error e => rfl
    | ok _ =>
      show _ = Outcome.toRun (match Exec.enterCall f args (.idle pool globals limits h) with
        | .ok _ m => .ofRun (m.run host steps)
        | .error e m => ⟨.error (.fault e), m.globals, m.heap⟩)
      cases Exec.enterCall f args (.idle pool globals limits h) with
      | ok _ m => exact (Outcome.toRun_ofRun steps m h).symm
      | error e m => rfl

/-- At the beginning all activations are fresh. -/
theorem fresh_of_enter {l : Launch} {pool globals : Array Value} {limits : Limits} {h : Heap}
    {m : Machine} (henter : l.enter (.idle pool globals limits h) = .ok () m) :
    ∀ f ∈ m.frames, ∃ function base, f = .start function base := by
  cases l with
  | main main =>
    obtain ⟨_, m₀, hsupply, hstart⟩ := Exec.bind_eq_ok.1 henter
    cases hsupply
    obtain ⟨_, m₁, hpush, hframe⟩ := Exec.bind_eq_ok.1 hstart
    have hm₁ := (Exec.keepsFrames_pushUndefined main.numLocals _).ok ⟨rfl, rfl, rfl⟩ hpush
    have hentered := (Exec.ensures_pushFrame _ _).ok hm₁ hframe
    rw [hentered.frames]
    intro f hf
    exact ⟨main, 0, List.mem_singleton.1 hf⟩
  | call f args =>
    have hsame {α : Type} {x : Except Fault α} {a : α} {m m' : Machine}
        (hx : Exec.ofExcept x m = .ok a m') : m = m' := by
      cases x <;> cases hx
      rfl
    rw [enter_call_eq] at henter
    obtain ⟨_, m₁, hpool, henter⟩ := Exec.bind_eq_ok.1 henter
    obtain ⟨_, m₂, harity, henter⟩ := Exec.bind_eq_ok.1 henter
    obtain rfl := hsame hpool
    obtain rfl := hsame harity
    rw [(Exec.frames_of_enterCall henter).1]
    intro g hg
    simp only [List.mem_cons, List.not_mem_nil, or_false] at hg
    rcases hg with rfl | rfl
    · exact ⟨f.function, 1, rfl⟩
    · exact ⟨rootStub, 0, rfl⟩

/-- No activation has a cell at the beginning. -/
theorem promoted_of_enter {l : Launch} {pool globals : Array Value} {limits : Limits} {h : Heap}
    {m : Machine} (henter : l.enter (.idle pool globals limits h) = .ok () m) :
    ∀ f ∈ m.frames, f.promoted = [] := by
  intro f hf
  obtain ⟨function, base, rfl⟩ := fresh_of_enter henter f hf
  rfl

end Launch
end ScriptVM
