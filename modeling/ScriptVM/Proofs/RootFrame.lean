import ScriptVM.Proofs.CallerKept
import ScriptVM.Proofs.LimitedRun
import ScriptVM.Proofs.LocalCells
import ScriptVM.Proofs.Moments

/-!
# The stub beneath a call from outside

A call from outside begins with an activation of a stub, and the activation of what is called on it.
Whatever the code does, the stub stays at the bottom, since the only way to it is the return of the
target, and then the stub ends the run. So there is always an activation to execute or to return
from. The result is the only value on the stack when the stub reads it: the return has dropped
everything from the target itself on.
-/

namespace ScriptVM

open Exec (left)

variable {host : Host} {start m : Machine} {target : Function}

/-! ## The activations of a call

While the target is active, its activation is the second from the bottom. When it has returned, the
stub is the only one left, and the run ends with the next step.
-/

/-- An activation of the stub. -/
def Frame.OfStub (f : Frame) : Prop := f.function = rootStub ∧ f.base = 0

/-- How the activations stand in the course of a call from outside. -/
inductive Machine.Rooted (host : Host) (start : Machine) (target : Function) (m : Machine) :
    Prop where
  /-- The stub is at the bottom, and the target is on it. -/
  | active {upper : List Frame} {t root : Frame} (hframes : m.frames = upper ++ [t, root])
    (htarget : t.function = target) (hbase : t.base = 1) (hroot : root.OfStub)
  /-- The target has returned, and only the stub is left. -/
  | returned {r landed : Machine} {v : Value} {root : Frame} (hreached : start.Reaches host r)
    (hdepth : r.depth = 2) (hreturns : r.Returns v) (hstep : Exec.step host r = .ok none landed)
    (hlater : landed.Visits host m) (hframes : m.frames = [root]) (hroot : root.OfStub)

/-- The bottom activation is one of the stub. -/
theorem Machine.Rooted.bottom (h : start.Rooted host target m) :
    ∃ upper root, m.frames = upper ++ [root] ∧ root.OfStub := by
  cases h with
  | @active upper t root hframes _ _ hroot =>
    refine ⟨upper ++ [t], root, ?_, hroot⟩
    rw [hframes, List.append_assoc]
    rfl
  | returned _ _ _ _ _ hframes hroot => exact ⟨[], _, hframes, hroot⟩

/-- The stub is there, whatever else is. -/
theorem Machine.Rooted.frames_ne_nil (h : start.Rooted host target m) : m.frames ≠ [] := by
  obtain ⟨upper, root, hframes, -⟩ := h.bottom
  rw [hframes]
  simp

/-! ## Beginning -/

/-- Preparing the call does not fail for want of an activation. -/
theorem Exec.framed_enterCall {f : FunctionObject} {args : List Value} {e : Fault} {m' : Machine}
    (h : enterCall f args m = .error e m') : e.Framed host := by
  unfold enterCall at h
  rw [bind_eq, pushFrame_eq] at h
  by_cases hlt : m.frames.length < m.maxFrames
  · rw [if_pos hlt] at h
    have hperforms : Performs host .call 0 (do
        push (.function f)
        pushAll args
        enterFunction f.function 0 args.length) :=
      .first (uses_push _ (by decide)) fun _ => .first (uses_pushAll args (by decide)) fun _ =>
        performs_enterFunction _ _ _
    have hacts := hperforms.acts (i := ⟨.call, []⟩) (by simp) (by simp)
    have hfault := hacts { m with frames := .start rootStub 0 :: m.frames } _ _ rfl
    dsimp only at h
    rw [h] at hfault
    exact hfault
  · rw [if_neg hlt] at h
    cases h
    exact fun he => he.elim

/-! ## Steps -/

/-- A return of the target leaves only the result on the stack, for the stub. It does so however low
the stack has become. -/
theorem Machine.Returns.step_of_target {t root : Frame} {v : Value} (hret : m.Returns v)
    (hf : m.frames = [t, root]) (hb : t.base = 1) (hroom : 0 < m.stack.capacity) :
    Exec.step host m =
      .ok none { m with stack := ⟨#[v], m.stack.capacity⟩, frames := [root] } := by
  have hlow : ∀ i next, t.function.fetch t.ip = .instruction i next →
      0 + (if i.first = 0 then 0 else 1) ≤ m.stack.values.size := by
    intro i next hfetch
    obtain ⟨f', rest', i', next', hf', hfetch', -, hv⟩ := hret
    rw [hf] at hf'
    cases hf'
    rw [hfetch] at hfetch'
    cases hfetch'
    by_cases h0 : i.first = 0
    · simp [h0]
    · rw [if_neg h0] at hv ⊢
      obtain ⟨values, hvalues⟩ := Array.back?_eq_some_iff.1 hv
      rw [hvalues, Array.size_push]
      omega
  rw [hret.step_eq_of_le host hf (by simp) hb hlow, if_pos hroom]
  simp

/-- The result is the top of the stack, if something is above the slots of the activation. -/
theorem Exec.haltResult_eq {f : Frame} {rest : List Frame} (hf : m.frames = f :: rest) :
    haltResult m =
      if f.base + f.function.numLocals < m.stack.size then top m else .ok .undefined m := by
  unfold haltResult
  rw [bind_eq, frame_eq hf]
  dsimp only
  rw [bind_eq, stackSize_eq]
  dsimp only
  split
  · rfl
  · rfl

/-- The stub ends the run with what is on the stack. -/
theorem Machine.step_of_stub (host : Host) (hf : m.frames = [.start rootStub 0]) :
    ∃ w, Exec.step host m = .ok (some w) (m.goTo 1) ∧ ∀ v, m.stack.values = #[v] → w = v := by
  have hfetch : (Frame.start rootStub 0).function.fetch (Frame.start rootStub 0).ip =
      .instruction ⟨.halt, []⟩ 1 := by decide
  have hstep : Exec.step host m = (do return some (← Exec.haltResult)) (m.goTo 1) := by
    rw [Exec.step_eq host hf, hfetch]
    rfl
  have hstack := stack_goTo m 1
  rw [hstep, Exec.bind_eq, Exec.haltResult_eq (frames_goTo hf 1)]
  generalize m.goTo 1 = m₁ at hstack
  by_cases hlt : 0 < m₁.stack.values.size
  · rw [if_pos (by exact hlt), Exec.top, Exec.onStack_eq, Stack.peek, if_pos hlt,
      Array.getElem?_eq_getElem (by omega)]
    refine ⟨_, rfl, ?_⟩
    intro v hv
    simp [hstack, hv]
  · rw [if_neg (by exact hlt)]
    refine ⟨.undefined, rfl, ?_⟩
    intro v hv
    rw [hstack, hv] at hlt
    exact absurd Nat.one_pos hlt

/-- The activations after a step, however it ends: the executing one has gone on, perhaps beneath
another one, or it has been left by a return. -/
theorem Exec.frames_of_step (host : Host) {f : Frame} {rest : List Frame}
    (hf : m.frames = f :: rest) :
    (∃ f', f'.function = f.function ∧ f'.base = f.base ∧
      ((left (step host m)).frames = f' :: rest ∨
        ∃ g, (left (step host m)).frames = g :: f' :: rest)) ∨
    (∃ i next, f.function.fetch f.ip = .instruction i next ∧ i.op = .ret ∧
      (left (step host m)).frames = rest) := by
  have hframes {i : Instruction} {next : Nat} {m' : Machine}
      (hfetch : f.function.fetch f.ip = .instruction i next)
      (hmoved : Moved i m { f with ip := next } rest m') :
      (∃ f', f'.function = f.function ∧ f'.base = f.base ∧
        (m'.frames = f' :: rest ∨ ∃ g, m'.frames = g :: f' :: rest)) ∨
      (∃ i next, f.function.fetch f.ip = .instruction i next ∧ i.op = .ret ∧ m'.frames = rest) := by
    rcases hmoved.frames with ⟨f', hfunction, hbase, hf' | ⟨function, callee, hf'⟩⟩ | ⟨hop, hf'⟩
    · exact .inl ⟨f', hfunction, hbase, .inl hf'⟩
    · exact .inl ⟨f', hfunction, hbase, .inr ⟨_, hf'⟩⟩
    · exact .inr ⟨i, next, hfetch, hop, hf'⟩
  have h := moves_step host hf
  cases hs : step host m with
  | ok r m' =>
    rw [hs] at h
    obtain ⟨i, next, hfetch, hmoved⟩ := h
    exact hframes hfetch hmoved
  | error e m' =>
    rw [hs] at h
    rcases h with ⟨ip, he⟩ | ⟨i, next, hfetch, hmoved⟩
    · obtain ⟨f', hfunction, hbase, -, hf'⟩ := he.top
      exact .inl ⟨f', hfunction, hbase, .inl hf'⟩
    · exact hframes hfetch hmoved

/-- An activation that a step has left has returned a value. -/
theorem Machine.returns_of_left {f : Frame} {rest : List Frame} {i : Instruction} {next : Nat}
    (hf : m.frames = f :: rest) (hfetch : f.function.fetch f.ip = .instruction i next)
    (hop : i.op = .ret) (hleft : (left (Exec.step host m)).frames = rest) : ∃ v, m.Returns v := by
  by_cases h0 : i.first = 0
  · exact ⟨.undefined, f, rest, i, next, hf, hfetch, hop, by rw [if_pos h0]⟩
  cases hv : m.stack.values.back? with
  | some v => exact ⟨v, f, rest, i, next, hf, hfetch, hop, by rw [if_neg h0, hv]⟩
  | none =>
    -- Without a value on the stack the activation would not have been left.
    have hstep : Exec.step host m = .error .stackUnderflow (m.goTo next) := by
      rw [Exec.step_eq host hf, hfetch]
      dsimp only
      rw [Exec.execute, hop]
      dsimp only
      rw [Exec.bind_eq, Exec.returnValue, if_pos (by simpa using h0), Exec.pop_eq, stack_goTo, hv]
    rw [hstep] at hleft
    have hlength := congrArg List.length ((frames_goTo hf next).symm.trans hleft)
    simp at hlength

/-- The target is active in a machine that the run goes on from, and the stub is as it was at the
beginning. -/
def Machine.TargetActive (target : Function) (m : Machine) : Prop :=
  ∃ upper t, m.frames = upper ++ [t, .start rootStub 0] ∧ t.function = target ∧ t.base = 1

/-- While the target is active, a step leaves it so, however it ends, unless the target returns. -/
theorem Machine.TargetActive.step (host : Host) (h : m.TargetActive target)
    (hroom : 0 < m.stack.capacity) :
    (left (Exec.step host m)).TargetActive target ∨
      ∃ v, m.depth = 2 ∧ m.Returns v ∧ Exec.step host m =
        .ok none { m with
          stack := ⟨#[v], m.stack.capacity⟩
          frames := [.start rootStub 0] } := by
  obtain ⟨upper, t, hf, htarget, hbase⟩ := h
  cases upper with
  | cons u upper =>
    -- Another activation executes, and the target stays beneath it.
    left
    rcases Exec.frames_of_step host hf with ⟨u', -, -, hf' | ⟨g, hf'⟩⟩ | ⟨-, -, -, -, hf'⟩
    · exact ⟨u' :: upper, t, hf', htarget, hbase⟩
    · exact ⟨g :: u' :: upper, t, hf', htarget, hbase⟩
    · exact ⟨upper, t, hf', htarget, hbase⟩
  | nil =>
    rcases Exec.frames_of_step host hf with ⟨t', hfunction, hb, hf' | ⟨g, hf'⟩⟩ |
      ⟨i, next, hfetch, hop, hf'⟩
    · exact .inl ⟨[], t', hf', hfunction.trans htarget, hb.trans hbase⟩
    · exact .inl ⟨[g], t', hf', hfunction.trans htarget, hb.trans hbase⟩
    · obtain ⟨v, hret⟩ := returns_of_left hf hfetch hop hf'
      refine .inr ⟨v, ?_, hret, hret.step_of_target hf hbase hroom⟩
      rw [depth, hf]
      rfl

/-! ## Runs

An induction over the steps: in each state either the target is active or only the stub is left.
-/

/-- A machine that the run of a call goes on from. -/
theorem Machine.Reaches.targetActive_or (hstart : start.TargetActive target)
    (hroom : 0 < start.stack.capacity) (h : start.Reaches host m) :
    0 < m.stack.capacity ∧ (m.TargetActive target ∨
      ∃ r v, start.Reaches host r ∧ r.depth = 2 ∧ r.Returns v ∧ Exec.step host r = .ok none m ∧
        m = { r with stack := ⟨#[v], r.stack.capacity⟩, frames := [.start rootStub 0] }) := by
  induction h with
  | start => exact ⟨hroom, .inl hstart⟩
  | @step r m hr hs ih =>
    obtain ⟨hroom, hactive | ⟨_, _, _, _, _, _, heq⟩⟩ := ih
    · have hkept := Exec.kept_step host r
      rw [hs] at hkept
      refine ⟨hkept.capacity ▸ hroom, ?_⟩
      rcases hactive.step host hroom with hactive' | ⟨v, hdepth, hret, hs'⟩
      · rw [hs] at hactive'
        exact .inl hactive'
      · refine .inr ⟨r, v, hr, hdepth, hret, hs, ?_⟩
        rw [hs] at hs'
        cases hs'
        rfl
    · -- The stub ends the run, so nothing comes after it.
      obtain ⟨w, hend, -⟩ := r.step_of_stub host (by rw [heq])
      rw [hs] at hend
      cases hend

/-- The activations midway through an instruction are those at its beginning. -/
theorem Exec.frames_of_midway {f : Frame} {rest : List Frame} (hf : m.frames = f :: rest) :
    ∃ f', f'.function = f.function ∧ f'.base = f.base ∧
      (left (midway m)).frames = f' :: rest := by
  unfold midway
  rw [bind_eq, instruction_eq hf]
  cases f.function.fetch f.ip with
  | fault e ip => exact ⟨{ f with ip := ip }, rfl, rfl, Machine.frames_goTo hf ip⟩
  | instruction i next =>
    have hstays : Stays (spreads i) := by
      unfold spreads
      split
      · exact (stays_spreadLast i.first).discard
      · exact stays_pure ()
    have h := hstays _ _ _ (m.goTo next) (.self (Machine.frames_goTo hf next))
    dsimp only
    cases hs : spreads i (m.goTo next) with
    | ok _ m' =>
      rw [hs] at h
      obtain ⟨f', hfunction, hbase, -, hf'⟩ := h.top
      exact ⟨f', hfunction, hbase, hf'⟩
    | error e m' =>
      rw [hs] at h
      obtain ⟨f', hfunction, hbase, -, hf'⟩ := h.top
      exact ⟨f', hfunction, hbase, hf'⟩

/-- Every machine that the run of a call visits has the stub at the bottom, and the target on it
until the target has returned. -/
theorem Machine.Visits.rooted (hstart : start.TargetActive target)
    (hroom : 0 < start.stack.capacity) (h : start.Visits host m) :
    start.Rooted host target m := by
  have hstub : (Frame.start rootStub 0).OfStub := ⟨rfl, rfl⟩
  have hactive {m : Machine} (hm : m.TargetActive target) : start.Rooted host target m := by
    obtain ⟨upper, t, hf, htarget, hbase⟩ := hm
    exact .active hf htarget hbase hstub
  cases h with
  | reached hr =>
    obtain ⟨-, hm | ⟨r, v, hr, hdepth, hret, hs, heq⟩⟩ := hr.targetActive_or hstart hroom
    · exact hactive hm
    · exact .returned hr hdepth hret hs (.reached .start) (by rw [heq]) hstub
  | @midway r hr =>
    obtain ⟨-, ⟨upper, t, hf, htarget, hbase⟩ | ⟨r₀, v, hr₀, hdepth, hret, hs, heq⟩⟩ :=
      hr.targetActive_or hstart hroom
    · cases upper with
      | nil =>
        obtain ⟨t', hfunction, hb, hf'⟩ := Exec.frames_of_midway hf
        exact hactive ⟨[], t', hf', hfunction.trans htarget, hb.trans hbase⟩
      | cons u upper =>
        obtain ⟨u', -, -, hf'⟩ := Exec.frames_of_midway hf
        exact hactive ⟨u' :: upper, t, hf', htarget, hbase⟩
    · have hf : r.frames = [.start rootStub 0] := by rw [heq]
      obtain ⟨root, hfunction, hb, hf'⟩ := Exec.frames_of_midway hf
      exact .returned hr₀ hdepth hret hs (.midway .start) hf' ⟨hfunction, hb⟩
  | @stopped r hr =>
    obtain ⟨hroom', hm | ⟨r₀, v, hr₀, hdepth, hret, hs, heq⟩⟩ := hr.targetActive_or hstart hroom
    · rcases hm.step host hroom' with hm' | ⟨v, hdepth, hret, hs⟩
      · exact hactive hm'
      · rw [hs]
        exact .returned hr hdepth hret hs (.reached .start) rfl hstub
    · have hf : r.frames = [.start rootStub 0] := by rw [heq]
      obtain ⟨w, hend, -⟩ := r.step_of_stub host hf
      have hvisits : r.Visits host (left (Exec.step host r)) := .stopped .start
      rw [hend] at hvisits ⊢
      exact .returned hr₀ hdepth hret hs hvisits (frames_goTo hf 1) hstub

/-- When the target returns, the run is over with what it returns after one more instruction. -/
theorem Machine.Returns.run_of_target {v : Value} (hret : m.Returns v)
    (hm : m.TargetActive target) (hdepth : m.depth = 2) (hroom : 0 < m.stack.capacity) (k : Nat) :
    ∃ m', m.run host (2 + k) = .ok v m' ∧ m'.globals = m.globals ∧ m'.heap = m.heap := by
  obtain ⟨upper, t, hf, -, hbase⟩ := hm
  obtain rfl : upper = [] := by
    rw [depth, hf] at hdepth
    simpa using hdepth
  obtain ⟨w, hend, hw⟩ := step_of_stub host
    (m := { m with stack := ⟨#[v], m.stack.capacity⟩, frames := [.start rootStub 0] }) rfl
  obtain rfl := hw v rfl
  have hrun : m.run host (2 + k) = .ok w (({ m with
      stack := ⟨#[w], m.stack.capacity⟩
      frames := [.start rootStub 0] } : Machine).goTo 1) := by
    rw [show 2 + k = k + 1 + 1 by omega, run, hret.step_of_target hf hbase hroom]
    dsimp only
    rw [run, hend]
  exact ⟨_, hrun, globals_goTo _ 1, heap_goTo _ 1⟩

/-- No fault that a run ends with says that there is no activation. -/
theorem Machine.framed_run (hstart : start.TargetActive target) (hroom : 0 < start.stack.capacity)
    {steps : Nat} {e : Fault} (h : start.run host steps = .error (.fault e) m) : e.Framed host := by
  obtain ⟨r, hr, hs⟩ := step_of_fault h
  have hrooted := (Visits.reached hr).rooted hstart hroom
  exact Exec.framed_step hrooted.frames_ne_nil hs

/-! ## Calls -/

namespace FunctionObject

variable {f : FunctionObject} {pool globals : Array Value} {args : List Value} {limits : Limits}
  {heap : Heap}

/-- The preparation puts the target on the stub, after it has found room for the target on the
stack. -/
theorem targetActive_of_enterCall
    (h : Exec.enterCall f args (.idle pool globals limits heap) = .ok () start) :
    start.TargetActive f.function ∧ 0 < start.stack.capacity := by
  obtain ⟨hf, hroom⟩ := Exec.frames_of_enterCall h
  exact ⟨⟨[], _, hf, rfl, rfl⟩, hroom⟩

/-- The call is over with what the target returns. -/
theorem invoke_of_returns {v : Value} (hpool : validateConstants pool = .ok ())
    (henter : Exec.enterCall f args (.idle pool globals limits heap) = .ok () start)
    (hm : start.Reaches host m) (hdepth : m.depth = 2) (hret : m.Returns v) :
    ∃ n, ∀ k, f.invoke host (n + k) (some pool) globals args limits heap =
      .ok (v, m.globals) m.heap := by
  obtain ⟨hstart, hroom⟩ := targetActive_of_enterCall henter
  have harity := Exec.accepted_of_enterCall henter
  obtain ⟨n, hn⟩ := Machine.reaches_iff_after.1 hm
  obtain ⟨hroom', hm' | ⟨_, _, _, _, _, _, heq⟩⟩ := hm.targetActive_or hstart hroom
  · refine ⟨n + 2, fun k => ?_⟩
    obtain ⟨m', hrun, hglobals, hheap⟩ := hret.run_of_target hm' hdepth hroom' k
    rw [invoke_eq, hpool, harity, henter]
    dsimp only
    rw [RunM.finish, Nat.add_assoc, Machine.run_of_after hn, hrun]
    dsimp only
    rw [hglobals, hheap]
  · -- The stub alone is one activation.
    rw [heq] at hdepth
    cases hdepth

/-- No fault of a call from outside says that there is no activation. -/
theorem framed_invoke {steps : Nat} {e : Fault} {heap' : Heap}
    (h : f.invoke host steps (some pool) globals args limits heap = .error (.fault e) heap') :
    e.Framed host := by
  rw [invoke_eq] at h
  cases hpool : validateConstants pool with
  | error e' =>
    rw [hpool] at h
    cases h
    unfold validateConstants at hpool
    split at hpool
    · cases hpool
      exact fun he => he.elim
    · cases hpool
  | ok _ =>
    rw [hpool] at h
    cases harity : f.function.checkArity args.length with
    | error e' =>
      rw [harity] at h
      cases h
      exact Exec.framed_checkArity harity
    | ok _ =>
      rw [harity] at h
      dsimp only at h
      cases henter : Exec.enterCall f args (.idle pool globals limits heap) with
      | error e' m' =>
        rw [henter] at h
        cases h
        exact Exec.framed_enterCall henter
      | ok _ start =>
        rw [henter] at h
        dsimp only at h
        obtain ⟨hstart, hroom⟩ := targetActive_of_enterCall henter
        unfold RunM.finish at h
        cases hrun : start.run host steps with
        | ok v m' =>
          rw [hrun] at h
          cases h
        | error s m' =>
          rw [hrun] at h
          cases h
          exact Machine.framed_run hstart hroom hrun

end FunctionObject

/-- A call from outside is made on the stub. In whatever state it is, the stub is at the bottom of
the activations, and the target is on it until it has returned. So there is always an activation,
and no fault says that there is none. When the target returns, the call is over with what it returns
and with the globals that there are then. -/
theorem FunctionObject.invoke_on_stub (f : FunctionObject) (pool globals : Array Value)
    (args : List Value) (limits : Limits) (heap : Heap) :
    (∀ start, validateConstants pool = .ok () →
      Exec.enterCall f args (.idle pool globals limits heap) = .ok () start →
      (∀ m, start.Visits host m → start.Rooted host f.function m ∧ m.frames ≠ []) ∧
      ∀ m v, start.Reaches host m → m.depth = 2 → m.Returns v →
        ∃ n, ∀ k, f.invoke host (n + k) (some pool) globals args limits heap =
          .ok (v, m.globals) m.heap) ∧
    ∀ steps e heap',
      f.invoke host steps (some pool) globals args limits heap = .error (.fault e) heap' →
        e.Framed host := by
  constructor
  · intro start hpool henter
    obtain ⟨hstart, hroom⟩ := targetActive_of_enterCall henter
    constructor
    · intro m hm
      have hrooted := hm.rooted hstart hroom
      exact ⟨hrooted, hrooted.frames_ne_nil⟩
    · intro m v hm hdepth hret
      exact invoke_of_returns hpool henter hm hdepth hret
  · intro steps e heap' h
    exact framed_invoke h

/-! ### A target that takes itself off the stack

The function pops its argument and then itself before it returns a constant.
-/

def popsItself : FunctionObject :=
  ⟨0, .ofCode #[Opcode.pop.byte, Opcode.pop.byte, Opcode.true.byte, Opcode.ret.byte, 1] 1 1⟩

/-- The machine when `popsItself` has been entered, at an offset of its code and with so much on the
stack. -/
def poppingItself (ip : Nat) (values : Array Value) : Machine where
  constants := #[.int 1]
  stack := ⟨values, 4⟩
  frames := [⟨popsItself.function, ip, 1, []⟩, .start rootStub 0]
  maxFrames := 2
  globals := #[.int 5]
  budget := none
  heap := {}

/-- What is returned is the result, though there is nothing beneath it at the return. -/
theorem invoke_popsItself :
    (∀ m, (poppingItself 0 #[.function popsItself, .int 7]).Visits sampleHost m →
      (poppingItself 0 #[.function popsItself, .int 7]).Rooted sampleHost popsItself.function m ∧
        m.frames ≠ []) ∧
    (∃ n, ∀ k, popsItself.invoke sampleHost (n + k) (some #[.int 1]) #[.int 5] [.int 7]
      ⟨4, 2, none⟩ {} = .ok (.bool true, #[.int 5]) {}) ∧
    ∀ steps e heap', popsItself.invoke sampleHost steps (some #[.int 1]) #[.int 5] [.int 7]
      ⟨4, 2, none⟩ {} = .error (.fault e) heap' → e.Framed sampleHost := by
  have henter : Exec.enterCall popsItself [.int 7] (.idle #[.int 1] #[.int 5] ⟨4, 2, none⟩ {}) =
      .ok () (poppingItself 0 #[.function popsItself, .int 7]) := by rfl
  have hreached : (poppingItself 0 #[.function popsItself, .int 7]).Reaches sampleHost
      (poppingItself 3 #[.bool true]) := by
    have hsteps : Exec.step sampleHost (poppingItself 0 #[.function popsItself, .int 7]) =
          .ok none (poppingItself 1 #[.function popsItself]) ∧
        Exec.step sampleHost (poppingItself 1 #[.function popsItself]) =
          .ok none (poppingItself 2 #[]) ∧
        Exec.step sampleHost (poppingItself 2 #[]) = .ok none (poppingItself 3 #[.bool true]) := by
      refine ⟨?_, ?_, ?_⟩
      all_goals
        rw [Exec.step_eq sampleHost rfl]
        rfl
    exact ((Machine.Reaches.start.step hsteps.1).step hsteps.2.1).step hsteps.2.2
  have hreturns : (poppingItself 3 #[.bool true]).Returns (.bool true) :=
    ⟨_, _, ⟨.ret, [1]⟩, 5, rfl, by decide, rfl, rfl⟩
  obtain ⟨hcall, hfaults⟩ := popsItself.invoke_on_stub
    #[.int 1] #[.int 5] [.int 7] ⟨4, 2, none⟩ {}
  obtain ⟨hrooted, hresult⟩ := hcall _ (by simp [validateConstants, Value.isUndefined]) henter
  exact ⟨hrooted, hresult _ _ hreached rfl hreturns, hfaults⟩

end ScriptVM
