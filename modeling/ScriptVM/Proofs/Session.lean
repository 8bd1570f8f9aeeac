import ScriptVM.Embedding.Program
import ScriptVM.Proofs.Launch
import ScriptVM.Proofs.Plan

/-!
# Sessions

A host has programs, contexts and handles to globals, and makes more of them from those it has. A
`Session` is the list of what it does: it makes something, it runs, calls or writes through a
handle, or it works on objects by itself. What it does is done with what is at hand by then.
-/

namespace ScriptVM

/-- The store that a computation leaves, with an answer or without. -/
def StoreM.after {α : Type} (x : StoreM α) (s : Store) : Store :=
  match x s with
  | .ok _ t => t
  | .error _ t => t

theorem StoreM.after_of_ok {α : Type} {x : StoreM α} {a : α} {s t : Store} (h : x s = .ok a t) :
    x.after s = t := by
  rw [after, h]

theorem StoreM.after_of_error {α : Type} {x : StoreM α} {e : Refusal} {s t : Store}
    (h : x s = .error e t) : x.after s = t := by
  rw [after, h]

/-! ## What has a handle

Programs and contexts share a handle to globals with what they have been made from, or get a new
one. Which it is follows from how they are made.
-/

/-- Something that a host has and that refers to globals. -/
inductive Holder where
  | program (p : Program)
  | context (c : Context)
  | globals (g : Globals)

def Holder.handle : Holder → Globals
  | program p => p.globals
  | context c => c.globals
  | globals g => g

/-- How a host comes by something that has a handle. -/
inductive Making where
  | globals (values : Array Value)
  | program (code : CompiledUnit) (names : List String)
  | context (constants : Option (Array Value)) (globals : Globals) (source : Option CompiledUnit)
  | clone (a : Holder)
  /-- The live handle of a program or context. -/
  | handle (a : Holder)
  | limitedProgram (p : Program) (limits : Limits)
  | limitedContext (c : Context) (limits : Limits)
  | contextOf (p : Program)
  | withGlobals (c : Context) (g : Globals)
  | withIsolatedGlobals (c : Context)
  | deepCopy (g : Globals)

namespace Making

def uses : Making → List Holder
  | globals _ | program _ _ => []
  | context _ g _ | deepCopy g => [.globals g]
  | clone a | handle a => [a]
  | limitedProgram p _ | contextOf p => [.program p]
  | limitedContext c _ | withIsolatedGlobals c => [.context c]
  | withGlobals c g => [.context c, .globals g]

/-- The handle that is handed on. If there is none, what is made gets a vector of its own. -/
def shared? : Making → Option Globals
  | globals _ | program _ _ | withIsolatedGlobals _ | deepCopy _ => none
  | context _ g _ | withGlobals _ g => some g
  | clone a | handle a => some a.handle
  | limitedProgram p _ | contextOf p => some p.globals
  | limitedContext c _ => some c.globals

def perform : Making → StoreM Holder
  | globals values => return .globals (← Globals.new values)
  | program code names => return .program (← Program.new code names)
  | context constants g source =>
    return .context (← StoreM.ofExcept (Context.new constants g source))
  | clone a => return a
  | handle a => return .globals a.handle
  | limitedProgram p limits => return .program (p.withLimits limits)
  | limitedContext c limits => return .context (c.withLimits limits)
  | contextOf p => return .context (← StoreM.ofExcept p.context)
  | withGlobals c g => return .context (c.withGlobals g)
  | withIsolatedGlobals c => return .context (← c.withIsolatedGlobals)
  | deepCopy g => return .globals (← g.deepCopy)

end Making

/-! ## Operations on globals

Whatever is done with globals goes through one handle. What is executed, what is answered and what
is written are told apart here, so that each can be compared with the store by itself.
-/

/-- What a run, or a call of a compiled function, executes. -/
structure Job where
  launch : Launch
  constants : Array Value
  limits : Limits
  steps : Nat

def Job.outcome (host : Host) (job : Job) (globals : Array Value) (heap : Heap) : Outcome :=
  job.launch.outcome host job.steps (.idle job.constants globals job.limits heap)

def Program.job (p : Program) (steps : Nat) : Job :=
  ⟨.main p.code.main, p.code.constants, p.limits, steps⟩

def Context.job (c : Context) (steps : Nat) (f : FunctionObject) (args : List Value) : Job :=
  ⟨.call f args, c.constants, c.limits, steps⟩

/-- What a host does with the globals of a handle. -/
inductive Operation where
  | run (p : Program) (steps : Nat)
  | call (c : Context) (steps : Nat) (callee : Value) (args : List Value)
  | callWithGlobals (c : Context) (steps : Nat) (callee : Value) (args : List Value)
  | set (p : Program) (name : String) (v : Value)
  | replaceGlobals (p : Program) (values : Array Value)
  | setSlot (g : Globals) (slot : Nat) (v : Value)
  | replace (g : Globals) (values : Array Value)

inductive Response where
  | result (a : Answer)
  /-- Whether the slot is there. -/
  | isThere (there : Bool)
  | done

namespace Operation

def holder : Operation → Holder
  | run p _ | set p _ _ | replaceGlobals p _ => .program p
  | call c _ _ _ | callWithGlobals c _ _ _ => .context c
  | setSlot g _ _ | replace g _ => .globals g

def handle (op : Operation) : Globals := op.holder.handle

/-- What is executed, unless only globals are written or the callee is no compiled function. -/
def job? : Operation → Option Job
  | run p steps => some (p.job steps)
  | call c steps (.function f) args | callWithGlobals c steps (.function f) args =>
    some (c.job steps f args)
  | _ => none

/-- The globals in the answer of a run or call that leaves these. -/
def answered? (globals : Array Value) : Operation → Option (Array Value)
  | callWithGlobals _ _ _ _ => some globals
  | _ => none

def callee? : Operation → Option Value
  | call _ _ callee _ | callWithGlobals _ _ callee _ => some callee
  | _ => none

/-- The values with another one in a slot, if there is such a slot. -/
def withSlot? (vs : Array Value) (slot : Nat) (v : Value) : Option (Array Value) :=
  if slot < vs.size then some (vs.setIfInBounds slot v) else none

/-- What the vector is overwritten with, if the operation is a write and succeeds. -/
def written? (vs : Array Value) : Operation → Option (Array Value)
  | set p name v => (p.slotOf? name).bind fun slot => withSlot? vs slot v
  | replaceGlobals p values => if values.size = p.names.length then some values else none
  | setSlot _ slot v => withSlot? vs slot v
  | replace _ values => some values
  | run _ _ | call _ _ _ _ | callWithGlobals _ _ _ _ => none

def perform (host : Host) : Operation → StoreM Response
  | run p steps => return .result ⟨← p.run host steps, none⟩
  | call c steps callee args => return .result ⟨← c.call host steps callee args, none⟩
  | callWithGlobals c steps callee args => do
    let (v, globals) ← c.callWithGlobals host steps callee args
    return .result ⟨v, some globals⟩
  | set p name v => do
    p.set name v
    return .done
  | replaceGlobals p values => do
    p.replaceGlobals values
    return .done
  | setSlot g slot v => return .isThere (← g.set slot v)
  | replace g values => do
    g.replace values
    return .done

/-- There is no answer, or the answer is that there is no such slot. -/
def Refused (host : Host) (op : Operation) (s : Store) : Prop :=
  match op.perform host s with
  | .ok r _ => r = .isThere false
  | .error _ _ => True

end Operation

/-! ## Sessions -/

/-- One of the things that a host does. -/
inductive Deed where
  | make (m : Making)
  | operate (op : Operation)
  /-- The host makes objects and writes to them, but to no vector of globals. -/
  | work (change : Heap → Heap)

/-- What a host has: the store, and all that it has with a handle. -/
structure Desk where
  store : Store
  holders : List Holder

/-- The handle is at hand. -/
def Desk.Has (d : Desk) (g : Globals) : Prop := ∃ a ∈ d.holders, a.handle = g

/-- The handles at hand are to vectors of the store. -/
def Desk.Sound (d : Desk) : Prop := ∀ g, d.Has g → g.index < d.store.vectors.size

namespace Deed

def uses : Deed → List Holder
  | make m => m.uses
  | operate op => [op.holder]
  | work _ => []

def handle? : Deed → Option Globals
  | operate op => some op.handle
  | make _ | work _ => none

/-- What a host has when it has done it. -/
def after (host : Host) (d : Desk) : Deed → Desk
  | make m =>
    match m.perform d.store with
    | .ok a t => ⟨t, a :: d.holders⟩
    | .error _ t => ⟨t, d.holders⟩
  | operate op => ⟨(op.perform host).after d.store, d.holders⟩
  | work change => ⟨{ d.store with heap := change d.store.heap }, d.holders⟩

variable {host : Host} {d : Desk} {m : Making} {t : Store}

/-- What has been made is at hand from then on. -/
theorem after_make_of_ok {a : Holder} (h : m.perform d.store = .ok a t) :
    (make m).after host d = ⟨t, a :: d.holders⟩ := by
  show (match m.perform d.store with
    | .ok a t => Desk.mk t (a :: d.holders)
    | .error _ t => ⟨t, d.holders⟩) = _
  rw [h]

/-- A making that is refused may have left new objects on the heap, and gives nothing at hand. -/
theorem after_make_of_error {e : Refusal} (h : m.perform d.store = .error e t) :
    (make m).after host d = ⟨t, d.holders⟩ := by
  show (match m.perform d.store with
    | .ok a t => Desk.mk t (a :: d.holders)
    | .error _ t => ⟨t, d.holders⟩) = _
  rw [h]

end Deed

/-- What a host does, one deed after the other. -/
abbrev Session := List Deed

namespace Session

variable (host : Host)

/-- What a host has when all has been done. A deed that is refused does not keep the host from
doing the next one. -/
def after : Session → Desk → Desk
  | [], d => d
  | deed :: session, d => after session (deed.after host d)

/-- Everything is done with what is at hand by then. -/
def Possible : Session → Desk → Prop
  | [], _ => True
  | deed :: session, d => (∀ a ∈ deed.uses, a ∈ d.holders) ∧ Possible session (deed.after host d)

end Session
end ScriptVM
