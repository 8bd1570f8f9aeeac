import ScriptVM.Proofs.Exec

/-!
# The effects of instructions

Instructions are put together from a few operations, and each kind of instruction uses only some of
the effects that operations can have on a machine. `Exec.Uses` says which effects a computation may
use, and is closed under sequencing; so whatever holds of the operations with these effects, and is
closed under sequencing too, holds of the computation. `Opcode.effects` is the list for each opcode.
Four operations reach beyond the executing activation and stand apart: `Exec.Performs` says which
instructions jump, enter a function, call a builtin or leave.
-/

namespace ScriptVM

/-! ## Effects -/

/-- What an operation may do to a machine, beside reading it. -/
inductive Effect where
  /-- Values are taken from the stack. -/
  | take
  /-- A value is put on the stack. -/
  | put
  /-- A value on the stack is overwritten. -/
  | store
  /-- A global is overwritten. -/
  | global
  /-- An allocation is taken from the budget. -/
  | charge
  /-- An object is made. -/
  | make
  /-- An object that is there already is written to. -/
  | write
  /-- The executing activation gives a local a cell, or parts it from one. -/
  | rebind
  deriving DecidableEq

/-- The effects of the instructions with an opcode, beside those of a builtin that is called. -/
def Opcode.effects : Opcode → List Effect
  | .jump | .halt => []
  | .constant | .null | .true | .false | .getGlobal | .getLocal | .getFree | .getBuiltin => [.put]
  | .pop | .jumpFalsy | .andJump | .orJump | .ret => [.take]
  | .equal | .notEqual | .lnot | .less | .lessEq | .greater | .greaterEq | .index => [.take, .put]
  | .minus | .bComplement | .error => [.take, .charge, .put]
  | .add | .sub | .mul | .div | .rem | .bitAnd | .bitOr | .bitXor | .bitAndNot | .shl | .shr
  | .array | .map | .sliceIndex => [.take, .make, .charge, .put]
  | .setIndex | .setFree => [.take, .write]
  | .setGlobal => [.take, .global]
  | .setLocal => [.take, .store, .write]
  | .defineLocal => [.take, .store, .rebind]
  | .closure => [.rebind, .make, .charge, .put]
  | .call => [.take, .make, .put]

/-- Writing to objects is left to three kinds of instructions. -/
theorem Opcode.write_mem_effects {op : Opcode} :
    .write ∈ op.effects ↔ op = .setIndex ∨ op = .setLocal ∨ op = .setFree := by
  cases op <;> decide

/-- Which locals have cells changes where a local is bound afresh or captured. -/
theorem Opcode.rebind_mem_effects {op : Opcode} :
    .rebind ∈ op.effects ↔ op = .defineLocal ∨ op = .closure := by
  cases op <;> decide

/-- The faults of a machine that has no activation. -/
def Fault.OfNoFrame : Fault → Prop
  | .internal .noActiveFrame | .internal .returnWithoutFrame => True
  | _ => False

/-! ## Operations -/

variable {α : Type} {E : List Effect}

/-- The operations of the stack with these effects. -/
inductive Stack.Uses (E : List Effect) : {α : Type} → StackM α → Prop where
  | push (v : Value) (h : .put ∈ E) : Uses E (Stack.push v)
  | pop (h : .take ∈ E) : Uses E Stack.pop
  | popMany (n : Nat) (h : .take ∈ E) : Uses E (Stack.popMany n)
  | truncate (n : Nat) (h : .take ∈ E) : Uses E (Stack.truncate n)
  | set (i : Nat) (v : Value) (h : .store ∈ E) : Uses E (Stack.set i v)
  | get (i : Nat) : Uses E (Stack.get i)
  | peek (n : Nat) : Uses E (Stack.peek n)
  | sliceFrom (n : Nat) : Uses E (Stack.sliceFrom n)

/-- The operations of the heap with these effects. -/
inductive HeapM.Uses (E : List Effect) : {α : Type} → HeapM α → Prop where
  | newArray (items : Array Value) (h : .make ∈ E) : Uses E (HeapM.newArray items)
  | newMap (fields : FieldMap Value) (h : .make ∈ E) : Uses E (HeapM.newMap fields)
  | newFunction (f : Function) (h : .make ∈ E) : Uses E (HeapM.newFunction f)
  | binary (op : Opcode) (left right : Value) (h : .make ∈ E) :
    Uses E (Operator.binary op left right)
  | slice (receiver low high : Value) (h : .make ∈ E) : Uses E (HeapM.slice receiver low high)
  | setCell (c : CellRef) (v : Value) (h : .write ∈ E) : Uses E (modify fun h => h.setCell c v)
  | assign (receiver key v : Value) (h : .write ∈ E) : Uses E (HeapM.assign receiver key v)

namespace Exec

/-- The checks and look-ups of instructions. -/
inductive Check : {α : Type} → Except Fault α → Prop where
  | unary (op : Opcode) (v : Value) : Check (Operator.unary op v)
  | order (op : Opcode) (left right : Value) : Check (Operator.order op left right)
  | index (h : Heap) (receiver key : Value) : Check (h.index receiver key)
  | fields (flat : List Value) : Check (fieldsOf FieldMap.empty flat)
  | free (f : Function) (index : Nat) : Check (f.free? index)
  | arity (f : Function) (argc : Nat) : Check (f.checkArity argc)

/-- The computation uses no effects but these. It stays within the executing activation, and no
fault that it raises itself is for want of one. -/
inductive Uses (E : List Effect) : {α : Type} → Exec α → Prop where
  | pure {α : Type} (a : α) : Uses E (pure a)
  | bind {α β : Type} {x : Exec α} {k : α → Exec β} (hx : Uses E x) (hk : ∀ a, Uses E (k a)) :
    Uses E (x >>= k)
  | throw {α : Type} {e : Fault} (he : ¬ e.OfNoFrame) : Uses E (throw e : Exec α)
  | withHeap {α : Type} {k : Heap → Exec α} (hk : ∀ h, Uses E (k h)) :
    Uses E (get >>= fun m => k m.heap)
  | stackSize : Uses E stackSize
  | frame : Uses E frame
  | constant (index : Nat) : Uses E (constant index)
  | global (index : Nat) : Uses E (global index)
  | ofExcept {α : Type} {r : Except Fault α} (h : Check r) : Uses E (ofExcept r)
  | onStack {α : Type} {x : StackM α} (h : Stack.Uses E x) : Uses E (onStack x)
  | onHeap {α : Type} {x : HeapM α} (h : HeapM.Uses E x) : Uses E (onHeap x)
  | setGlobal (index : Nat) (v : Value) (h : .global ∈ E) : Uses E (setGlobal index v)
  | charge (h : .charge ∈ E) : Uses E charge
  | defineLocal (slot : Nat) (v : Value) (h : .rebind ∈ E) (hs : .store ∈ E) :
    Uses E (defineLocal slot v)
  | captureLocal (slot : Nat) (h : .rebind ∈ E) (hm : .make ∈ E) (hc : .charge ∈ E) :
    Uses E (captureLocal slot)

/-! ## Stack, frames and variables

What these operations may do does not depend on the instruction that they are part of, so any list
of effects with the ones they need will do.
-/

theorem Uses.discard {x : Exec α} (hx : Uses E x) : Uses E (discard x) := by
  rw [discard_eq]
  exact hx.bind fun _ => .pure ()

theorem uses_push (v : Value) (h : .put ∈ E) : Uses E (push v) := .onStack (.push v h)

theorem uses_pop (h : .take ∈ E) : Uses E pop := .onStack (.pop h)

theorem uses_top : Uses E top := .onStack (.peek 0)

theorem uses_isFalsy (v : Value) : Uses E (isFalsy v) :=
  .withHeap (k := fun h => pure (h.isFalsy v)) fun _ => .pure _

theorem uses_pushUndefined (n : Nat) (h : .put ∈ E) : Uses E (pushUndefined n) := by
  induction n with
  | zero => exact .pure ()
  | succ n ih => exact (uses_push _ h).bind fun _ => ih

theorem uses_pushAll (vs : List Value) (h : .put ∈ E) : Uses E (pushAll vs) := by
  induction vs with
  | nil => exact .pure ()
  | cons v vs ih => exact (uses_push v h).bind fun _ => ih

theorem uses_getLocal (slot : Nat) : Uses E (getLocal slot) := by
  apply Uses.frame.bind
  intro f
  split
  · next c _ => exact .withHeap (k := fun h => pure (h.cellAt c)) fun _ => .pure _
  · exact .onStack (.get _)

/-- A local is written on the stack or in its cell, so both effects are allowed for. -/
theorem uses_setLocal (slot : Nat) (v : Value) (hs : .store ∈ E) (hw : .write ∈ E) :
    Uses E (setLocal slot v) := by
  apply Uses.frame.bind
  intro f
  split
  · exact .onHeap (.setCell _ v hw)
  · exact .onStack (.set _ v hs)

theorem uses_freeCell (index : Nat) : Uses E (freeCell index) :=
  Uses.frame.bind fun f => .ofExcept (.free f.function index)

theorem uses_getFree (index : Nat) : Uses E (getFree index) :=
  (uses_freeCell index).bind fun c =>
    .withHeap (k := fun h => pure (h.cellAt c)) fun _ => .pure _

/-- A captured variable is always in a cell. -/
theorem uses_setFree (index : Nat) (v : Value) (h : .write ∈ E) : Uses E (setFree index v) :=
  (uses_freeCell index).bind fun c => .onHeap (.setCell c v h)

theorem uses_coreBuiltin (index : Nat) : Uses E (coreBuiltin index) := by
  unfold coreBuiltin
  split
  · exact .pure _
  · exact .throw id

/-! ## Closures -/

/-- A captured variable of the function needs none of the effects that a local does. -/
theorem uses_capture (c : Capture) (h : .rebind ∈ E) (hm : .make ∈ E) (hc : .charge ∈ E) :
    Uses E (capture c) := by
  cases c with
  | ofLocal slot => exact .captureLocal slot h hm hc
  | ofFree index => exact uses_freeCell index

theorem uses_captureAll (cs : List Capture) (h : .rebind ∈ E) (hm : .make ∈ E)
    (hc : .charge ∈ E) : Uses E (captureAll cs) := by
  induction cs with
  | nil => exact .pure []
  | cons c cs ih => exact (uses_capture c h hm hc).bind fun _ => ih.bind fun _ => .pure _

theorem uses_makeClosure (index : Nat) (h : .rebind ∈ E) (hm : .make ∈ E) (hc : .charge ∈ E) :
    Uses E (makeClosure index) := by
  apply (Uses.constant index).bind
  intro v
  split
  · exact (uses_captureAll _ h hm hc).bind fun _ => (Uses.charge hc).bind fun _ =>
      (Uses.onHeap (.newFunction _ hm)).bind fun _ => .pure _
  · exact .throw id

/-! ## Operators and containers

Here the effects are those of one kind of instruction, in the order in which they come.
-/

theorem uses_applyBinary (op : Opcode) : Uses [.take, .make, .charge, .put] (applyBinary op) :=
  (uses_pop (by decide)).bind fun right => (uses_pop (by decide)).bind fun left =>
    (Uses.onHeap (.binary op left right (by decide))).bind fun result =>
      (Uses.charge (by decide)).bind fun _ => uses_push result (by decide)

/-- No number is an object on the heap, so nothing is made. -/
theorem uses_applyUnary (op : Opcode) : Uses [.take, .charge, .put] (applyUnary op) :=
  (uses_pop (by decide)).bind fun v => (Uses.ofExcept (.unary op v)).bind fun result =>
    (Uses.charge (by decide)).bind fun _ => uses_push result (by decide)

theorem uses_applyOrder (op : Opcode) : Uses [.take, .put] (applyOrder op) :=
  (uses_pop (by decide)).bind fun right => (uses_pop (by decide)).bind fun left =>
    (Uses.ofExcept (.order op left right)).bind fun _ => uses_push _ (by decide)

/-- Equality is found by looking, whatever the values hold. -/
theorem uses_popEqual (h : .take ∈ E) : Uses E popEqual :=
  (uses_pop h).bind fun b => (uses_pop h).bind fun a =>
    .withHeap (k := fun h => pure (h.equal a b)) fun _ => .pure _

theorem uses_makeArray (count : Nat) : Uses [.take, .make, .charge, .put] (makeArray count) :=
  (Uses.onStack (.popMany count (by decide))).bind fun _ => (Uses.charge (by decide)).bind fun _ =>
    (Uses.onHeap (.newArray _ (by decide))).bind fun v => uses_push v (by decide)

theorem uses_makeMap (pairs : Nat) : Uses [.take, .make, .charge, .put] (makeMap pairs) :=
  (Uses.onStack (.popMany _ (by decide))).bind fun flat => (Uses.ofExcept (.fields flat)).bind
    fun fields => (Uses.charge (by decide)).bind fun _ =>
      (Uses.onHeap (.newMap fields (by decide))).bind fun v => uses_push v (by decide)

theorem uses_makeError : Uses [.take, .charge, .put] makeError :=
  (uses_pop (by decide)).bind fun _ => (Uses.charge (by decide)).bind fun _ =>
    uses_push _ (by decide)

theorem uses_readIndex : Uses [.take, .put] readIndex :=
  (uses_pop (by decide)).bind fun key => (uses_pop (by decide)).bind fun receiver =>
    .withHeap (k := fun h => ofExcept (h.index receiver key) >>= push) fun h =>
      (Uses.ofExcept (.index h receiver key)).bind fun v => uses_push v (by decide)

theorem uses_readSlice : Uses [.take, .make, .charge, .put] readSlice :=
  (uses_pop (by decide)).bind fun high => (uses_pop (by decide)).bind fun low =>
    (uses_pop (by decide)).bind fun receiver =>
      (Uses.onHeap (.slice receiver low high (by decide))).bind fun result =>
        (Uses.charge (by decide)).bind fun _ => uses_push result (by decide)

/-- A write is not charged for and leaves nothing on the stack. -/
theorem uses_writeIndex : Uses [.take, .write] writeIndex :=
  (uses_pop (by decide)).bind fun v => (uses_pop (by decide)).bind fun key =>
    (uses_pop (by decide)).bind fun receiver => .onHeap (.assign receiver key v (by decide))

/-! ## Arguments and results -/

theorem uses_spreadLast (argc : Nat) (ht : .take ∈ E) (hp : .put ∈ E) :
    Uses E (spreadLast argc) := by
  unfold spreadLast
  split
  · exact .pure 0
  apply (uses_pop ht).bind
  intro v
  split
  · next ref =>
    exact .withHeap
      (k := fun h => do pushAll (h.arrayAt ref).toList; return argc - 1 + (h.arrayAt ref).size)
      fun _ => (uses_pushAll _ hp).bind fun _ => .pure _
  · exact .throw id

/-- What is left of the call of a builtin once it has answered. -/
theorem uses_replaceCallee (callee : Nat) (result : Value) : Uses [.charge, .take, .put] (do
    unless result.isUndefined do charge
    onStack (Stack.truncate callee)
    push result) := by
  have hlast : Uses [.charge, .take, .put] (do onStack (Stack.truncate callee); push result) :=
    (Uses.onStack (.truncate callee (by decide))).bind fun _ => uses_push result (by decide)
  split
  · exact hlast
  · exact (Uses.charge (by decide)).bind fun _ => hlast

theorem uses_returnValue (taken : Bool) (h : .take ∈ E) : Uses E (returnValue taken) := by
  unfold returnValue
  split
  · exact uses_pop h
  · exact .pure _

theorem uses_haltResult : Uses E haltResult := by
  apply Uses.frame.bind
  intro f
  apply Uses.stackSize.bind
  intro size
  split
  · exact uses_top
  · exact .pure _

/-! ## Instructions -/

/-- What an instruction with this opcode can do, the target being where it goes on if it jumps. It
uses the effects of the opcode. Then, if the opcode is of this kind, it goes on elsewhere, in the
executing function or in another one. -/
inductive Performs (host : Host) (op : Opcode) (target : Nat) : {α : Type} → Exec α → Prop where
  | uses {α : Type} {x : Exec α} (h : Uses op.effects x) : Performs host op target x
  | first {α β : Type} {x : Exec α} {k : α → Exec β} (hx : Uses op.effects x)
    (hk : ∀ a, Performs host op target (k a)) : Performs host op target (x >>= k)
  | goOn {x : Exec Unit} (hx : Performs host op target x) : Performs host op target (goOn x)
  | jump (hop : op.isJump = true) : Performs host op target (jump target)
  | enter (hop : op = .call) (f : Function) (callee : Nat) :
    Performs host op target (pushFrame (.start f (callee + 1)))
  | builtin (hop : op = .call) (b : Builtin) (callee : Nat) :
    Performs host op target (callBuiltin host b callee)
  | leave (hop : op = .ret) (result : Value) : Performs host op target (leave result)

variable {host : Host} {target : Nat}

/-- Apart from jumps, calls and returns, instructions do nothing but use their effects. -/
theorem Performs.toUses {x : Exec α} {op : Opcode} (h : Performs host op target x)
    (hjump : op.isJump = false) (hcall : op ≠ .call) (hret : op ≠ .ret) : Uses op.effects x := by
  induction h with
  | uses h => exact h
  | first hx _ ih => exact hx.bind ih
  | goOn _ ih => exact ih.bind fun _ => .pure none
  | jump hop => exact absurd hop (by simp [hjump])
  | enter hop => exact absurd hop hcall
  | builtin hop => exact absurd hop hcall
  | leave hop => exact absurd hop hret

theorem performs_jumpFalsy : Performs host .jumpFalsy target (jumpFalsy target) := by
  apply Performs.first (uses_pop (by decide))
  intro v
  apply Performs.first (uses_isFalsy v)
  intro b
  split
  · exact .jump rfl
  · exact .uses (.pure ())

theorem performs_andJump : Performs host .andJump target (andJump target) := by
  apply Performs.first uses_top
  intro v
  apply Performs.first (uses_isFalsy v)
  intro b
  split
  · exact .jump rfl
  · exact .uses (uses_pop (by decide)).discard

theorem performs_orJump : Performs host .orJump target (orJump target) := by
  apply Performs.first uses_top
  intro v
  apply Performs.first (uses_isFalsy v)
  intro b
  split
  · exact .uses (uses_pop (by decide)).discard
  · exact .jump rfl

/-- The array of a collecting parameter is among the effects of a call, though no charge comes with
it. -/
theorem performs_enterFunction (f : Function) (callee argc : Nat) :
    Performs host .call target (enterFunction f callee argc) := by
  have hlast : Performs host .call target (do
      pushUndefined (f.numLocals - ((← stackSize) - (callee + 1)))
      pushFrame (.start f (callee + 1))) :=
    .first .stackSize fun _ => .first (uses_pushUndefined _ (by decide)) fun _ =>
      .enter rfl f callee
  apply Performs.first (.ofExcept (.arity f argc))
  intro _
  split
  · exact .first (.onStack (.popMany _ (by decide))) fun rest =>
      .first (.onHeap (.newArray _ (by decide))) fun v =>
        .first (uses_push v (by decide)) fun _ => hlast
  · exact hlast

/-- Whatever is found as the callee decides which of the cases of `Performs` it is. -/
theorem performs_call (argc : Nat) (spread : Bool) :
    Performs host .call target (call host argc spread) := by
  have hcall (argc : Nat) : Performs host .call target (call host argc false) := by
    rw [call_eq_bind]
    apply Performs.first .stackSize
    intro size
    split
    · exact .uses (.throw id)
    apply Performs.first (.onStack (.get _))
    intro v
    split
    · exact performs_enterFunction _ _ _
    · exact .builtin rfl _ _
    · exact .uses (.throw id)
  cases spread with
  | false => exact hcall argc
  | true =>
    rw [call_spread]
    exact .first (uses_spreadLast argc (by decide) (by decide)) hcall

/-- Every instruction does only what its opcode allows. -/
theorem performs_execute (host : Host) (i : Instruction) :
    Performs host i.op i.first (execute host i) := by
  obtain ⟨op, operands⟩ := i
  dsimp only
  cases op with
  | constant => exact .goOn (.uses ((Uses.constant _).bind fun _ => uses_push _ (by decide)))
  | null | true | false => exact .goOn (.uses (uses_push _ (by decide)))
  | pop => exact .goOn (.uses (uses_pop (by decide)).discard)
  | equal | notEqual =>
    exact .goOn (.uses ((uses_popEqual (by decide)).bind fun _ => uses_push _ (by decide)))
  | lnot =>
    exact .goOn (.uses ((uses_pop (by decide)).bind fun _ => (uses_isFalsy _).bind fun _ =>
      uses_push _ (by decide)))
  | add | sub | mul | div | rem | bitAnd | bitOr | bitXor | bitAndNot | shl | shr =>
    exact .goOn (.uses (uses_applyBinary _))
  | less | lessEq | greater | greaterEq => exact .goOn (.uses (uses_applyOrder _))
  | minus | bComplement => exact .goOn (.uses (uses_applyUnary _))
  | array => exact .goOn (.uses (uses_makeArray _))
  | map => exact .goOn (.uses (uses_makeMap _))
  | error => exact .goOn (.uses uses_makeError)
  | index => exact .goOn (.uses uses_readIndex)
  | sliceIndex => exact .goOn (.uses uses_readSlice)
  | setIndex => exact .goOn (.uses uses_writeIndex)
  | jump => exact .goOn (.jump rfl)
  | jumpFalsy => exact .goOn performs_jumpFalsy
  | andJump => exact .goOn performs_andJump
  | orJump => exact .goOn performs_orJump
  | call => exact .goOn (performs_call _ _)
  | getGlobal => exact .goOn (.uses ((Uses.global _).bind fun _ => uses_push _ (by decide)))
  | setGlobal =>
    exact .goOn (.uses ((uses_pop (by decide)).bind fun _ => .setGlobal _ _ (by decide)))
  | getLocal => exact .goOn (.uses ((uses_getLocal _).bind fun _ => uses_push _ (by decide)))
  | setLocal =>
    exact .goOn (.uses ((uses_pop (by decide)).bind fun _ =>
      uses_setLocal _ _ (by decide) (by decide)))
  | defineLocal =>
    exact .goOn (.uses ((uses_pop (by decide)).bind fun _ =>
      .defineLocal _ _ (by decide) (by decide)))
  | getFree => exact .goOn (.uses ((uses_getFree _).bind fun _ => uses_push _ (by decide)))
  | setFree =>
    exact .goOn (.uses ((uses_pop (by decide)).bind fun _ => uses_setFree _ _ (by decide)))
  | getBuiltin => exact .goOn (.uses ((uses_coreBuiltin _).bind fun _ => uses_push _ (by decide)))
  | closure =>
    exact .goOn (.uses ((uses_makeClosure _ (by decide) (by decide) (by decide)).bind fun _ =>
      uses_push _ (by decide)))
  | ret => exact .first (uses_returnValue _ (by decide)) fun _ => .leave rfl _
  | halt => exact .uses (uses_haltResult.bind fun _ => .pure _)

end Exec
end ScriptVM
