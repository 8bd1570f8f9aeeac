import ScriptVM.Proofs.Limited

/-!
# Instructions under tighter limits

Whatever an instruction does, tighter limits only cut it short. Every instruction but one takes what
it takes before it puts anything on, so that an excess is seen in the end. The exception is a call
that spreads its last argument: with more arguments on the stack it may still find that there is
nothing to call, or collect them again. The excess is then seen in the midst of it.
-/

namespace ScriptVM

namespace Exec

variable {α : Type} {c : Limits} {gap : Option Nat}

/-! ## Whatever is exact -/

/-- What puts nothing on a stack does not ask for its capacity. -/
theorem exact_usesStack {E : List Effect} {x : StackM α} (h : Stack.Uses E x) (hp : .put ∉ E) :
    Exact c gap (onStack x) :=
  exact_onStack (h.anyCapacity hp)

/-- The slot that is written to is there already. -/
theorem exact_defineLocal (slot : Nat) (v : Value) : Exact c gap (defineLocal slot v) :=
  exact_frame.bind fun f => (exact_setFrame (f.unbind slot)).bind fun _ =>
    exact_usesStack (.set (E := [.store]) _ v (by decide)) (by decide)

/-- No limit is met without putting a value on the stack or charging the budget. -/
theorem Uses.exact {E : List Effect} {x : Exec α} (h : Uses E x) (hp : .put ∉ E)
    (hc : .charge ∉ E) : Exact c gap x := by
  induction h with
  | pure a => exact exact_pure a
  | bind _ _ hx hk => exact hx.bind hk
  | throw _ => exact exact_throw _
  | withHeap _ ih => exact fun m => ih m.heap m
  | stackSize => exact exact_stackSize
  | frame => exact exact_frame
  | constant index => exact exact_constant index
  | global index => exact exact_global index
  | ofExcept _ => exact exact_ofExcept _
  | onStack h => exact exact_usesStack h hp
  | onHeap _ => exact exact_onHeap _
  | setGlobal index v => exact exact_setGlobal index v
  | charge h => exact absurd h hc
  | defineLocal slot v => exact exact_defineLocal slot v
  | captureLocal _ _ _ h => exact absurd h hc

theorem exact_pop : Exact c gap pop :=
  exact_usesStack (.pop (E := [.take]) (by decide)) (by decide)

theorem exact_popMany (n : Nat) : Exact c gap (onStack (Stack.popMany n)) :=
  exact_usesStack (.popMany (E := [.take]) n (by decide)) (by decide)

theorem exact_truncate (n : Nat) : Exact c gap (onStack (Stack.truncate n)) :=
  exact_usesStack (.truncate (E := [.take]) n (by decide)) (by decide)

/-- The same for instructions, where a call may have no room for its activation and a return may
have none for its result. -/
theorem Performs.exact {host : Host} {op : Opcode} {target : Nat} {x : Exec α}
    (h : Performs host op target x) (hp : .put ∉ op.effects) (hc : .charge ∉ op.effects)
    (hret : op ≠ .ret) : Exact c gap x := by
  have hcall : op ≠ .call := by
    rintro rfl
    exact hp (by decide)
  induction h with
  | uses h => exact h.exact hp hc
  | first hx _ ih => exact (hx.exact hp hc).bind ih
  | goOn _ ih => exact ih.bind fun _ => exact_pure none
  | jump => exact exact_jump target
  | enter hop => exact absurd hop hcall
  | builtin hop => exact absurd hop hcall
  | leave hop => exact absurd hop hret

/-! ## Whatever takes nothing off -/

theorem grows_defineLocal (slot : Nat) (v : Value) : Grows (defineLocal slot v) :=
  grows_frame.bind fun f => (grows_setFrame (f.unbind slot)).bind fun _ =>
    grows_onStack (.set (E := [.store]) _ v (by decide)) (by decide)

/-- A cell is charged for, and the stack keeps the slot. -/
theorem grows_captureLocal (slot : Nat) : Grows (captureLocal slot) := by
  refine grows_frame.bind fun f => (grows_onStack (.get (E := []) _) (by decide)).bind fun v => ?_
  refine (grows_onHeap _).bind fun p => (grows_setFrame _).bind fun _ => ?_
  split
  · exact grows_charge.bind fun _ => grows_pure _
  · exact grows_pure _

/-- By induction on the computation: each operation without the effect adds to the machine or leaves
it. -/
theorem Uses.grows {E : List Effect} {x : Exec α} (h : Uses E x) (ht : .take ∉ E) : Grows x := by
  induction h with
  | pure a => exact grows_pure a
  | bind _ _ hx hk => exact hx.bind hk
  | throw _ => exact grows_throw _
  | withHeap _ ih => exact fun m => ih m.heap m
  | stackSize => exact fun m => .refl m
  | frame => exact grows_frame
  | constant index => exact grows_constant index
  | global index => exact grows_global index
  | ofExcept _ => exact grows_ofExcept _
  | onStack h => exact grows_onStack h ht
  | onHeap _ => exact grows_onHeap _
  | setGlobal index v => exact grows_setGlobal index v
  | charge => exact grows_charge
  | defineLocal slot v => exact grows_defineLocal slot v
  | captureLocal slot => exact grows_captureLocal slot

theorem trims_onStack {E : List Effect} {x : StackM α} (h : Stack.Uses E x) (ht : .take ∉ E) :
    Trims c gap (onStack x) := by
  cases h with
  | push v => exact trims_push v
  | set i v => exact (exact_usesStack (.set (E := [.store]) i v (by decide)) (by decide)).trims
  | get i => exact (exact_usesStack (.get (E := []) i) (by decide)).trims
  | peek n => exact (exact_usesStack (.peek (E := []) n) (by decide)).trims
  | sliceFrom n => exact (exact_usesStack (.sliceFrom (E := []) n) (by decide)).trims
  | pop h | popMany _ h | truncate _ h => exact absurd h ht

/-- The charge may be refused, and nothing is taken off after it. -/
theorem trims_captureLocal (slot : Nat) : Trims c gap (captureLocal slot) := by
  refine exact_frame.first fun f => ?_
  refine (exact_usesStack (.get (E := []) _) (by decide)).first fun v => ?_
  refine (exact_onHeap _).first fun p => (exact_setFrame _).first fun _ => ?_
  split
  · exact trims_charge.bind (fun _ => (exact_pure _).trims) fun _ => grows_pure _
  · exact (exact_pure _).trims

/-- An excess is seen in the end if nothing is taken off. -/
theorem Uses.trims {E : List Effect} {x : Exec α} (h : Uses E x) (ht : .take ∉ E) :
    Trims c gap x := by
  induction h with
  | pure a => exact (exact_pure a).trims
  | bind _ hk hx ih => exact hx.bind ih fun a => (hk a).grows ht
  | throw _ => exact (exact_throw _).trims
  | withHeap _ ih => exact fun m => ih m.heap m
  | stackSize => exact exact_stackSize.trims
  | frame => exact exact_frame.trims
  | constant index => exact (exact_constant index).trims
  | global index => exact (exact_global index).trims
  | ofExcept _ => exact (exact_ofExcept _).trims
  | onStack h => exact trims_onStack h ht
  | onHeap _ => exact (exact_onHeap _).trims
  | setGlobal index v => exact (exact_setGlobal index v).trims
  | charge => exact trims_charge
  | defineLocal slot v => exact (exact_defineLocal slot v).trims
  | captureLocal slot => exact trims_captureLocal slot

/-! ## Operators and containers

Operands are taken first, which no limit cuts short. Then the result is charged for and pushed.
-/

/-- If the charge is refused, or there is no room for the value, the excess stays. -/
theorem trims_charge_push (v : Value) : Trims c gap (do charge; push v) :=
  trims_charge.bind (fun _ => trims_push v) fun _ => grows_push v

/-- A new object is charged for before it is made. -/
theorem trims_charge_make (x : HeapM Value) : Trims c gap (do charge; push (← onHeap x)) := by
  refine trims_charge.bind (fun _ => (exact_onHeap x).first trims_push) fun _ => ?_
  exact (grows_onHeap x).bind grows_push

theorem trims_applyBinary (op : Opcode) : Trims c gap (applyBinary op) :=
  exact_pop.first fun _ => exact_pop.first fun _ => (exact_onHeap _).first trims_charge_push

theorem trims_applyUnary (op : Opcode) : Trims c gap (applyUnary op) :=
  exact_pop.first fun _ => (exact_ofExcept _).first trims_charge_push

theorem trims_applyOrder (op : Opcode) : Trims c gap (applyOrder op) :=
  exact_pop.first fun _ => exact_pop.first fun _ => (exact_ofExcept _).first fun _ => trims_push _

theorem trims_makeArray (count : Nat) : Trims c gap (makeArray count) :=
  (exact_popMany count).first fun _ => trims_charge_make _

theorem trims_makeMap (pairs : Nat) : Trims c gap (makeMap pairs) :=
  (exact_popMany _).first fun _ => (exact_ofExcept _).first fun _ => trims_charge_make _

theorem trims_makeError : Trims c gap makeError := exact_pop.first fun _ => trims_charge_push _

theorem trims_readIndex : Trims c gap readIndex :=
  exact_pop.first fun key => exact_pop.first fun receiver m =>
    (exact_ofExcept (m.heap.index receiver key)).first trims_push m

theorem trims_readSlice : Trims c gap readSlice :=
  exact_pop.first fun _ => exact_pop.first fun _ => exact_pop.first fun _ =>
    (exact_onHeap _).first trims_charge_push

/-! ## Calls and returns -/

/-- The array of a collecting parameter takes the place of the arguments in it. After that the stack
only grows. -/
theorem trims_enterFunction (f : Function) (callee argc : Nat) :
    Trims c gap (enterFunction f callee argc) := by
  have hundefined (n : Nat) : Uses [.put] (pushUndefined n) := uses_pushUndefined n (by decide)
  have hrest : Trims c gap (do
      pushUndefined (f.numLocals - ((← stackSize) - (callee + 1)))
      pushFrame (.start f (callee + 1))) :=
    exact_stackSize.first fun _ => ((hundefined _).trims (by decide)).bind
      (fun _ => trims_pushFrame _) fun _ => grows_pushFrame _
  have hgrows : Grows (do
      pushUndefined (f.numLocals - ((← stackSize) - (callee + 1)))
      pushFrame (.start f (callee + 1))) :=
    Grows.bind (fun m => .refl m) fun _ => ((hundefined _).grows (by decide)).bind fun _ =>
      grows_pushFrame _
  refine (exact_ofExcept _).first fun _ => ?_
  split
  · refine (exact_popMany _).first fun _ => (exact_onHeap _).first fun _ => ?_
    exact (trims_push _).bind (fun _ => hrest) fun _ => hgrows
  · exact hrest

/-- The result may be charged for, and is then pushed where the callee was. Nothing is taken off
after it. -/
theorem trims_callBuiltin (host : Host) (b : Builtin) (callee : Nat) :
    Trims c gap (callBuiltin host b callee) := by
  have hlast (result : Value) : Trims c gap (do onStack (Stack.truncate callee); push result) :=
    (exact_truncate callee).first fun _ => trims_push result
  have hspends (result : Value) (m : Machine) :
      m.Spends (left ((do onStack (Stack.truncate callee); push result : Exec Unit) m)) :=
    (spends_onStack (Stack.truncate callee) m).trans (grows_push result _).budget
  refine (exact_usesStack (.sliceFrom (E := []) _) (by decide)).first fun _ => ?_
  refine (exact_onHeap _).first fun result => ?_
  split
  · exact hlast result
  · exact (hlast result).after_charge (hspends result)

/-- A call whose arguments are all on the stack. -/
theorem trims_call (host : Host) (argc : Nat) : Trims c gap (call host argc false) := by
  intro m budget h
  rw [call_eq, call_eq]
  dsimp only [Machine.under, Stack.size]
  by_cases hlt : m.stack.values.size < argc + 1 <;> simp only [hlt, if_true, if_false]
  · exact .same (.error _ h)
  cases m.stack.values[m.stack.values.size - (argc + 1)]? with
  | none => exact .same (.error _ h)
  | some v =>
    cases v with
    | function f => exact trims_enterFunction _ _ _ m budget h
    | builtin b => exact trims_callBuiltin host b _ m budget h
    | _ => exact .same (.error _ h)

/-- The spread argument is taken, and its elements are pushed one by one. -/
theorem trims_spreadLast (argc : Nat) : Trims c gap (spreadLast argc) := by
  unfold spreadLast
  split
  · exact (exact_pure 0).trims
  · refine exact_pop.first fun v => ?_
    split
    · have hspread (items : Array Value) : Trims c gap (do
          pushAll items.toList
          return argc - 1 + items.size) :=
        ((uses_pushAll (E := [.put]) _ (by decide)).trims (by decide)).bind
          (fun _ => (exact_pure _).trims) fun _ => grows_pure _
      exact fun m => hspread (m.heap.arrayAt _) m
    · exact (exact_throw _).trims

/-- What is above the callee goes first, and then the result is pushed. -/
theorem trims_leave (result : Value) : Trims c gap (leave result) := by
  intro m budget h
  cases hf : m.frames with
  | nil =>
    rw [leave_of_no_frame hf, leave_of_no_frame (m := m.under c budget) hf]
    exact .same (.error _ h)
  | cons f rest =>
    rw [leave_eq hf, leave_eq (m := m.under c budget) hf]
    have h' : { m with frames := rest }.Covers c gap budget := { h with }
    split
    · exact .same (.ok _ h')
    split
    · exact .same (.error _ h')
    · have hlast : Trims c gap (do
          onStack (Stack.truncate (f.base - 1))
          push result
          return (none : Option Value)) :=
        (exact_truncate _).first fun _ =>
          (trims_push result).bind (fun _ => (exact_pure _).trims) fun _ => grows_pure _
      exact hlast _ _ h'

/-! ## Instructions

A call that spreads may exceed the limits and then take off again what was too much: the arguments
may be collected, or the call fail. So the excess is looked for on a machine in the midst of it.
-/

/-- What an instruction does before it may take anything off again: a call spreads its last
argument. -/
def spreads (i : Instruction) : Exec Unit :=
  if i.op = .call ∧ i.second ≠ 0 then discard (spreadLast i.first) else return

/-- The next instruction, up to where its arguments are on the stack. -/
def midway : Exec Unit := do spreads (← instruction)

/-- Tighter limits only cut the computation short, where the excess is seen in the end or, for the
stack and the activations, on a machine in the midst of it. -/
def High (c : Limits) (gap : Option Nat) (high : Machine → Machine) (x : Exec α) : Prop :=
  ∀ m budget, m.Covers c gap budget →
    Limited c gap (x (m.under c budget)) (x m) ∨
      (∃ m₀, x (m.under c budget) = .error .stackOverflow m₀) ∧ (high m).Crowded c

/-- Whatever the computation fails for, it is not that allocations have run out. -/
def Uncharged (x : Exec α) : Prop := ∀ m m', x m ≠ .error .objectAllocLimit m'

variable {β : Type} {x : Exec α} {k : α → Exec β} {high : Machine → Machine}

/-- Where the excess is seen in the end it need not be looked for before. -/
theorem Trims.high_of (hx : Trims c gap x) : High c gap high x :=
  fun m budget h => .inl (hx m budget h)

/-- What comes second may take off what comes first has put on. -/
theorem Trims.high_bind (hx : Trims c gap x) (hu : Uncharged x) (hk : ∀ a, Trims c gap (k a)) :
    High c gap (fun m => left (x m)) (x >>= k) := by
  intro m budget h
  have hx := hx m budget h
  have hu := hu (m.under c budget)
  rw [bind_eq, bind_eq]
  generalize hr : x (m.under c budget) = r at hx hu ⊢
  generalize hr' : x m = r' at hx ⊢
  cases hx with
  | same hsame =>
    cases hsame with
    | ok a h' => exact .inl (hk a _ _ h')
    | error e h' => exact .inl (.same (.error e h'))
  | crowded m' h' =>
    subst hr'
    exact .inr ⟨⟨m', rfl⟩, h'⟩
  | spent => exact absurd rfl (hu _)

/-- A sequence fails for want of allocations if one of its parts does. -/
theorem Uncharged.bind (hx : Uncharged x) (hk : ∀ a, Uncharged (k a)) : Uncharged (x >>= k) := by
  intro m m' h
  rw [bind_eq] at h
  cases hr : x m with
  | ok a m₁ =>
    rw [hr] at h
    exact hk a m₁ m' h
  | error e m₁ =>
    rw [hr] at h
    cases h
    exact hx m m' hr

theorem uncharged_pure (a : α) : Uncharged (pure a) := fun _ _ h => nomatch h

theorem uncharged_throw {e : Fault} (he : e ≠ .objectAllocLimit) :
    Uncharged (throw e : Exec α) := by
  intro m m' h
  cases h
  exact he rfl

theorem uncharged_ofExcept {r : Except Fault α} (hr : r ≠ .error .objectAllocLimit) :
    Uncharged (ofExcept r) := by
  cases r with
  | ok a => exact uncharged_pure a
  | error e => exact uncharged_throw fun he => hr (he ▸ rfl)

theorem uncharged_push (v : Value) : Uncharged (push v) := by
  intro m m' h
  rw [push_eq] at h
  split at h <;> cases h

theorem uncharged_pushAll (vs : List Value) : Uncharged (pushAll vs) := by
  induction vs with
  | nil => exact uncharged_pure ()
  | cons v vs ih => exact (uncharged_push v).bind fun _ => ih

theorem uncharged_pushFrame (f : Frame) : Uncharged (pushFrame f) := by
  intro m m' h
  rw [pushFrame_eq] at h
  split at h <;> cases h

theorem uncharged_pop : Uncharged pop := by
  intro m m' h
  rw [pop_eq] at h
  split at h <;> cases h

/-- Spreading makes no object. -/
theorem uncharged_spreadLast (argc : Nat) : Uncharged (spreadLast argc) := by
  unfold spreadLast
  split
  · exact uncharged_pure 0
  refine uncharged_pop.bind fun v => ?_
  split
  · have hspread (items : Array Value) : Uncharged (do
        pushAll items.toList
        return argc - 1 + items.size) :=
      (uncharged_pushAll _).bind fun _ => uncharged_pure _
    exact fun m => hspread (m.heap.arrayAt _) m
  · exact uncharged_throw (fun h => nomatch h)

/-- Leaving out the answer leaves the same machine. -/
theorem left_discard (x : Exec α) (m : Machine) : left (discard x m) = left (x m) := by
  rw [discard_eq, bind_eq]
  cases x m <;> rfl

/-- A call is cut short in the end, or where it has spread its last argument. -/
theorem high_call (host : Host) {i : Instruction} (hop : i.op = .call) :
    High c gap (fun m => left (spreads i m)) (call host i.first (i.second != 0)) := by
  by_cases hspread : i.second = 0
  · rw [hspread]
    exact (trims_call host i.first).high_of
  · have hspreads : spreads i = discard (spreadLast i.first) := if_pos ⟨hop, hspread⟩
    simp only [hspreads, left_discard, bne_iff_ne.2 hspread, call_spread]
    exact (trims_spreadLast i.first).high_bind (uncharged_spreadLast _) (trims_call host)

/-- Going on does not depend on the limits. -/
theorem Limited.goOn {m m' : Machine} {x : Exec Unit} (h : Limited c gap (x m) (x m')) :
    Limited c gap (goOn x m) (goOn x m') := by
  unfold Exec.goOn
  rw [bind_eq, bind_eq]
  generalize x m = r, x m' = r' at h
  cases h with
  | same hsame =>
    cases hsame with
    | ok a h' => exact .same (.ok none h')
    | error e h' => exact .same (.error e h')
  | crowded m₀ h' => cases r' <;> exact .crowded m₀ h'
  | spent h0 h' => cases r' <;> exact .spent h0 h'

theorem High.goOn {x : Exec Unit} (h : High c gap high x) : High c gap high (goOn x) := by
  intro m budget hm
  rcases h m budget hm with hlimited | ⟨⟨m₀, heq⟩, hcrowded⟩
  · exact .inl hlimited.goOn
  · refine .inr ⟨⟨m₀, ?_⟩, hcrowded⟩
    unfold Exec.goOn
    rw [bind_eq, heq]

/-- Every instruction is cut short in the end, or midway if it is a call. -/
theorem high_execute (host : Host) (i : Instruction) :
    High c gap (fun m => left (spreads i m)) (execute host i) := by
  have hperforms := performs_execute host i
  have hcall (hop : i.op = .call) :
      High c gap (fun m => left (spreads i m)) (goOn (call host i.first (i.second != 0))) :=
    (high_call host hop).goOn
  obtain ⟨op, operands⟩ := i
  dsimp only at hperforms
  cases op
  case call => exact hcall rfl
  -- What takes values off, and then puts one on.
  case equal | notEqual =>
    have hequal : Uses [.take] popEqual := uses_popEqual (by decide)
    exact ((hequal.exact (by decide) (by decide)).first fun _ => trims_push _).goOn.high_of
  case lnot =>
    have hfalsy (v : Value) : Uses [] (isFalsy v) := uses_isFalsy v
    exact (exact_pop.first fun v => ((hfalsy v).exact (by decide) (by decide)).first fun _ =>
      trims_push _).goOn.high_of
  case add | sub | mul | div | rem | bitAnd | bitOr | bitXor | bitAndNot | shl | shr =>
    exact (trims_applyBinary _).goOn.high_of
  case less | lessEq | greater | greaterEq => exact (trims_applyOrder _).goOn.high_of
  case minus | bComplement => exact (trims_applyUnary _).goOn.high_of
  case array => exact (trims_makeArray _).goOn.high_of
  case map => exact (trims_makeMap _).goOn.high_of
  case error => exact trims_makeError.goOn.high_of
  case index => exact trims_readIndex.goOn.high_of
  case sliceIndex => exact trims_readSlice.goOn.high_of
  case ret =>
    have hvalue (taken : Bool) : Uses [.take] (returnValue taken) :=
      uses_returnValue taken (by decide)
    exact (((hvalue _).exact (by decide) (by decide)).first trims_leave).high_of
  -- What takes no value off.
  case constant | null | true | false | getGlobal | getLocal | getFree | getBuiltin | closure =>
    exact ((hperforms.toUses rfl (by decide) (by decide)).trims (by decide)).high_of
  -- What puts none on and is not charged for.
  all_goals exact (hperforms.exact (by decide) (by decide) (by decide)).trims.high_of

/-- Limits and offsets have nothing to do with each other. -/
theorem under_goTo (c : Limits) (budget : Option Nat) (m : Machine) (ip : Nat) :
    (m.under c budget).goTo ip = (m.goTo ip).under c budget := by
  cases hf : m.frames with
  | nil => simp only [Machine.goTo, Machine.under, hf]
  | cons f rest =>
    rw [Machine.goTo_eq hf, Machine.goTo_eq (m := m.under c budget) hf]
    rfl

/-- Fetching reads the code, whatever the limits. -/
theorem exact_instruction : Exact c gap instruction := by
  intro m budget h
  cases hf : m.frames with
  | nil =>
    rw [instruction_of_no_frame hf, instruction_of_no_frame (m := m.under c budget) hf]
    exact .error _ h
  | cons f rest =>
    have hcovers (ip : Nat) : (m.goTo ip).Covers c gap budget := by
      rw [Machine.goTo_eq hf]
      exact { h with }
    rw [instruction_eq hf, instruction_eq (m := m.under c budget) hf]
    cases f.function.fetch f.ip with
    | instruction i next =>
      dsimp only
      rw [under_goTo]
      exact .ok i (hcovers next)
    | fault e ip =>
      dsimp only
      rw [under_goTo]
      exact .error e (hcovers ip)

/-- Up to there only arguments are pushed. -/
theorem trims_midway : Trims c gap midway := by
  refine exact_instruction.first fun i => ?_
  unfold spreads
  split
  · rw [discard_eq]
    exact (trims_spreadLast _).bind (fun _ => (exact_pure ()).trims) fun _ => grows_pure ()
  · exact (exact_pure ()).trims

/-- A step is cut short in the end, or midway. -/
theorem high_step (host : Host) : High c gap (fun m => left (midway m)) (step host) := by
  intro m budget h
  have hi := exact_instruction m budget h
  unfold step midway
  dsimp only
  rw [bind_eq, bind_eq, bind_eq]
  generalize instruction (m.under c budget) = r, instruction m = r' at hi
  cases hi with
  | ok i h' => exact high_execute host i _ _ h'
  | error e h' => exact .inl (.same (.error e h'))

end Exec

end ScriptVM
