import ScriptVM.Proofs.Effects
import ScriptVM.Proofs.HeapGrowth
import ScriptVM.Proofs.MachineFault

/-!
# Computations that leave the activations alone

Most of what instructions are made of reads or writes the stack, the globals and the heap, and
leaves the activations as they are. Such a computation may ask for the executing activation, so it
needs one; begun with one, it never finds that there is none.
-/

namespace ScriptVM

variable {α : Type} {host : Host}

/-! ## Faults of missing activations -/

/-- If the fault is one of a machine without activations, a function of the host has answered with
it. -/
def Fault.Framed (host : Host) (e : Fault) : Prop :=
  e.OfNoFrame → ∃ f args h h', host f args h = .error e h'

/-- Missing activations are faults of the machine. -/
theorem Fault.OfNoFrame.ofMachine {e : Fault} (h : e.OfNoFrame) : e.OfMachine := by
  unfold OfNoFrame at h
  split at h
  · trivial
  · trivial
  · exact h.elim

/-- A fault that is excused is the host's, whatever it says. -/
theorem Fault.Excused.framed {e : Fault} (h : e.Excused host) : e.Framed host :=
  fun he => h he.ofMachine

/-! ## Operations of the heap -/

namespace HeapM

/-- The operations leave the objects as they are, if those that may write write to none of them. -/
theorem Uses.spares {E : List Effect} {K : Objects} {x : HeapM α} (h : Uses E x)
    (hK : .write ∈ E → ∀ k i, ¬ K k i) : Spares K x := by
  cases h with
  | newArray items => exact spares_newArray items
  | newMap fields => exact spares_newMap fields
  | newFunction f => exact spares_newFunction f
  | binary op left right => exact spares_binary op left right
  | slice receiver low high => exact spares_slice receiver low high
  | setCell c v hw => exact spares_setCell (hK hw _ _) v
  | assign receiver key v hw => exact spares_assign (fun k i _ => hK hw k i) key v

/-- Whatever its effects, a computation of the heap takes nothing away. -/
theorem Uses.works {E : List Effect} {x : HeapM α} (h : Uses E x) :
    Works host x :=
  (h.spares fun _ _ _ => id).works

/-- By induction on the computation. -/
theorem Uses.ordinary {E : List Effect} {x : HeapM α} (h : Uses E x) :
    Ordinary host x := by
  cases h with
  | newArray items => exact ordinary_modifyGet _
  | newMap fields => exact ordinary_modifyGet _
  | newFunction f => exact ordinary_modifyGet _
  | binary op left right => exact ordinary_binary op left right
  | slice receiver low high => exact ordinary_slice receiver low high
  | setCell c v => exact ordinary_modifyGet _
  | assign receiver key v => exact ordinary_assign receiver key v

end HeapM

/-! ## Quiet computations -/

/-- The second machine has the activations of the first, and a heap that has become of the
first's. -/
structure Machine.Undisturbed (host : Host) (m m' : Machine) : Prop where
  frames : m'.frames = m.frames
  heap : m.heap.Becomes host m'.heap

namespace Machine.Undisturbed

variable {m m' m'' : Machine}

theorem refl (m : Machine) : m.Undisturbed host m := ⟨rfl, .refl m.heap⟩

theorem trans (h : m.Undisturbed host m') (h' : m'.Undisturbed host m'') :
    m.Undisturbed host m'' :=
  ⟨h'.frames.trans h.frames, h.heap.trans h'.heap⟩

/-- Neither the activations nor the heap have changed. -/
theorem of_eq (hf : m'.frames = m.frames) (hh : m'.heap = m.heap) : m.Undisturbed host m' := by
  refine ⟨hf, ?_⟩
  rw [hh]
  exact .refl m.heap

end Machine.Undisturbed

namespace Exec

variable {β : Type}

/-- Begun with an activation, the computation leaves the activations as they are, or it ends in a
fault of another kind than that there is none. -/
def Quiet (host : Host) (x : Exec α) : Prop :=
  ∀ m : Machine, m.frames ≠ [] →
    match x m with
    | .ok _ m' => m.Undisturbed host m'
    | .error e _ => e.Framed host

/-! ## Sequencing -/

/-- The activation that the first part has needed is there for the second. -/
theorem Quiet.bind {x : Exec α} {k : α → Exec β} (hx : Quiet host x)
    (hk : ∀ a, Quiet host (k a)) : Quiet host (x >>= k) := by
  intro m hm
  have hfirst := hx m hm
  rw [bind_eq]
  cases hr : x m with
  | error e m' =>
    rw [hr] at hfirst
    exact hfirst
  | ok a m' =>
    rw [hr] at hfirst
    have hsecond := hk a m' (by rw [hfirst.frames]; exact hm)
    dsimp only
    cases hr' : k a m' with
    | error e m'' =>
      rw [hr'] at hsecond
      exact hsecond
    | ok b m'' =>
      rw [hr'] at hsecond
      exact hfirst.trans hsecond

theorem quiet_pure (a : α) : Quiet host (pure a) := fun m _ => .refl m

/-- A fault may be raised if it is not for want of an activation. -/
theorem quiet_throw {e : Fault} (he : ¬ e.OfNoFrame) : Quiet host (throw e : Exec α) :=
  fun _ _ h => absurd h he

theorem quiet_get : Quiet host get := fun m _ => .refl m

/-! ## Parts of the machine -/

/-- The operation of the stack fails only because the stack is full or something is not there. -/
def OfStack (x : StackM α) : Prop :=
  ∀ s e s', x s = .error e s' → e = .stackOverflow ∨ e = .stackUnderflow

/-- The faults of the stack are that it is full or that something is not on it. -/
theorem OfStack.of_uses {E : List Effect} {x : StackM α} (h : Stack.Uses E x) : OfStack x := by
  intro s e s' he
  cases h with
  | push v =>
    unfold Stack.push at he
    split at he <;> cases he
    exact .inl rfl
  | pop =>
    unfold Stack.pop at he
    split at he <;> cases he
    exact .inr rfl
  | popMany n =>
    unfold Stack.popMany at he
    split at he <;> cases he
    exact .inr rfl
  | truncate n => cases he
  | set i v =>
    unfold Stack.set at he
    split at he <;> cases he
    exact .inr rfl
  | get i =>
    unfold Stack.get at he
    split at he <;> cases he
    exact .inr rfl
  | peek n =>
    unfold Stack.peek at he
    split at he
    · split at he <;> cases he
      exact .inr rfl
    · cases he
      exact .inr rfl
  | sliceFrom n =>
    unfold Stack.sliceFrom at he
    split at he <;> cases he
    exact .inr rfl

theorem quiet_onStack {x : StackM α} (hx : OfStack x) : Quiet host (onStack x) := by
  intro m _
  rw [onStack_eq]
  cases hr : x m.stack with
  | ok a s => exact .of_eq rfl rfl
  | error e s =>
    intro he
    rcases hx _ _ _ hr with rfl | rfl
    · exact he.elim
    · exact he.elim

/-- The heap knows of no activations, so its faults are of another kind. -/
theorem quiet_onHeap {x : HeapM α} (hx : HeapM.Works host x) (hfault : HeapM.Ordinary host x) :
    Quiet host (onHeap x) := by
  intro m _
  have h := hx m.heap
  rw [HeapM.after] at h
  rw [onHeap_eq]
  cases hr : x m.heap with
  | ok a h' =>
    rw [hr] at h
    exact ⟨rfl, h⟩
  | error e h' => exact (hfault _ _ _ hr).framed

theorem quiet_ofExcept {r : Except Fault α} (hr : ∀ e, r = .error e → e.Framed host) :
    Quiet host (ofExcept r) := by
  cases r with
  | ok a => exact quiet_pure a
  | error e =>
    intro m _
    exact hr e rfl

/-- Here the computation needs its activation. -/
theorem quiet_frame : Quiet host frame := by
  intro m hm
  obtain ⟨f, rest, hf⟩ := List.exists_cons_of_ne_nil hm
  rw [frame_eq hf]
  exact .refl m

theorem quiet_constant (index : Nat) : Quiet host (constant index) := by
  intro m _
  rw [constant_eq]
  cases m.constants[index]? with
  | some v => exact .refl m
  | none => exact fun he => he.elim

theorem quiet_global (index : Nat) : Quiet host (global index) := by
  intro m _
  rw [global_eq]
  cases m.globals[index]? with
  | some v => exact .refl m
  | none => exact fun he => he.elim

theorem quiet_setGlobal (index : Nat) (v : Value) : Quiet host (setGlobal index v) := by
  intro m _
  rw [setGlobal_eq]
  by_cases hlt : index < m.globals.size
  · rw [if_pos hlt]
    exact .of_eq rfl rfl
  · rw [if_neg hlt]
    exact fun he => he.elim

theorem quiet_charge : Quiet host charge := by
  intro m _
  rw [charge_eq]
  rcases m.budget with _ | _ | n
  · exact .refl m
  · exact fun he => he.elim
  · exact .of_eq rfl rfl

/-! ## Checks -/

theorem framed_fieldsOf {flat : List Value} {fields : FieldMap Value} {e : Fault}
    (h : fieldsOf fields flat = .error e) : e.Framed host := by
  induction fields, flat using fieldsOf.induct with
  | case1 fields k v rest ih =>
    rw [fieldsOf] at h
    exact ih h
  | case2 fields key v rest hkey =>
    rw [fieldsOf] at h
    · cases h
      exact fun he => he.elim
    · exact hkey
  | case3 fields flat h1 h2 =>
    rw [fieldsOf] at h
    · cases h
    · exact h1
    · exact h2

theorem framed_free {f : Function} {index : Nat} {e : Fault} (h : f.free? index = .error e) :
    e.Framed host := by
  unfold Function.free? at h
  split at h <;> cases h
  exact fun he => he.elim

/-- The fault of a check says what is wrong with a value or a number. -/
theorem framed_checkArity {f : Function} {argc : Nat} {e : Fault}
    (h : f.checkArity argc = .error e) : e.Framed host := by
  unfold Function.checkArity at h
  split at h <;> cases h
  exact fun he => he.elim

/-- By cases of the checks that instructions make. -/
theorem Check.framed {r : Except Fault α} (h : Check r) {e : Fault} (he : r = .error e) :
    e.Framed host := by
  cases h with
  | unary op v => exact (HeapM.excused_unary he).framed
  | order op left right => exact (HeapM.excused_order he).framed
  | index heap receiver key => exact (HeapM.excused_index he).framed
  | fields flat => exact framed_fieldsOf he
  | free f index => exact framed_free he
  | arity f argc => exact framed_checkArity he

/-! ## Whatever is quiet -/

/-- Of all effects only one is on the activations. -/
theorem Uses.quiet {E : List Effect} {x : Exec α} (h : Uses E x) (hE : .rebind ∉ E) :
    Quiet host x := by
  induction h with
  | pure a => exact quiet_pure a
  | bind _ _ hx hk => exact hx.bind hk
  | throw he => exact quiet_throw he
  | withHeap _ ih => exact quiet_get.bind fun m => ih m.heap
  | stackSize => exact quiet_get.bind fun _ => quiet_pure _
  | frame => exact quiet_frame
  | constant index => exact quiet_constant index
  | global index => exact quiet_global index
  | ofExcept h => exact quiet_ofExcept fun _ => h.framed
  | onStack h => exact quiet_onStack (.of_uses h)
  | onHeap h => exact quiet_onHeap h.works h.ordinary
  | setGlobal index v => exact quiet_setGlobal index v
  | charge => exact quiet_charge
  | defineLocal _ _ h => exact absurd h hE
  | captureLocal _ h => exact absurd h hE

/-- A builtin works on the heap, and its arguments and its result are on the stack. -/
theorem quiet_callBuiltin (b : Builtin) (callee : Nat) :
    Quiet host (callBuiltin host b callee) := by
  apply (quiet_onStack (.of_uses (.sliceFrom (E := []) _))).bind
  intro args
  apply (quiet_onHeap (HeapM.works_call b args) (HeapM.ordinary_call b args)).bind
  intro result
  exact (uses_replaceCallee callee result).quiet (by decide)

end Exec
end ScriptVM
