import ScriptVM.Proofs.Fetch
import ScriptVM.Proofs.Region

/-!
# Machines confined to a region

A machine is confined to a region if all its values are of the region. An instruction keeps it so,
whatever code it is part of, except that the region must also have the constants it loads and the
closures it makes. What is outside of the region is then not changed by any run.
-/

namespace ScriptVM

variable {S : Region} {before : Heap}

structure Frame.Within (S : Region) (f : Frame) : Prop where
  function : S.functions f.function
  free : ∀ c ∈ f.function.cells, S.cells c
  promoted : ∀ p ∈ f.promoted, S.cells p.2

/-- A machine with nothing but values of the region. -/
structure Machine.Confined (m : Machine) (S : Region) (before : Heap) : Prop where
  heap : m.heap.Confined S before
  stack : ∀ v ∈ m.stack.values, v.Within S
  globals : ∀ v ∈ m.globals, v.Within S
  frames : ∀ f ∈ m.frames, f.Within S

/-- What the region must have for an instruction: the constant that it loads, and the function that
it makes a closure of, whatever cells the closure gets. -/
def Instruction.Allowed (S : Region) (constants : Array Value) (i : Instruction) : Prop :=
  match i.op with
  | .constant => ∀ v, constants[i.first]? = some v → v.Within S
  | .closure => ∀ f : FunctionObject, constants[i.first]? = some (.function f) →
    ∀ cells : List CellRef, cells.length = f.function.captures.length →
      S.functions { f.function with cells := cells }
  | _ => True

namespace Frame.Within

variable {f : Frame}

theorem withIp (h : f.Within S) (ip : Nat) : { f with ip := ip }.Within S := { h with }

theorem cell (h : f.Within S) {slot : Nat} {c : CellRef} (hc : f.cell? slot = some c) :
    S.cells c := by
  obtain ⟨l₁, l₂, heq, -⟩ := List.lookup_eq_some_iff.1 hc
  exact h.promoted (slot, c) (by simp [heq])

theorem unbind (h : f.Within S) (slot : Nat) : (f.unbind slot).Within S where
  function := h.function
  free := h.free
  promoted p hp := h.promoted p (List.mem_filter.1 hp).1

end Frame.Within

namespace Exec

variable {α β : Type} {constants : Array Value}

/-- Begun with a confined machine, the computation ends with one, and with an answer that has a
property. -/
def Confines (S : Region) (before : Heap) (constants : Array Value) (x : Exec α) (Q : α → Prop) :
    Prop :=
  Ensures (fun m => m.Confined S before ∧ m.constants = constants) x
    (fun a m => Q a ∧ m.Confined S before ∧ m.constants = constants)
    (fun _ m => m.Confined S before ∧ m.constants = constants)

variable {x : Exec α} {k : α → Exec β} {Q : α → Prop} {R : β → Prop}

/-! ## Sequencing

A computation of the machine is confined part by part. The constants stay as they are, so they need
not be of the region: it is enough that those which are loaded are.
-/

/-- The second part begins with a confined machine, and knows what the first has answered with. -/
theorem Confines.bind (hx : Confines S before constants x Q)
    (hk : ∀ a, Q a → Confines S before constants (k a) R) :
    Confines S before constants (x >>= k) R :=
  Ensures.bind hx fun a m hm => hk a hm.1 m hm.2

theorem confines_pure {a : α} (ha : Q a) : Confines S before constants (pure a) Q :=
  fun _ hm => ⟨ha, hm⟩

theorem confines_throw (e : Fault) : Confines S before constants (throw e : Exec α) Q :=
  fun _ hm => hm

theorem Confines.discard (hx : Confines S before constants x Q) :
    Confines S before constants (discard x) fun _ => True := by
  rw [discard_eq]
  exact hx.bind fun _ _ => confines_pure trivial

/-- An instruction that does not end the run has no result that could be outside. -/
theorem Confines.goOn {x : Exec Unit} (hx : Confines S before constants x fun _ => True) :
    Confines S before constants (goOn x) fun r => ∀ v, r = some v → v.Within S :=
  Confines.bind hx fun _ _ => confines_pure (by simp)

/-- The machine itself may be looked at: it is confined, and its constants are the given ones. -/
theorem confines_get :
    Confines S before constants get fun m => m.Confined S before ∧ m.constants = constants :=
  fun _ hm => ⟨hm, hm⟩

/-! ## Parts of the machine

-/

/-- What keeps to the region on a heap alone does so on the heap of a machine. -/
theorem confines_onHeap {x : HeapM α} (hx : HeapM.Keeps S before x Q) :
    Confines S before constants (onHeap x) Q := by
  rintro m ⟨hm, hc⟩
  rw [onHeap_eq]
  have h := hx m.heap hm.heap
  cases hr : x m.heap with
  | ok a h' =>
    rw [hr] at h
    exact ⟨h.1, { hm with heap := h.2 }, hc⟩
  | error e h' =>
    rw [hr] at h
    exact ⟨{ hm with heap := h }, hc⟩

theorem confines_ofExcept {r : Except Fault α} (hr : ∀ a, r = .ok a → Q a) :
    Confines S before constants (ofExcept r) Q := by
  cases r with
  | ok a => exact confines_pure (hr a rfl)
  | error e => exact confines_throw e

/-- A computation of the stack that leaves on it only what was there, and answers with that. -/
theorem confines_onStack {x : StackM α}
    (hx : ∀ s : Stack, (∀ v ∈ s.values, v.Within S) →
      match x s with
      | .ok a s => Q a ∧ ∀ v ∈ s.values, v.Within S
      | .error _ s => ∀ v ∈ s.values, v.Within S) :
    Confines S before constants (onStack x) Q := by
  rintro m ⟨hm, hc⟩
  rw [onStack_eq]
  have h := hx m.stack hm.stack
  cases hr : x m.stack with
  | ok a s =>
    rw [hr] at h
    exact ⟨h.1, { hm with stack := h.2 }, hc⟩
  | error e s =>
    rw [hr] at h
    exact ⟨{ hm with stack := h }, hc⟩

/-- A value must be of the region to get on the stack, and so what comes off it is. -/
theorem confines_push {v : Value} (hv : v.Within S) :
    Confines S before constants (push v) fun _ => True := by
  refine confines_onStack fun s hs => ?_
  unfold Stack.push
  by_cases h : s.values.size < s.capacity <;> simp only [h, if_true, if_false]
  · refine ⟨trivial, fun w hw => ?_⟩
    rcases Array.mem_push.1 hw with hw | rfl
    · exact hs w hw
    · exact hv
  · exact hs

theorem mem_pop {vs : Array Value} {v : Value} (h : v ∈ vs.pop) : v ∈ vs := by
  rw [← Array.mem_toList_iff, Array.toList_pop] at h
  exact Array.mem_toList_iff.1 ((List.dropLast_sublist _).subset h)

theorem confines_pop : Confines S before constants pop (Value.Within S) := by
  refine confines_onStack fun s hs => ?_
  unfold Stack.pop
  cases hb : s.values.back? with
  | none => exact hs
  | some v => exact ⟨hs v (Array.mem_of_back? hb), fun w hw => hs w (mem_pop hw)⟩

theorem confines_top : Confines S before constants top (Value.Within S) := by
  refine confines_onStack fun s hs => ?_
  unfold Stack.peek
  by_cases h : 0 < s.values.size <;> simp only [h, if_true, if_false]
  · cases hv : s.values[s.values.size - 1 - 0]? with
    | none => exact hs
    | some v => exact ⟨hs v (Array.mem_of_getElem? hv), hs⟩
  · exact hs

theorem mem_shrink {vs : Array Value} {n : Nat} {v : Value} (h : v ∈ vs.shrink n) : v ∈ vs := by
  rw [← Array.mem_toList_iff, Array.toList_shrink] at h
  exact Array.mem_toList_iff.1 (List.mem_of_mem_take h)

theorem mem_extract {vs : Array Value} {start stop : Nat} {v : Value}
    (h : v ∈ (vs.extract start stop).toList) : v ∈ vs := by
  rw [Array.mem_toList_iff] at h
  obtain ⟨i, hi, heq⟩ := Array.mem_extract_iff_getElem.1 h
  exact heq ▸ Array.getElem_mem _

theorem confines_popMany (n : Nat) :
    Confines S before constants (onStack (Stack.popMany n)) fun vs => ∀ v ∈ vs, v.Within S := by
  refine confines_onStack fun s hs => ?_
  unfold Stack.popMany
  by_cases h : n ≤ s.values.size <;> simp only [h, if_true, if_false]
  · exact ⟨fun v hv => hs v (mem_extract hv), fun v hv => hs v (mem_shrink hv)⟩
  · exact hs

theorem confines_stackGet (i : Nat) :
    Confines S before constants (onStack (Stack.get i)) (Value.Within S) := by
  refine confines_onStack fun s hs => ?_
  unfold Stack.get
  cases hv : s.values[i]? with
  | none => exact hs
  | some v => exact ⟨hs v (Array.mem_of_getElem? hv), hs⟩

theorem confines_stackSet (i : Nat) {v : Value} (hv : v.Within S) :
    Confines S before constants (onStack (Stack.set i v)) fun _ => True := by
  refine confines_onStack fun s hs => ?_
  unfold Stack.set
  by_cases h : i < s.values.size <;> simp only [h, if_true, if_false]
  · refine ⟨trivial, fun w hw => ?_⟩
    rcases Array.mem_or_eq_of_mem_setIfInBounds hw with hw | rfl
    · exact hs w hw
    · exact hv
  · exact hs

theorem confines_truncate (n : Nat) :
    Confines S before constants (onStack (Stack.truncate n)) fun _ => True :=
  confines_onStack fun _ hs => ⟨trivial, fun v hv => hs v (mem_shrink hv)⟩

theorem confines_sliceFrom (n : Nat) :
    Confines S before constants (onStack (Stack.sliceFrom n)) fun vs => ∀ v ∈ vs, v.Within S := by
  refine confines_onStack fun s hs => ?_
  unfold Stack.sliceFrom
  by_cases h : n ≤ s.values.size <;> simp only [h, if_true, if_false]
  · exact ⟨fun v hv => hs v (mem_extract hv), hs⟩
  · exact hs

theorem confines_pushUndefined (n : Nat) :
    Confines S before constants (pushUndefined n) fun _ => True := by
  induction n with
  | zero => exact confines_pure trivial
  | succ n ih => exact (confines_push (by trivial)).bind fun _ _ => ih

theorem confines_pushAll {vs : List Value} (hvs : ∀ v ∈ vs, v.Within S) :
    Confines S before constants (pushAll vs) fun _ => True := by
  induction vs with
  | nil => exact confines_pure trivial
  | cons v vs ih =>
    exact (confines_push (hvs v (.head _))).bind fun _ _ => ih fun w hw => hvs w (.tail _ hw)

theorem confines_stackSize : Confines S before constants stackSize fun _ => True :=
  fun _ hm => ⟨trivial, hm⟩

theorem confines_isFalsy (v : Value) : Confines S before constants (isFalsy v) fun _ => True :=
  fun _ hm => ⟨trivial, hm⟩

/-- A constant that is loaded is an entry of the pool; whether it is of the region is asked
elsewhere. -/
theorem confines_constant (index : Nat) :
    Confines S before constants (constant index) fun v => constants[index]? = some v := by
  rintro m ⟨hm, rfl⟩
  rw [constant_eq]
  cases hv : m.constants[index]? with
  | none => exact ⟨hm, rfl⟩
  | some v => exact ⟨rfl, hm, rfl⟩

theorem confines_global (index : Nat) :
    Confines S before constants (global index) (Value.Within S) := by
  rintro m ⟨hm, hc⟩
  rw [global_eq]
  cases hv : m.globals[index]? with
  | none => exact ⟨hm, hc⟩
  | some v => exact ⟨hm.globals v (Array.mem_of_getElem? hv), hm, hc⟩

theorem confines_setGlobal (index : Nat) {v : Value} (hv : v.Within S) :
    Confines S before constants (setGlobal index v) fun _ => True := by
  rintro m ⟨hm, hc⟩
  rw [setGlobal_eq]
  by_cases h : index < m.globals.size <;> simp only [h, if_true, if_false]
  · refine ⟨trivial, { hm with globals := fun w hw => ?_ }, hc⟩
    rcases Array.mem_or_eq_of_mem_setIfInBounds hw with hw | rfl
    · exact hm.globals w hw
    · exact hv
  · exact ⟨hm, hc⟩

theorem confines_charge : Confines S before constants charge fun _ => True := by
  rintro m ⟨hm, hc⟩
  rw [charge_eq]
  rcases m.budget with _ | _ | n
  · exact ⟨trivial, hm, hc⟩
  · exact ⟨hm, hc⟩
  · exact ⟨trivial, { hm with }, hc⟩

/-! ## Activations

-/

/-- The executing activation has its cells in the region, as all of them have. -/
theorem confines_frame : Confines S before constants frame (Frame.Within S) := by
  rintro m ⟨hm, hc⟩
  cases hf : m.frames with
  | nil =>
    rw [frame_of_no_frame hf]
    exact ⟨hm, hc⟩
  | cons f rest =>
    rw [frame_eq hf]
    exact ⟨hm.frames f (by simp [hf]), hm, hc⟩

theorem confines_setFrame {f : Frame} (hf : f.Within S) :
    Confines S before constants (setFrame f) fun _ => True := by
  rintro m ⟨hm, hc⟩
  rw [setFrame_eq]
  refine ⟨trivial, { hm with frames := fun g hg => ?_ }, hc⟩
  rcases List.mem_cons.1 hg with rfl | hg
  · exact hf
  · exact hm.frames g (List.mem_of_mem_tail hg)

/-- The new activation must be of the region; the ones below are already. -/
theorem confines_pushFrame {f : Frame} (hf : f.Within S) :
    Confines S before constants (pushFrame f) fun _ => True := by
  rintro m ⟨hm, hc⟩
  rw [pushFrame_eq]
  by_cases h : m.frames.length < m.maxFrames <;> simp only [h, if_true, if_false]
  · refine ⟨trivial, { hm with frames := fun g hg => ?_ }, hc⟩
    rcases List.mem_cons.1 hg with rfl | hg
    · exact hf
    · exact hm.frames g hg
  · exact ⟨hm, hc⟩

theorem confines_jump (target : Nat) : Confines S before constants (jump target) fun _ => True := by
  refine confines_frame.bind fun f hf => ?_
  split
  · exact confines_setFrame (hf.withIp target)
  · exact confines_throw _

/-! ## Locals and closures

A local is read on the stack or in a cell, and a captured one in a cell of the closure. All of these
cells are of the region: either they are new, or an activation of the region had them.
-/

/-- A cell of the region holds a value of the region. -/
theorem confines_cellAt {c : CellRef} (hc : S.cells c) :
    Confines S before constants (do return (← get).heap.cellAt c) (Value.Within S) :=
  confines_get.bind fun _ hm => confines_pure (hm.1.heap.cells c hc)

theorem confines_setCell {c : CellRef} (hc : S.cells c) {v : Value} (hv : v.Within S) :
    Confines S before constants (onHeap (modify fun h => h.setCell c v)) fun _ => True :=
  confines_onHeap (HeapM.keeps_modify fun _ hh => hh.setCell hc hv)

theorem confines_getLocal (slot : Nat) :
    Confines S before constants (getLocal slot) (Value.Within S) := by
  refine confines_frame.bind fun f hf => ?_
  split
  · rename_i c hc
    exact confines_cellAt (hf.cell hc)
  · exact confines_stackGet _

theorem confines_setLocal (slot : Nat) {v : Value} (hv : v.Within S) :
    Confines S before constants (setLocal slot v) fun _ => True := by
  refine confines_frame.bind fun f hf => ?_
  split
  · rename_i c hc
    exact confines_setCell (hf.cell hc) hv
  · exact confines_stackSet _ hv

theorem confines_defineLocal (slot : Nat) {v : Value} (hv : v.Within S) :
    Confines S before constants (defineLocal slot v) fun _ => True :=
  confines_frame.bind fun _ hf => (confines_setFrame (hf.unbind slot)).bind fun _ _ =>
    confines_stackSet _ hv

theorem confines_freeCell (index : Nat) :
    Confines S before constants (freeCell index) S.cells := by
  refine confines_frame.bind fun f hf => confines_ofExcept fun c hc => hf.free c ?_
  unfold Function.free? at hc
  split at hc
  · rename_i c' hc'
    cases hc
    exact List.mem_of_getElem? hc'
  · cases hc

theorem confines_getFree (index : Nat) :
    Confines S before constants (getFree index) (Value.Within S) :=
  (confines_freeCell index).bind fun _ hc => confines_cellAt hc

theorem confines_setFree (index : Nat) {v : Value} (hv : v.Within S) :
    Confines S before constants (setFree index v) fun _ => True :=
  (confines_freeCell index).bind fun _ hc => confines_setCell hc hv

theorem confines_coreBuiltin (index : Nat) :
    Confines S before constants (coreBuiltin index) (Value.Within S) := by
  unfold coreBuiltin
  split
  · exact confines_pure trivial
  · exact confines_throw _

/-- A local that moves to a cell takes its value along, so the new cell holds nothing from
outside. -/
theorem keeps_promote {f : Frame} (hf : f.Within S) (slot : Nat) {v : Value} (hv : v.Within S) :
    HeapM.Keeps S before (f.promote slot v) fun p => S.cells p.1 ∧ p.2.2.Within S := by
  unfold Frame.promote
  split
  · rename_i c hc
    exact HeapM.keeps_pure ⟨hf.cell hc, hf⟩
  · refine (HeapM.keeps_newCell hv).bind fun c hc =>
      HeapM.keeps_pure ⟨hc, { hf with promoted := ?_ }⟩
    intro p hp
    rcases List.mem_cons.1 hp with rfl | hp
    · exact hc
    · exact hf.promoted p hp

theorem confines_captureLocal (slot : Nat) :
    Confines S before constants (captureLocal slot) S.cells := by
  refine confines_frame.bind fun f hf => (confines_stackGet _).bind fun v hv => ?_
  refine (confines_onHeap (keeps_promote hf slot hv)).bind fun p hp => ?_
  obtain ⟨cell, created, f'⟩ := p
  refine (confines_setFrame hp.2).bind fun _ _ => ?_
  cases created with
  | true => exact confines_charge.bind fun _ _ => confines_pure hp.1
  | false => exact confines_pure hp.1

theorem confines_capture (c : Capture) : Confines S before constants (capture c) S.cells := by
  cases c with
  | ofLocal slot => exact confines_captureLocal slot
  | ofFree index => exact confines_freeCell index

/-- There are as many cells as captures, which tells that the closure is one that the region
allows. -/
theorem confines_captureAll (cs : List Capture) :
    Confines S before constants (captureAll cs) fun cells =>
      (∀ c ∈ cells, S.cells c) ∧ cells.length = cs.length := by
  induction cs with
  | nil => exact confines_pure ⟨by simp, rfl⟩
  | cons c cs ih =>
    refine (confines_capture c).bind fun cell hc => ih.bind fun cells hcells => ?_
    refine confines_pure ⟨?_, by simp [hcells.2]⟩
    intro c' hc'
    rcases List.mem_cons.1 hc' with rfl | hc'
    · exact hc
    · exact hcells.1 c' hc'

/-- The region has to allow the function with whatever cells the closure may get, as long as there
are as many of them as captures. -/
theorem confines_makeClosure {index : Nat}
    (h : ∀ f : FunctionObject, constants[index]? = some (.function f) →
      ∀ cells : List CellRef, cells.length = f.function.captures.length →
        S.functions { f.function with cells := cells }) :
    Confines S before constants (makeClosure index) (Value.Within S) := by
  refine (confines_constant index).bind fun v hv => ?_
  split
  · rename_i prototype
    refine (confines_captureAll _).bind fun cells hcells => confines_charge.bind fun _ _ => ?_
    refine (confines_onHeap (HeapM.keeps_newFunction _)).bind fun o ho => confines_pure ?_
    show S.functions o.function ∧ ∀ c ∈ o.function.cells, S.cells c
    rw [ho]
    exact ⟨h prototype hv cells hcells.2, hcells.1⟩
  · exact confines_throw _

/-! ## Operators and containers

-/

theorem confines_applyBinary (op : Opcode) :
    Confines S before constants (applyBinary op) fun _ => True :=
  confines_pop.bind fun _ hr => confines_pop.bind fun _ hl =>
    (confines_onHeap (HeapM.keeps_binary op hl hr)).bind fun _ hv =>
      confines_charge.bind fun _ _ => confines_push hv

theorem confines_applyUnary (op : Opcode) :
    Confines S before constants (applyUnary op) fun _ => True :=
  confines_pop.bind fun _ _ => (confines_ofExcept fun _ h => HeapM.within_unary h).bind fun _ hw =>
    confines_charge.bind fun _ _ => confines_push hw

theorem confines_applyOrder (op : Opcode) :
    Confines S before constants (applyOrder op) fun _ => True :=
  confines_pop.bind fun _ _ => confines_pop.bind fun _ _ =>
    (confines_ofExcept (Q := fun _ => True) fun _ _ => trivial).bind fun _ _ =>
      confines_push (by trivial)

theorem confines_popEqual : Confines S before constants popEqual fun _ => True :=
  confines_pop.bind fun _ _ => confines_pop.bind fun _ _ => confines_get.bind fun _ _ =>
    confines_pure trivial

theorem confines_makeArray (count : Nat) :
    Confines S before constants (makeArray count) fun _ => True := by
  refine (confines_popMany count).bind fun items hi => confines_charge.bind fun _ _ => ?_
  refine (confines_onHeap (HeapM.keeps_newArray fun v hv => hi v ?_)).bind fun _ => confines_push
  simpa using hv

/-- The fields of a new map are among the values that it is made of. -/
theorem mem_fieldsOf {P : Value → Prop} {flat : List Value} (hflat : ∀ v ∈ flat, P v)
    {fields result : FieldMap Value} (hf : ∀ p ∈ fields.entries, P p.2)
    (h : fieldsOf fields flat = .ok result) : ∀ p ∈ result.entries, P p.2 := by
  induction fields, flat using fieldsOf.induct with
  | case1 fields k v rest ih =>
    refine ih (fun w hw => hflat w (.tail _ (.tail _ hw))) (fun p hp => ?_) h
    rcases FieldMap.mem_insertEntry hp with rfl | hp
    · exact hflat v (.tail _ (.head _))
    · exact hf p hp
  | case2 fields key v rest hkey => simp [fieldsOf] at h
  | case3 flat fields h₁ h₂ =>
    have : fieldsOf fields flat = .ok fields := by simp [fieldsOf]
    rw [this] at h
    cases h
    exact hf

/-- Keys and values alternate on the stack, and all of them are of the region. -/
theorem confines_makeMap (pairs : Nat) :
    Confines S before constants (makeMap pairs) fun _ => True := by
  refine (confines_popMany _).bind fun flat hflat => ?_
  refine (confines_ofExcept fun fields h => mem_fieldsOf hflat (by simp [FieldMap.empty]) h).bind
    fun fields hf => confines_charge.bind fun _ _ => ?_
  exact (confines_onHeap (HeapM.keeps_newMap hf)).bind fun _ => confines_push

theorem confines_makeError : Confines S before constants makeError fun _ => True :=
  confines_pop.bind fun _ hv => confines_charge.bind fun _ _ => confines_push hv

theorem confines_readIndex : Confines S before constants readIndex fun _ => True :=
  confines_pop.bind fun _ _ => confines_pop.bind fun _ hr => confines_get.bind fun _ hm =>
    (confines_ofExcept fun _ h => HeapM.within_index hm.1.heap hr h).bind fun _ => confines_push

theorem confines_readSlice : Confines S before constants readSlice fun _ => True :=
  confines_pop.bind fun _ _ => confines_pop.bind fun _ _ => confines_pop.bind fun _ hr =>
    (confines_onHeap (HeapM.keeps_slice hr)).bind fun _ hv => confines_charge.bind fun _ _ =>
      confines_push hv

theorem confines_writeIndex : Confines S before constants writeIndex fun _ => True :=
  confines_pop.bind fun _ hv => confines_pop.bind fun _ _ => confines_pop.bind fun _ hr =>
    confines_onHeap (HeapM.keeps_assign hr hv)

/-! ## Jumps

A jump changes only where the executing activation goes on.
-/

theorem confines_jumpFalsy (target : Nat) :
    Confines S before constants (jumpFalsy target) fun _ => True := by
  refine confines_pop.bind fun v _ => (confines_isFalsy v).bind fun b _ => ?_
  split
  · exact confines_jump target
  · exact confines_pure trivial

theorem confines_andJump (target : Nat) :
    Confines S before constants (andJump target) fun _ => True := by
  refine confines_top.bind fun v _ => (confines_isFalsy v).bind fun b _ => ?_
  split
  · exact confines_jump target
  · exact confines_pop.discard

theorem confines_orJump (target : Nat) :
    Confines S before constants (orJump target) fun _ => True := by
  refine confines_top.bind fun v _ => (confines_isFalsy v).bind fun b _ => ?_
  split
  · exact confines_pop.discard
  · exact confines_jump target

/-! ## Calls and returns

A call finds its function on the stack, so the function and its cells are of the region.
-/

/-- A new activation is of the region, with its cells and with the array that collects the rest of
its arguments. -/
theorem confines_enterFunction {f : Function} (hf : S.functions f)
    (hfree : ∀ c ∈ f.cells, S.cells c) (callee argc : Nat) :
    Confines S before constants (enterFunction f callee argc) fun _ => True := by
  have hlast : Confines S before constants (do
      pushUndefined (f.numLocals - ((← stackSize) - (callee + 1)))
      pushFrame (.start f (callee + 1))) fun _ => True :=
    confines_stackSize.bind fun _ _ => (confines_pushUndefined _).bind fun _ _ =>
      confines_pushFrame ⟨hf, hfree, by simp [Frame.start]⟩
  refine (confines_ofExcept (Q := fun _ => True) fun _ _ => trivial).bind fun _ _ => ?_
  split
  · refine (confines_popMany _).bind fun rest hr => ?_
    refine (confines_onHeap (HeapM.keeps_newArray fun v hv => hr v ?_)).bind fun v hv => ?_
    · simpa using hv
    · exact (confines_push hv).bind fun _ _ => hlast
  · exact hlast

/-- The arguments come off the stack, so a host that respects the region stays in it. -/
theorem confines_callBuiltin {host : Host} (hhost : HeapM.HostKeeps S host) (b : Builtin)
    (callee : Nat) : Confines S before constants (callBuiltin host b callee) fun _ => True := by
  refine (confines_sliceFrom _).bind fun args ha => ?_
  refine (confines_onHeap (HeapM.keeps_call hhost b ha)).bind fun result hr => ?_
  have hlast : Confines S before constants (do onStack (Stack.truncate callee); push result)
      fun _ => True := (confines_truncate callee).bind fun _ _ => confines_push hr
  split
  · exact hlast
  · exact confines_charge.bind fun _ _ => hlast

theorem confines_spreadLast (argc : Nat) :
    Confines S before constants (spreadLast argc) fun _ => True := by
  unfold spreadLast
  split
  · exact confines_pure trivial
  · refine confines_pop.bind fun v hv => ?_
    split
    · refine confines_get.bind fun m hm => (confines_pushAll fun w hw => ?_).bind fun _ _ =>
        confines_pure trivial
      exact hm.1.heap.arrays _ hv w (Array.mem_toList_iff.1 hw)
    · exact confines_throw _

/-- Whatever is called was on the stack, and is of the region for that reason. -/
theorem confines_call {host : Host} (hhost : HeapM.HostKeeps S host) (argc : Nat)
    (spread : Bool) : Confines S before constants (call host argc spread) fun _ => True := by
  have hcall (argc : Nat) : Confines S before constants (call host argc false) fun _ => True := by
    rw [call_eq_bind]
    refine confines_stackSize.bind fun size _ => ?_
    split
    · exact confines_throw _
    · refine (confines_stackGet _).bind fun v hv => ?_
      split
      · exact confines_enterFunction hv.1 hv.2 _ _
      · exact confines_callBuiltin hhost _ _
      · exact confines_throw _
  cases spread with
  | true => exact (confines_spreadLast argc).bind fun argc _ => hcall argc
  | false => exact hcall argc

theorem confines_returnValue (taken : Bool) :
    Confines S before constants (returnValue taken) (Value.Within S) := by
  cases taken with
  | true => exact confines_pop
  | false => exact confines_pure trivial

/-- The activation below is of the region too, so the run goes on confined. -/
theorem confines_leave {result : Value} (hr : result.Within S) :
    Confines S before constants (leave result) fun r => ∀ v, r = some v → v.Within S := by
  rintro m ⟨hm, hc⟩
  cases hf : m.frames with
  | nil =>
    rw [leave_of_no_frame hf]
    exact ⟨hm, hc⟩
  | cons f rest =>
    have hm' : Machine.Confined { m with frames := rest } S before :=
      { hm with frames := fun g hg => hm.frames g (by simp [hf, hg]) }
    rw [leave_eq hf]
    by_cases h : rest.isEmpty = true
    · simp only [h, if_true]
      exact ⟨fun v hv => Option.some.inj hv ▸ hr, hm', hc⟩
    · by_cases hb : f.base = 0 <;> simp only [h, hb, Bool.false_eq_true, if_true, if_false]
      · exact ⟨hm', hc⟩
      · have hlast : Confines S before constants
            (do onStack (Stack.truncate (f.base - 1)); push result; return (none : Option Value))
            fun r => ∀ v, r = some v → v.Within S :=
          (confines_truncate _).bind fun _ _ => (confines_push hr).bind fun _ _ =>
            confines_pure (by simp)
        exact hlast _ ⟨hm', hc⟩

theorem confines_haltResult : Confines S before constants haltResult (Value.Within S) := by
  refine confines_frame.bind fun f hf => confines_stackSize.bind fun size _ => ?_
  split
  · exact confines_top
  · exact confines_pure trivial

/-! ## All instructions -/

/-- An instruction that the region allows leaves a confined machine confined. -/
theorem confines_execute {host : Host} (hhost : HeapM.HostKeeps S host) {i : Instruction}
    (hi : i.Allowed S constants) :
    Confines S before constants (execute host i) fun r => ∀ v, r = some v → v.Within S := by
  obtain ⟨op, operands⟩ := i
  cases op with
  | constant => exact ((confines_constant _).bind fun v hv => confines_push (hi v hv)).goOn
  | null | true | false => exact (confines_push (by trivial)).goOn
  | pop => exact confines_pop.discard.goOn
  | equal | notEqual => exact (confines_popEqual.bind fun _ _ => confines_push (by trivial)).goOn
  | lnot =>
    exact (confines_pop.bind fun _ _ => (confines_isFalsy _).bind fun _ _ =>
      confines_push (by trivial)).goOn
  | add | sub | mul | div | rem | bitAnd | bitOr | bitXor | bitAndNot | shl | shr =>
    exact (confines_applyBinary _).goOn
  | less | lessEq | greater | greaterEq => exact (confines_applyOrder _).goOn
  | minus | bComplement => exact (confines_applyUnary _).goOn
  | array => exact (confines_makeArray _).goOn
  | map => exact (confines_makeMap _).goOn
  | error => exact confines_makeError.goOn
  | index => exact confines_readIndex.goOn
  | sliceIndex => exact confines_readSlice.goOn
  | setIndex => exact confines_writeIndex.goOn
  | jump => exact (confines_jump _).goOn
  | jumpFalsy => exact (confines_jumpFalsy _).goOn
  | andJump => exact (confines_andJump _).goOn
  | orJump => exact (confines_orJump _).goOn
  | call => exact (confines_call hhost _ _).goOn
  | getGlobal => exact ((confines_global _).bind fun _ => confines_push).goOn
  | setGlobal => exact (confines_pop.bind fun _ hv => confines_setGlobal _ hv).goOn
  | getLocal => exact ((confines_getLocal _).bind fun _ => confines_push).goOn
  | setLocal => exact (confines_pop.bind fun _ hv => confines_setLocal _ hv).goOn
  | defineLocal => exact (confines_pop.bind fun _ hv => confines_defineLocal _ hv).goOn
  | getFree => exact ((confines_getFree _).bind fun _ => confines_push).goOn
  | setFree => exact (confines_pop.bind fun _ hv => confines_setFree _ hv).goOn
  | getBuiltin => exact ((confines_coreBuiltin _).bind fun _ => confines_push).goOn
  | closure => exact ((confines_makeClosure hi).bind fun _ => confines_push).goOn
  | ret => exact (confines_returnValue _).bind fun _ => confines_leave
  | halt =>
    exact confines_haltResult.bind fun v hv => confines_pure fun w hw => Option.some.inj hw ▸ hv

end Exec

/-! ## Steps -/

variable {m : Machine} {host : Host}

/-- Where the machine goes on has no bearing on what it holds. -/
theorem Machine.Confined.goTo (hm : m.Confined S before) (ip : Nat) :
    (m.goTo ip).Confined S before := by
  cases hf : m.frames with
  | nil => simpa [Machine.goTo, hf] using hm
  | cons f rest =>
    rw [goTo_eq hf]
    refine { hm with frames := fun g hg => ?_ }
    rcases List.mem_cons.1 hg with rfl | hg
    · exact (hm.frames f (by simp [hf])).withIp ip
    · exact hm.frames g (by simp [hf, hg])

/-- A step leaves a confined machine confined, if the region allows its instruction. -/
theorem Machine.Confined.step (hhost : HeapM.HostKeeps S host) (hm : m.Confined S before)
    (hi : ∀ f rest i next, m.frames = f :: rest → f.function.fetch f.ip = .instruction i next →
      i.Allowed S m.constants) :
    match Exec.step host m with
    | .ok r m' => (∀ v, r = some v → v.Within S) ∧ m'.Confined S before ∧
        m'.constants = m.constants
    | .error _ m' => m'.Confined S before ∧ m'.constants = m.constants := by
  cases hf : m.frames with
  | nil =>
    rw [Exec.step_of_no_frame host hf]
    exact ⟨hm, rfl⟩
  | cons f rest =>
    rw [Exec.step_eq host hf]
    cases hfetch : f.function.fetch f.ip with
    | fault e ip => exact ⟨hm.goTo ip, constants_goTo m ip⟩
    | instruction i next =>
      have h := Exec.confines_execute hhost (hi f rest i next hf hfetch) (m.goTo next)
        ⟨hm.goTo next, constants_goTo m next⟩
      dsimp only
      cases hx : Exec.execute host i (m.goTo next) with
      | ok r m' =>
        rw [hx] at h
        exact h
      | error e m' =>
        rw [hx] at h
        exact h

end ScriptVM
