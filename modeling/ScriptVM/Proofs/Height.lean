import ScriptVM.Machine.Run
import ScriptVM.Proofs.MachineFault
import ScriptVM.Proofs.Verified

/-!
# Verified code does not go wrong

Code that is verified never runs into a fault of the machine. The invariant is `Stacked`: every
activation is at an offset with a height, and the stack is as high there as the height says.
Verified callees are found because the machine is confined to the region of verified functions.
-/

namespace ScriptVM

variable {host : Host} {E : Setting}

/-! ## The size of a machine

What faults of the machine depend on is how many values are on the stack and which activations there
are, not what the values are. Cells of locals do not count either, since a local has its slot on the
stack with a cell or without.
-/

def Frame.bare (f : Frame) : Frame := { f with promoted := [] }

/-- The machine has these activations, up to the cells of their locals, and so many values on its
stack. -/
structure Machine.Sized (E : Setting) (frames : List Frame) (size : Nat) (m : Machine) : Prop where
  constants : m.constants = E.constants
  globals : m.globals.size = E.globals
  frames : m.frames.map Frame.bare = frames
  size : m.stack.size = size

namespace Exec

variable {α β : Type} {F F' F'' : List Frame} {n n' n'' : Nat}

/-- The computation takes a machine from one size to another, without faults of the machine. -/
def Resizes (host : Host) (E : Setting) (F : List Frame) (n : Nat) (x : Exec α) (F' : List Frame)
    (n' : Nat) : Prop :=
  Ensures (Machine.Sized E F n) x (fun _ => Machine.Sized E F' n') (fun e _ => e.Excused host)

/-! ## Sequencing

Sizes are chained: each part begins with the size that the one before has left.
-/

/-- The size in between does not depend on the answer of the first part. -/
theorem Resizes.bind {x : Exec α} {k : α → Exec β} (hx : Resizes host E F n x F' n')
    (hk : ∀ a, Resizes host E F' n' (k a) F'' n'') : Resizes host E F n (x >>= k) F'' n'' :=
  Ensures.bind hx hk

theorem resizes_pure (a : α) : Resizes host E F n (pure a) F n := fun _ hm => hm

/-- A fault may be raised at any size as long as it is excused. -/
theorem resizes_throw {e : Fault} (he : e.Excused host) :
    Resizes host E F n (throw e : Exec α) F' n' := fun _ _ => he

theorem Resizes.discard {x : Exec α} (hx : Resizes host E F n x F' n') :
    Resizes host E F n (discard x) F' n' := by
  rw [discard_eq]
  exact hx.bind fun _ => resizes_pure ()

theorem resizes_get : Resizes host E F n get F n := fun _ hm => hm

/-! ## The stack

Where a value is taken, the size says that it is there. Pushing may overflow, which is no fault of
the machine.
-/

theorem resizes_push (v : Value) : Resizes host E F n (push v) F (n + 1) := by
  intro m hm
  rw [push_eq]
  by_cases h : m.stack.values.size < m.stack.capacity <;> simp only [h, if_true, if_false]
  · exact { hm with size := (Array.size_push ..).trans (congrArg (· + 1) hm.size) }
  · exact False.elim

/-- A value less, and there was one. -/
theorem resizes_pop : Resizes host E F (n + 1) pop F n := by
  intro m hm
  rw [pop_eq]
  have hsize : m.stack.values.size = n + 1 := hm.size
  cases hb : m.stack.values.back? with
  | none =>
    rw [Array.back?_eq_none_iff] at hb
    simp [hb] at hsize
  | some v => exact { hm with size := by simp [Stack.size, hsize] }

theorem resizes_top : Resizes host E F (n + 1) top F (n + 1) := by
  intro m hm
  have hsize : m.stack.values.size = n + 1 := hm.size
  unfold top
  rw [onStack_eq, Stack.peek, if_pos (by omega)]
  cases hv : m.stack.values[m.stack.values.size - 1 - 0]? with
  | none =>
    rw [Array.getElem?_eq_none_iff] at hv
    omega
  | some v => exact hm

theorem resizes_popMany (count : Nat) :
    Resizes host E F (n + count) (onStack (Stack.popMany count)) F n := by
  intro m hm
  have hsize : m.stack.values.size = n + count := hm.size
  rw [onStack_eq, Stack.popMany, if_pos (by omega)]
  refine { hm with size := ?_ }
  simp only [Stack.size, Array.size_shrink]
  omega

theorem resizes_stackGet {i : Nat} (hi : i < n) :
    Resizes host E F n (onStack (Stack.get i)) F n := by
  intro m hm
  have hsize : m.stack.values.size = n := hm.size
  rw [onStack_eq, Stack.get, Array.getElem?_eq_getElem (by omega)]
  exact hm

theorem resizes_stackSet {i : Nat} (hi : i < n) (v : Value) :
    Resizes host E F n (onStack (Stack.set i v)) F n := by
  intro m hm
  have hsize : m.stack.values.size = n := hm.size
  rw [onStack_eq, Stack.set, if_pos (by omega)]
  exact { hm with size := (Array.size_setIfInBounds ..).trans hm.size }

/-- What is above goes, and as much is left as was asked for. -/
theorem resizes_truncate {i : Nat} (hi : i ≤ n) :
    Resizes host E F n (onStack (Stack.truncate i)) F i := by
  intro m hm
  have hsize : m.stack.values.size = n := hm.size
  refine { hm with size := ?_ }
  simp only [Stack.size, Array.size_shrink]
  omega

theorem resizes_sliceFrom {i : Nat} (hi : i ≤ n) :
    Resizes host E F n (onStack (Stack.sliceFrom i)) F n := by
  intro m hm
  have hsize : m.stack.values.size = n := hm.size
  rw [onStack_eq, Stack.sliceFrom, if_pos (by omega)]
  exact hm

theorem resizes_pushUndefined (count : Nat) :
    Resizes host E F n (pushUndefined count) F (n + count) := by
  induction count generalizing n with
  | zero => exact resizes_pure ()
  | succ count ih =>
    have h := (resizes_push .undefined).bind fun _ => ih (n := n + 1)
    rwa [show n + 1 + count = n + (count + 1) by omega] at h

theorem resizes_pushAll (vs : List Value) :
    Resizes host E F n (pushAll vs) F (n + vs.length) := by
  induction vs generalizing n with
  | nil => exact resizes_pure ()
  | cons v vs ih =>
    have h := (resizes_push v).bind fun _ => ih (n := n + 1)
    rwa [show n + 1 + vs.length = n + (v :: vs).length by rw [List.length_cons]; omega] at h

/-! ## Other parts of the machine

An index into the constants or the globals must be in range, which the verified code has been
checked for.
-/

/-- Work on the heap leaves the size alone, and must be ordinary. -/
theorem resizes_onHeap {x : HeapM α} (hx : HeapM.Ordinary host x) :
    Resizes host E F n (onHeap x) F n := by
  intro m hm
  rw [onHeap_eq]
  cases hr : x m.heap with
  | ok a h => exact { hm with }
  | error e h => exact hx _ _ _ hr

theorem resizes_newArray (items : Array Value) :
    Resizes host E F n (onHeap (HeapM.newArray items)) F n :=
  resizes_onHeap (HeapM.ordinary_modifyGet _)

theorem resizes_ofExcept {r : Except Fault α} (hr : ∀ e, r = .error e → e.Excused host) :
    Resizes host E F n (ofExcept r) F n := by
  cases r with
  | ok a => exact resizes_pure a
  | error e => exact resizes_throw (hr e rfl)

theorem resizes_isFalsy (v : Value) : Resizes host E F n (isFalsy v) F n := fun _ hm => hm

theorem resizes_charge : Resizes host E F n charge F n := by
  intro m hm
  rw [charge_eq]
  rcases m.budget with _ | _ | b
  · exact hm
  · exact False.elim
  · exact { hm with }

/-- The index has been checked against the pool, so there is a constant to load. -/
theorem resizes_constant {index : Nat} (h : index < E.constants.size) :
    Resizes host E F n (constant index) F n := by
  intro m hm
  rw [constant_eq, hm.constants, Array.getElem?_eq_getElem h]
  exact hm

theorem resizes_global {index : Nat} (h : index < E.globals) :
    Resizes host E F n (global index) F n := by
  intro m hm
  rw [global_eq, Array.getElem?_eq_getElem (by rw [hm.globals]; exact h)]
  exact hm

theorem resizes_setGlobal {index : Nat} (h : index < E.globals) (v : Value) :
    Resizes host E F n (setGlobal index v) F n := by
  intro m hm
  rw [setGlobal_eq, if_pos (by rw [hm.globals]; exact h)]
  exact { hm with globals := (Array.size_setIfInBounds ..).trans hm.globals }

/-! ## Activations

The executing activation is at hand, with its function, its offset and its base.
-/

variable {f : Frame} {rest : List Frame}

/-- Some cells of the activation may be unknown, and the rest of it is as the size says. -/
theorem Resizes.of_frame {k : Frame → Exec α}
    (hk : ∀ g, g.bare = f → Resizes host E (f :: rest) n (k g) F' n') :
    Resizes host E (f :: rest) n (frame >>= k) F' n' := by
  intro m hm
  obtain ⟨g, gs, hg, hbare, -⟩ := List.map_eq_cons_iff.1 hm.frames
  rw [bind_eq, frame_eq hg]
  exact hk g hbare m hm

theorem resizes_setFrame (g : Frame) :
    Resizes host E (f :: rest) n (setFrame g) (g.bare :: rest) n := by
  intro m hm
  obtain ⟨g', gs, hg, -, hrest⟩ := List.map_eq_cons_iff.1 hm.frames
  rw [setFrame_eq, hg, List.tail_cons]
  exact { hm with frames := by rw [List.map_cons, hrest] }

theorem resizes_pushFrame (g : Frame) : Resizes host E F n (pushFrame g) (g.bare :: F) n := by
  intro m hm
  rw [pushFrame_eq]
  by_cases h : m.frames.length < m.maxFrames <;> simp only [h, if_true, if_false]
  · exact { hm with frames := by rw [List.map_cons, hm.frames] }
  · exact False.elim

/-- A target within the code is accepted; that it has a height is a matter of verification. -/
theorem resizes_jump {target : Nat} (h : target ≤ f.function.code.size) :
    Resizes host E (f :: rest) n (jump target) ({ f with ip := target } :: rest) n := by
  refine .of_frame fun g hg => ?_
  subst hg
  have h' : target ≤ g.function.code.size := h
  rw [if_pos h']
  exact resizes_setFrame { g with ip := target }

/-! ## Locals and closures

A slot lies on the stack if the activation has as many local slots and all of them are on the stack.
A captured variable is there if the function has as many cells.
-/

theorem resizes_getLocal {slot : Nat} (h : f.base + slot < n) :
    Resizes host E (f :: rest) n (getLocal slot) (f :: rest) n := by
  refine .of_frame fun g hg => ?_
  subst hg
  split
  · exact resizes_get.bind fun _ => resizes_pure _
  · exact resizes_stackGet h

theorem resizes_setLocal {slot : Nat} (h : f.base + slot < n) (v : Value) :
    Resizes host E (f :: rest) n (setLocal slot v) (f :: rest) n := by
  refine .of_frame fun g hg => ?_
  subst hg
  split
  · exact resizes_onHeap (HeapM.ordinary_modifyGet _)
  · exact resizes_stackSet h v

theorem resizes_defineLocal {slot : Nat} (h : f.base + slot < n) (v : Value) :
    Resizes host E (f :: rest) n (defineLocal slot v) (f :: rest) n := by
  refine .of_frame fun g hg => ?_
  subst hg
  exact (resizes_setFrame (g.unbind slot)).bind fun _ => resizes_stackSet h v

/-- The function has captured at least so many variables. -/
theorem resizes_freeCell {index : Nat} (h : index < f.function.cells.length) :
    Resizes host E (f :: rest) n (freeCell index) (f :: rest) n := by
  refine .of_frame fun g hg => resizes_ofExcept fun e he => ?_
  subst hg
  have h' : index < g.function.cells.length := h
  simp [Function.free?, List.getElem?_eq_getElem h'] at he

theorem resizes_getFree {index : Nat} (h : index < f.function.cells.length) :
    Resizes host E (f :: rest) n (getFree index) (f :: rest) n :=
  (resizes_freeCell h).bind fun _ => resizes_get.bind fun _ => resizes_pure _

theorem resizes_setFree {index : Nat} (h : index < f.function.cells.length) (v : Value) :
    Resizes host E (f :: rest) n (setFree index v) (f :: rest) n :=
  (resizes_freeCell h).bind fun _ => resizes_onHeap (HeapM.ordinary_modifyGet _)

theorem resizes_coreBuiltin {index : Nat} (h : index < CoreBuiltin.table.length) :
    Resizes host E F n (coreBuiltin index) F n := by
  unfold coreBuiltin
  rw [CoreBuiltin.ofIndex?, List.getElem?_eq_getElem h]
  exact resizes_pure _

/-- A cell for a local does not change the bare activation. -/
theorem bare_of_promote {g g' : Frame} {slot : Nat} {v : Value} {h h' : Heap} {cell : CellRef}
    {created : Bool} (hp : g.promote slot v h = .ok (cell, created, g') h') : g'.bare = g.bare := by
  unfold Frame.promote at hp
  cases hc : g.cell? slot with
  | some c =>
    rw [hc] at hp
    cases hp
    rfl
  | none =>
    rw [hc] at hp
    cases hp
    rfl

theorem resizes_captureLocal {slot : Nat} (h : f.base + slot < n) :
    Resizes host E (f :: rest) n (captureLocal slot) (f :: rest) n := by
  refine .of_frame fun g hg => ?_
  subst hg
  refine (resizes_stackGet h).bind fun v => ?_
  have hpromote : Ensures (Machine.Sized E (g.bare :: rest) n) (onHeap (g.promote slot v))
      (fun p m => p.2.2.bare = g.bare ∧ Machine.Sized E (g.bare :: rest) n m)
      (fun e _ => e.Excused host) := by
    intro m hm
    rw [onHeap_eq]
    cases hp : g.promote slot v m.heap with
    | ok p h' =>
      obtain ⟨cell, created, g'⟩ := p
      exact ⟨bare_of_promote hp, { hm with }⟩
    | error e h' =>
      unfold Frame.promote at hp
      cases hc : g.cell? slot <;> rw [hc] at hp <;> cases hp
  refine hpromote.bind fun p => ?_
  obtain ⟨cell, created, g'⟩ := p
  rintro m ⟨hg', hm⟩
  have hset : Resizes host E (g.bare :: rest) n (setFrame g') (g'.bare :: rest) n :=
    resizes_setFrame g'
  rw [show g'.bare = g.bare from hg'] at hset
  refine (hset.bind fun _ => ?_) m hm
  cases created with
  | true => exact resizes_charge.bind fun _ => resizes_pure _
  | false => exact resizes_pure _

/-- What a capture names is in scope, so it is found in the activation or in its function. -/
theorem resizes_capture {c : Capture} (hn : f.base + f.function.numLocals ≤ n)
    (h : c.InScope f.function.numLocals f.function.cells.length) :
    Resizes host E (f :: rest) n (capture c) (f :: rest) n := by
  cases c with
  | ofLocal slot =>
    have h' : slot < f.function.numLocals := h
    exact resizes_captureLocal (by omega)
  | ofFree index => exact resizes_freeCell h

theorem resizes_captureAll (hn : f.base + f.function.numLocals ≤ n) {cs : List Capture}
    (h : ∀ c ∈ cs, c.InScope f.function.numLocals f.function.cells.length) :
    Resizes host E (f :: rest) n (captureAll cs) (f :: rest) n := by
  induction cs with
  | nil => exact resizes_pure []
  | cons c cs ih =>
    exact (resizes_capture hn (h c (.head _))).bind fun _ =>
      (ih fun c' hc' => h c' (.tail _ hc')).bind fun _ => resizes_pure _

/-- The captures are those of a constant that is a function, and all of them are in scope. -/
theorem resizes_makeClosure (hn : f.base + f.function.numLocals ≤ n) {index : Nat}
    {g : FunctionObject} (hg : E.constants[index]? = some (.function g))
    (h : ∀ c ∈ g.function.captures, c.InScope f.function.numLocals f.function.cells.length) :
    Resizes host E (f :: rest) n (makeClosure index) (f :: rest) n := by
  intro m hm
  unfold makeClosure
  rw [bind_eq, constant_eq, hm.constants, hg]
  exact ((resizes_captureAll hn h).bind fun _ => resizes_charge.bind fun _ =>
    (resizes_onHeap (HeapM.ordinary_modifyGet _)).bind fun _ => resizes_pure _) m hm

/-! ## Operators and containers

Operands are replaced by results, of which there are as many as the height of verified code says.
-/

theorem resizes_applyBinary (op : Opcode) :
    Resizes host E F (n + 2) (applyBinary op) F (n + 1) :=
  resizes_pop.bind fun _ => resizes_pop.bind fun _ =>
    (resizes_onHeap (HeapM.ordinary_binary _ _ _)).bind fun _ => resizes_charge.bind fun _ =>
      resizes_push _

theorem resizes_applyUnary (op : Opcode) : Resizes host E F (n + 1) (applyUnary op) F (n + 1) :=
  resizes_pop.bind fun _ => (resizes_ofExcept fun _ h => HeapM.excused_unary h).bind fun _ =>
    resizes_charge.bind fun _ => resizes_push _

theorem resizes_applyOrder (op : Opcode) : Resizes host E F (n + 2) (applyOrder op) F (n + 1) :=
  resizes_pop.bind fun _ => resizes_pop.bind fun _ =>
    (resizes_ofExcept fun _ h => HeapM.excused_order h).bind fun _ => resizes_push _

theorem resizes_popEqual : Resizes host E F (n + 2) popEqual F n :=
  resizes_pop.bind fun _ => resizes_pop.bind fun _ => resizes_get.bind fun _ => resizes_pure _

theorem resizes_makeArray (count : Nat) :
    Resizes host E F (n + count) (makeArray count) F (n + 1) :=
  (resizes_popMany count).bind fun _ => resizes_charge.bind fun _ =>
    (resizes_newArray _).bind fun _ => resizes_push _

/-- Keys of the wrong type are refused like any wrong operand. -/
theorem excused_fieldsOf {fields : FieldMap Value} {flat : List Value} {e : Fault}
    (h : fieldsOf fields flat = .error e) : e.Excused host := by
  induction fields, flat using fieldsOf.induct with
  | case1 fields k v rest ih => exact ih h
  | case2 fields key v rest hkey =>
    have h' : fieldsOf fields (key :: v :: rest) =
        .error (.invalidIndexType "map" key.typeName) := by
      rw [fieldsOf]
      exact hkey
    rw [h'] at h
    cases h
    exact False.elim
  | case3 flat fields h₁ h₂ => simp [fieldsOf] at h

theorem resizes_makeMap (pairs : Nat) :
    Resizes host E F (n + pairs * 2) (makeMap pairs) F (n + 1) :=
  (resizes_popMany _).bind fun _ => (resizes_ofExcept fun _ h => excused_fieldsOf h).bind fun _ =>
    resizes_charge.bind fun _ => (resizes_onHeap (HeapM.ordinary_modifyGet _)).bind fun _ =>
      resizes_push _

theorem resizes_makeError : Resizes host E F (n + 1) makeError F (n + 1) :=
  resizes_pop.bind fun _ => resizes_charge.bind fun _ => resizes_push _

theorem resizes_readIndex : Resizes host E F (n + 2) readIndex F (n + 1) :=
  resizes_pop.bind fun _ => resizes_pop.bind fun _ => resizes_get.bind fun _ =>
    (resizes_ofExcept fun _ h => HeapM.excused_index h).bind fun _ => resizes_push _

theorem resizes_readSlice : Resizes host E F (n + 3) readSlice F (n + 1) :=
  resizes_pop.bind fun _ => resizes_pop.bind fun _ => resizes_pop.bind fun _ =>
    (resizes_onHeap (HeapM.ordinary_slice _ _ _)).bind fun _ => resizes_charge.bind fun _ =>
      resizes_push _

theorem resizes_writeIndex : Resizes host E F (n + 3) writeIndex F n :=
  resizes_pop.bind fun _ => resizes_pop.bind fun _ => resizes_pop.bind fun _ =>
    resizes_onHeap (HeapM.ordinary_assign _ _ _)

/-! ## Calls and returns

A call leaves one value for the callee and its arguments, either at once or when the activation that
it starts returns.
-/

/-- The size says how high the stack is. -/
theorem Resizes.of_stackSize {k : Nat → Exec α} (hk : Resizes host E F n (k n) F' n') :
    Resizes host E F n (stackSize >>= k) F' n' := by
  intro m hm
  rw [bind_eq, stackSize_eq]
  dsimp only
  rw [hm.size]
  exact hk m hm

theorem ensures_checkArity (g : Function) (argc : Nat) :
    Ensures (Machine.Sized E F n) (ofExcept (g.checkArity argc))
      (fun _ m => g.arity.accepts argc = true ∧ Machine.Sized E F n m)
      (fun e _ => e.Excused host) := by
  intro m hm
  unfold Function.checkArity
  by_cases h : g.arity.accepts argc = true
  · rw [if_pos h]
    exact ⟨h, hm⟩
  · rw [if_neg h]
    exact False.elim

/-- A function is entered with its local slots on the stack. -/
theorem resizes_enterFunction {g : Function} (hp : g.numParams ≤ g.numLocals)
    (hv : g.variadic = true → 1 ≤ g.numParams) (callee argc : Nat) :
    Resizes host E F (callee + 1 + argc) (enterFunction g callee argc)
      (.start g (callee + 1) :: F) (callee + 1 + g.numLocals) := by
  have hlast : Resizes host E F (callee + 1 + g.numParams) (do
      pushUndefined (g.numLocals - ((← stackSize) - (callee + 1)))
      pushFrame (.start g (callee + 1))) (.start g (callee + 1) :: F)
      (callee + 1 + g.numLocals) := by
    refine .of_stackSize ?_
    have hsize : callee + 1 + g.numParams +
        (g.numLocals - (callee + 1 + g.numParams - (callee + 1))) = callee + 1 + g.numLocals := by
      omega
    rw [← hsize]
    exact (resizes_pushUndefined _).bind fun _ => resizes_pushFrame (.start g (callee + 1))
  refine (ensures_checkArity g argc).bind fun _ => .of_and fun harity => ?_
  split
  · rename_i hvar
    have hle : g.numParams - 1 ≤ argc := by
      simpa [Function.arity, hvar, Arity.accepts] using harity
    have hpos := hv hvar
    rw [show callee + 1 + argc = callee + 1 + (g.numParams - 1) + (argc - (g.numParams - 1)) by
      omega]
    refine (resizes_popMany _).bind fun rest => (resizes_newArray _).bind fun v => ?_
    refine (resizes_push v).bind fun _ => ?_
    rwa [show callee + 1 + (g.numParams - 1) + 1 = callee + 1 + g.numParams by omega]
  · rename_i hvar
    have heq : argc = g.numParams := by
      simpa [Function.arity, hvar, Arity.accepts] using harity
    rw [heq]
    exact hlast

/-- The callee and the arguments go, and the result comes. -/
theorem resizes_callBuiltin (b : Builtin) (callee argc : Nat) :
    Resizes host E F (callee + 1 + argc) (callBuiltin host b callee) F (callee + 1) := by
  refine (resizes_sliceFrom (by omega)).bind fun args => ?_
  refine (resizes_onHeap (HeapM.ordinary_call b args)).bind fun result => ?_
  have hlast : Resizes host E F (callee + 1 + argc)
      (do onStack (Stack.truncate callee); push result) F (callee + 1) :=
    (resizes_truncate (by omega)).bind fun _ => resizes_push _
  split
  · exact hlast
  · exact resizes_charge.bind fun _ => hlast

/-- Spreading puts as many values on the stack as it says there are arguments. -/
theorem ensures_spreadLast (argc : Nat) :
    Ensures (Machine.Sized E F (n + argc)) (spreadLast argc)
      (fun argc' => Machine.Sized E F (n + argc')) (fun e _ => e.Excused host) := by
  unfold spreadLast
  cases argc with
  | zero => exact fun m hm => hm
  | succ argc =>
    rw [if_neg (Nat.succ_ne_zero argc)]
    refine Ensures.bind (resizes_pop (n := n + argc)) fun v => ?_
    split
    · rename_i ref
      refine Ensures.bind resizes_get fun m₀ => Ensures.bind (resizes_pushAll _) fun _ => ?_
      intro m hm
      show Machine.Sized E F (n + (argc + 1 - 1 + (m₀.heap.arrayAt ref).size)) m
      rwa [show n + (argc + 1 - 1 + (m₀.heap.arrayAt ref).size) =
        n + argc + (m₀.heap.arrayAt ref).toList.length by rw [Array.length_toList]; omega]
    · exact fun _ _ => False.elim

variable {before : Heap}

/-- A machine that is confined to verified functions. -/
def Guarded (E : Setting) (before : Heap) (m : Machine) : Prop :=
  m.Confined E.region before ∧ m.constants = E.constants

/-- A call puts its result in the callee's place, or enters a verified function above it. -/
theorem ensures_call (argc : Nat) (spread : Bool) :
    Ensures (fun m => Machine.Sized E F (n + (argc + 1)) m ∧ Guarded E before m)
      (call host argc spread)
      (fun _ m => Machine.Sized E F (n + 1) m ∨ ∃ g : Function, g.Verified E g.cells.length ∧
        Machine.Sized E (.start g (n + 1) :: F) (n + 1 + g.numLocals) m)
      (fun e _ => e.Excused host) := by
  have hcall (argc : Nat) :
      Ensures (fun m => Machine.Sized E F (n + (argc + 1)) m ∧ Guarded E before m)
        (call host argc false)
        (fun _ m => Machine.Sized E F (n + 1) m ∨ ∃ g : Function, g.Verified E g.cells.length ∧
          Machine.Sized E (.start g (n + 1) :: F) (n + 1 + g.numLocals) m)
        (fun e _ => e.Excused host) := by
    rintro m ⟨hm, hg⟩
    rw [call_eq_bind, bind_eq, stackSize_eq]
    dsimp only
    rw [hm.size, if_neg (by omega), Nat.add_sub_cancel]
    have hsize : Resizes host E F (n + (argc + 1)) (onStack (Stack.get n)) F (n + (argc + 1)) :=
      resizes_stackGet (by omega)
    have hwithin : Confines E.region before E.constants (onStack (Stack.get n))
        (Value.Within E.region) := confines_stackGet n
    refine ((Ensures.and hsize hwithin).bind fun v => ?_) m ⟨hm, hg⟩
    rintro m ⟨hm, hv, -⟩
    rw [show n + (argc + 1) = n + 1 + argc by omega] at hm
    cases v with
    | function f =>
      have hverified : f.function.Verified E f.function.cells.length := hv.1
      have hchecked := hverified.checked
      exact (Ensures.post (resizes_enterFunction hchecked.params hchecked.variadic n argc)
        fun _ _ h => Or.inr ⟨f.function, hverified, h⟩) m hm
    | builtin b =>
      exact (Ensures.post (resizes_callBuiltin b n argc) fun _ _ h => Or.inl h) m hm
    | _ => exact False.elim
  cases spread with
  | true =>
    have hsize : Ensures (Machine.Sized E F (n + 1 + argc)) (spreadLast argc)
        (fun argc' => Machine.Sized E F (n + 1 + argc')) (fun e _ => e.Excused host) :=
      ensures_spreadLast argc
    have hwithin : Confines E.region before E.constants (spreadLast argc) fun _ => True :=
      confines_spreadLast argc
    refine Ensures.pre ((hsize.and hwithin).bind fun argc' => (hcall argc').pre ?_) ?_
    · rintro m ⟨hm, -, hg⟩
      exact ⟨by rwa [show n + (argc' + 1) = n + 1 + argc' by omega], hg⟩
    · rintro m ⟨hm, hg⟩
      exact ⟨by rwa [show n + 1 + argc = n + (argc + 1) by omega], hg⟩
  | false => exact hcall argc

/-- Unless it is the outermost, the activation has a callee on the stack for the result to
replace. -/
theorem ensures_leave (result : Value) (hbase : rest ≠ [] → f.base ≠ 0) (hn : f.base ≤ n) :
    Ensures (Machine.Sized E (f :: rest) n) (leave result)
      (fun r m => r = none → rest ≠ [] ∧ Machine.Sized E rest f.base m)
      (fun e _ => e.Excused host) := by
  intro m hm
  obtain ⟨g, gs, hg, hbare, hrest⟩ := List.map_eq_cons_iff.1 hm.frames
  subst hbare
  rw [leave_eq hg]
  by_cases h : gs.isEmpty = true
  · simp only [h, if_true]
    intro hr
    cases hr
  · have hne : rest ≠ [] := by
      rintro rfl
      simp at hrest
      simp [hrest] at h
    have hb : g.base ≠ 0 := hbase hne
    simp only [h, hb, Bool.false_eq_true, if_false]
    have hm' : Machine.Sized E rest n { m with frames := gs } := { hm with frames := hrest }
    have hlast : Resizes host E rest n
        (do onStack (Stack.truncate (g.base - 1)); push result; return (none : Option Value))
        rest (g.base - 1 + 1) := by
      have hn' : g.base ≤ n := hn
      exact (resizes_truncate (by omega)).bind fun _ => (resizes_push _).bind fun _ =>
        resizes_pure _
    rw [show g.base - 1 + 1 = g.base by omega] at hlast
    exact (Ensures.post hlast fun (r : Option Value) _ h (_ : r = none) => ⟨hne, h⟩) _ hm'

theorem resizes_returnValue (taken : Bool) :
    Resizes host E F (n + if taken then 1 else 0) (returnValue taken) F n := by
  cases taken with
  | true => exact resizes_pop
  | false => exact resizes_pure _

theorem resizes_haltResult : Resizes host E (f :: rest) n haltResult (f :: rest) n := by
  refine .of_frame fun g hg => .of_stackSize ?_
  split
  · cases n with
    | zero => omega
    | succ n => exact resizes_top
  · exact resizes_pure _

end Exec

/-! ## Verified activations

Verification gives a height to each offset that can be got to. An activation fits if its offset has
one and the stack above its slots is that high.
-/

/-- The activation is at an offset with a height, and the stack is that high. -/
def Frame.Fits (E : Setting) (f : Frame) (size : Nat) : Prop :=
  ∃ heights k, f.function.Heights (Function.Verified E) E f.function.cells.length heights ∧
    heights f.ip = some k ∧ size = f.base + f.function.numLocals + k

/-- Every activation fits, the ones beneath at the size that the one above returns to. -/
def Stacked (E : Setting) : List Frame → Nat → Prop
  | [], _ => True
  | f :: rest, size => f.Fits E size ∧ (rest ≠ [] → f.base ≠ 0) ∧ Stacked E rest f.base

/-- The machine is at a point of verified code. -/
def Machine.Ready (E : Setting) (m : Machine) : Prop :=
  ∃ f rest n, Machine.Sized E (f :: rest) n m ∧ Stacked E (f :: rest) n

/-- The activation executes verified code above activations that fit, wherever in its code it is. -/
structure Frame.Stands (E : Setting) (f : Frame) (rest : List Frame)
    (heights : Nat → Option Nat) : Prop where
  heights : f.function.Heights (Function.Verified E) E f.function.cells.length heights
  base : rest ≠ [] → f.base ≠ 0
  rest : Stacked E rest f.base

namespace Exec

variable {f : Frame} {rest : List Frame} {heights : Nat → Option Nat} {ip k target : Nat}

/-- At an offset with a height, the activation is at a point of verified code. -/
theorem ready_of_height (hf : f.Stands E rest heights) (hip : heights ip = some k) {m : Machine}
    (hm : Machine.Sized E ({ f with ip := ip } :: rest) (f.base + f.function.numLocals + k) m) :
    m.Ready E :=
  ⟨_, _, _, hm, ⟨heights, k, hf.heights, hip, rfl⟩, hf.base, hf.rest⟩

/-- An instruction that does not end the run leaves its machine ready. -/
theorem ready_goOn {x : Exec Unit} {P : Machine → Prop}
    (hx : Ensures P x (fun _ m => m.Ready E) (fun e _ => e.Excused host)) :
    Ensures P (goOn x) (fun r m => r = none → m.Ready E) (fun e _ => e.Excused host) :=
  Ensures.bind hx fun _ _ hm _ => hm

/-! ## Jumps, calls and returns of verified code

These go on elsewhere than at the next instruction, and so each of them has to be at a point of
verified code where it goes on.
-/

/-- The height at the target is the one that the jump leaves. -/
theorem ready_jump (hf : f.Stands E rest heights) (htarget : heights target = some k) :
    Ensures (Machine.Sized E (f :: rest) (f.base + f.function.numLocals + k)) (jump target)
      (fun _ m => m.Ready E) (fun e _ => e.Excused host) := by
  obtain ⟨_, _, hfetch, -⟩ := hf.heights.step target k htarget
  have hle : target ≤ f.function.code.size := Nat.le_of_lt (Function.lt_size_of_fetch hfetch)
  exact Ensures.post (resizes_jump hle) fun _ _ => ready_of_height hf htarget

/-- Both ways have the same height, as the condition is taken in either case. -/
theorem ready_jumpFalsy (hf : f.Stands E rest heights) (hip : heights f.ip = some k)
    (htarget : heights target = some k) :
    Ensures (Machine.Sized E (f :: rest) (f.base + f.function.numLocals + (k + 1)))
      (jumpFalsy target) (fun _ m => m.Ready E) (fun e _ => e.Excused host) := by
  refine Ensures.bind resizes_pop fun v => Ensures.bind (resizes_isFalsy v) fun b => ?_
  cases b with
  | true => exact ready_jump hf htarget
  | false => exact fun m hm => ready_of_height hf hip hm

/-- The value on top is left in place where the jump is taken. -/
theorem ready_andJump (hf : f.Stands E rest heights) (hip : heights f.ip = some k)
    (htarget : heights target = some (k + 1)) :
    Ensures (Machine.Sized E (f :: rest) (f.base + f.function.numLocals + (k + 1)))
      (andJump target) (fun _ m => m.Ready E) (fun e _ => e.Excused host) := by
  refine Ensures.bind resizes_top fun v => Ensures.bind (resizes_isFalsy v) fun b => ?_
  cases b with
  | true => exact ready_jump hf htarget
  | false => exact Ensures.post resizes_pop.discard fun _ _ => ready_of_height hf hip

/-- Where the jump is taken, the value stays, and the target is one higher. -/
theorem ready_orJump (hf : f.Stands E rest heights) (hip : heights f.ip = some k)
    (htarget : heights target = some (k + 1)) :
    Ensures (Machine.Sized E (f :: rest) (f.base + f.function.numLocals + (k + 1)))
      (orJump target) (fun _ m => m.Ready E) (fun e _ => e.Excused host) := by
  refine Ensures.bind resizes_top fun v => Ensures.bind (resizes_isFalsy v) fun b => ?_
  cases b with
  | true => exact Ensures.post resizes_pop.discard fun _ _ => ready_of_height hf hip
  | false => exact ready_jump hf htarget

/-- A call goes on in the activation, with the result in the callee's place, or in the activation of
a verified function, which stands at its beginning. -/
theorem ready_call (hf : f.Stands E rest heights) (hip : heights f.ip = some (k + 1)) (argc : Nat)
    (spread : Bool) :
    Ensures (fun m => Machine.Sized E (f :: rest)
        (f.base + f.function.numLocals + k + (argc + 1)) m ∧ Guarded E before m)
      (call host argc spread) (fun _ m => m.Ready E) (fun e _ => e.Excused host) := by
  refine Ensures.post (ensures_call argc spread) ?_
  rintro u m (hm | ⟨g, hg, hm⟩)
  · exact ready_of_height hf hip hm
  · obtain ⟨heights', hheights⟩ := hg.checked.heights
    refine ⟨_, _, _, hm, ⟨heights', 0, hheights, hheights.start, rfl⟩,
      fun _ => Nat.succ_ne_zero _, ?_⟩
    exact ⟨⟨heights, k + 1, hf.heights, hip, rfl⟩, hf.base, hf.rest⟩

/-- A return goes on in the activation beneath. -/
theorem ready_leave (hf : f.Stands E rest heights) (result : Value) {n : Nat} (hn : f.base ≤ n) :
    Ensures (Machine.Sized E (f :: rest) n) (leave result) (fun r m => r = none → m.Ready E)
      (fun e _ => e.Excused host) := by
  refine Ensures.post (ensures_leave result hf.base hn) fun r m h hr => ?_
  obtain ⟨hne, hm⟩ := h hr
  obtain ⟨f', rest', rfl⟩ := List.exists_cons_of_ne_nil hne
  exact ⟨f', rest', f.base, hm, hf.rest⟩

/-! ## Instructions of verified code -/

theorem Resizes.goOn {F F' : List Frame} {n n' : Nat} {x : Exec Unit}
    (hx : Resizes host E F n x F' n') : Resizes host E F n (goOn x) F' n' :=
  hx.bind fun _ => resizes_pure none

/-- An instruction that goes on at the next one leaves what it yields in place of its operands. -/
theorem resizes_execute {i : Instruction} {n : Nat} (hjump : i.op.isJump = false)
    (hcall : i.op ≠ .call) (hret : i.op ≠ .ret) (hhalt : i.op ≠ .halt)
    (hnames : i.Names (Function.Verified E) E f.function.numLocals f.function.cells.length)
    (hn : f.base + f.function.numLocals ≤ n) :
    Resizes host E (f :: rest) (n + i.demand) (execute host i) (f :: rest) (n + i.yield) := by
  obtain ⟨op, operands⟩ := i
  cases op with
  | constant =>
    obtain ⟨v, hv, -⟩ := hnames
    have hlt := (Array.getElem?_eq_some_iff.1 hv).1
    exact .goOn ((resizes_constant hlt).bind fun v => resizes_push v)
  | null | true | false => exact .goOn (resizes_push _)
  | pop => exact .goOn resizes_pop.discard
  | equal | notEqual => exact .goOn (resizes_popEqual.bind fun _ => resizes_push _)
  | lnot =>
    exact .goOn (resizes_pop.bind fun v => (resizes_isFalsy v).bind fun _ => resizes_push _)
  | add | sub | mul | div | rem | bitAnd | bitOr | bitXor | bitAndNot | shl | shr =>
    exact .goOn (resizes_applyBinary _)
  | less | lessEq | greater | greaterEq => exact .goOn (resizes_applyOrder _)
  | minus | bComplement => exact .goOn (resizes_applyUnary _)
  | array => exact .goOn (resizes_makeArray _)
  | map => exact .goOn (resizes_makeMap _)
  | error => exact .goOn resizes_makeError
  | index => exact .goOn resizes_readIndex
  | sliceIndex => exact .goOn resizes_readSlice
  | setIndex => exact .goOn resizes_writeIndex
  | getGlobal => exact .goOn ((resizes_global hnames).bind fun v => resizes_push v)
  | setGlobal => exact .goOn (resizes_pop.bind fun v => resizes_setGlobal hnames v)
  | getLocal =>
    have hslot : Instruction.first ⟨.getLocal, operands⟩ < f.function.numLocals := hnames
    exact .goOn ((resizes_getLocal (by omega)).bind fun v => resizes_push v)
  | setLocal =>
    have hslot : Instruction.first ⟨.setLocal, operands⟩ < f.function.numLocals := hnames
    exact .goOn (resizes_pop.bind fun v => resizes_setLocal (by omega) v)
  | defineLocal =>
    have hslot : Instruction.first ⟨.defineLocal, operands⟩ < f.function.numLocals := hnames
    exact .goOn (resizes_pop.bind fun v => resizes_defineLocal (by omega) v)
  | getFree => exact .goOn ((resizes_getFree hnames).bind fun v => resizes_push v)
  | setFree => exact .goOn (resizes_pop.bind fun v => resizes_setFree hnames v)
  | getBuiltin => exact .goOn ((resizes_coreBuiltin hnames).bind fun v => resizes_push v)
  | closure =>
    obtain ⟨g, hg, hc, -⟩ := hnames
    exact .goOn ((resizes_makeClosure hn hg hc).bind fun v => resizes_push v)
  | jump | jumpFalsy | andJump | orJump => cases hjump
  | call => exact absurd rfl hcall
  | ret => exact absurd rfl hret
  | halt => exact absurd rfl hhalt

/-- All other instructions go on at the next one, whose height is what they leave. -/
theorem ready_plain {i : Instruction} (hf : f.Stands E rest heights) (hjump : i.op.isJump = false)
    (hcall : i.op ≠ .call) (hret : i.op ≠ .ret) (hhalt : i.op ≠ .halt)
    (hnames : i.Names (Function.Verified E) E f.function.numLocals f.function.cells.length)
    (hip : heights f.ip = some (k + i.yield)) :
    Ensures (fun m => Machine.Sized E (f :: rest)
        (f.base + f.function.numLocals + (k + i.demand)) m ∧ Guarded E before m)
      (execute host i) (fun r m => r = none → m.Ready E) (fun e _ => e.Excused host) := by
  have hx : Resizes host E (f :: rest) (f.base + f.function.numLocals + k + i.demand)
      (execute host i) (f :: rest) (f.base + f.function.numLocals + k + i.yield) :=
    resizes_execute hjump hcall hret hhalt hnames (Nat.le_add_right _ k)
  simp only [Nat.add_assoc] at hx ⊢
  refine Ensures.pre_and (Ensures.post hx fun _ m hm _ => ?_)
  exact ready_of_height hf hip (by simpa only [Nat.add_assoc] using hm)

/-- An instruction of verified code takes its machine to a point of verified code. -/
theorem ready_execute {i : Instruction} (hf : f.Stands E rest heights) (hdemand : i.demand ≤ k)
    (hnames : i.Names (Function.Verified E) E f.function.numLocals f.function.cells.length)
    (hnext : ∀ s ∈ i.successors f.ip k, heights s.1 = some s.2) :
    Ensures (fun m => Machine.Sized E (f :: rest) (f.base + f.function.numLocals + k) m ∧
        Guarded E before m)
      (execute host i) (fun r m => r = none → m.Ready E) (fun e _ => e.Excused host) := by
  obtain ⟨k, rfl⟩ := Nat.exists_eq_add_of_le' hdemand
  obtain ⟨op, operands⟩ := i
  cases op with
  | jump => exact ready_goOn (ready_jump hf (hnext _ (.head _))).pre_and
  | jumpFalsy =>
    have htarget := hnext _ (.tail _ (.head _))
    exact ready_goOn (ready_jumpFalsy hf (hnext _ (.head _)) htarget).pre_and
  | andJump =>
    have htarget := hnext _ (.tail _ (.head _))
    exact ready_goOn (ready_andJump hf (hnext _ (.head _)) htarget).pre_and
  | orJump =>
    have htarget := hnext _ (.tail _ (.head _))
    exact ready_goOn (ready_orJump hf (hnext _ (.head _)) htarget).pre_and
  | call =>
    have hip : heights f.ip = some (k + 1) := by
      have := hnext _ (.head _)
      rwa [Nat.add_sub_cancel] at this
    rw [← Nat.add_assoc]
    exact ready_goOn (ready_call hf hip _ _)
  | ret =>
    rw [← Nat.add_assoc]
    refine Ensures.pre_and (Ensures.bind (resizes_returnValue _) fun v => ?_)
    exact ready_leave hf v (by omega)
  | halt =>
    refine Ensures.pre_and (Ensures.bind resizes_haltResult fun v => ?_)
    intro m _ hr
    cases hr
  | _ =>
    have hip := hnext _ (.head _)
    rw [Nat.add_sub_cancel] at hip
    exact ready_plain hf rfl nofun nofun nofun hnames hip

end Exec

/-! ## Runs -/

/-- A machine at a point of verified code that is confined to verified functions. -/
structure Machine.Sound (E : Setting) (m : Machine) : Prop where
  ready : m.Ready E
  guarded : Exec.Guarded E E.heap m

/-- Where the activation goes on is part of the size. -/
theorem Machine.goTo_sized {f : Frame} {rest : List Frame} {n : Nat} {m : Machine}
    (hm : Machine.Sized E (f :: rest) n m) (ip : Nat) :
    Machine.Sized E ({ f with ip := ip } :: rest) n (m.goTo ip) := by
  obtain ⟨g, gs, hg, hbare, hrest⟩ := List.map_eq_cons_iff.1 hm.frames
  subst hbare
  rw [goTo_eq hg]
  exact { hm with frames := by rw [List.map_cons, hrest]; rfl }

/-- A step of verified code goes on at a point of verified code, or ends the run without a fault of
the machine. -/
theorem Machine.Sound.step (hhost : HeapM.HostKeeps E.region host) {m : Machine}
    (hm : m.Sound E) :
    match Exec.step host m with
    | .ok none m' => m'.Sound E
    | .ok (some _) _ => True
    | .error e _ => e.Excused host := by
  obtain ⟨f, rest, n, hsized, ⟨heights, k, hh, hk, rfl⟩, hbase, hrest⟩ := hm.ready
  obtain ⟨g, gs, hg, hbare, -⟩ := List.map_eq_cons_iff.1 hsized.frames
  obtain ⟨i, next, hfetch, hdemand, hnames, hnext⟩ := hh.step f.ip k hk
  have hfetch' : g.function.fetch g.ip = .instruction i next := by
    rw [← hbare] at hfetch
    exact hfetch
  have hallowed : i.Allowed E.region m.constants := by
    rw [hm.guarded.2]
    exact Setting.allowed_of_names hnames
  have hready : Exec.Ensures (fun m => Machine.Sized E ({ f with ip := next } :: rest)
      (f.base + f.function.numLocals + k) m ∧ Exec.Guarded E E.heap m)
      (Exec.execute host i) (fun r m => r = none → m.Ready E) (fun e _ => e.Excused host) :=
    Exec.ready_execute (f := { f with ip := next }) ⟨hh, hbase, hrest⟩ hdemand hnames hnext
  have hconfined : Exec.Confines E.region E.heap E.constants (Exec.execute host i) _ :=
    Exec.confines_execute hhost (hm.guarded.2 ▸ hallowed)
  have hgoTo : Exec.Guarded E E.heap (m.goTo next) :=
    ⟨hm.guarded.1.goTo next, (constants_goTo m next).trans hm.guarded.2⟩
  have hready := hready (m.goTo next) ⟨goTo_sized hsized next, hgoTo⟩
  have hconfined := hconfined (m.goTo next) hgoTo
  rw [Exec.step_eq host hg, hfetch']
  dsimp only
  cases hx : Exec.execute host i (m.goTo next) with
  | error e m' =>
    rw [hx] at hready
    exact hready
  | ok r m' =>
    rw [hx] at hready hconfined
    cases r with
    | none => exact ⟨hready rfl, hconfined.2⟩
    | some v => trivial

/-- A run of verified code has no fault of the machine. -/
theorem Machine.Sound.run (hhost : HeapM.HostKeeps E.region host) {m m' : Machine}
    (hm : m.Sound E) {steps : Nat} {e : Fault} (h : m.run host steps = .error (.fault e) m') :
    e.Excused host := by
  induction steps generalizing m with
  | zero => cases h
  | succ steps ih =>
    have hstep := hm.step hhost
    rw [Machine.run] at h
    cases hx : Exec.step host m with
    | error e' m₁ =>
      rw [hx] at h hstep
      cases h
      exact hstep
    | ok r m₁ =>
      rw [hx] at h hstep
      cases r with
      | none => exact ih hstep h
      | some v => cases h

/-- A machine about to execute a verified top-level function is at a point of verified code. -/
theorem Machine.sound_enterMain (host : Host) (limits : Limits) {main : Function}
    {globals : Array Value}
    (hmain : main.Verified E 0) (hcells : main.cells = []) (hsize : globals.size = E.globals)
    (hglobals : ∀ v ∈ globals, E.Sound v) :
    match Exec.enterMain main (.idle E.constants globals limits E.heap) with
    | .ok _ m => m.Sound E
    | .error e _ => e.Excused host := by
  have hverified : main.Verified E main.cells.length := by
    rw [hcells]
    exact hmain
  have hframe : (Frame.start main 0).Within E.region :=
    ⟨hverified, by simp [Frame.start, hcells], by simp [Frame.start]⟩
  have hsized : Exec.Resizes host E [] 0 (Exec.enterMain main) [.start main 0]
      (0 + main.numLocals) :=
    (Exec.resizes_pushUndefined _).bind fun _ => Exec.resizes_pushFrame (.start main 0)
  have hwithin : Exec.Confines E.region E.heap E.constants (Exec.enterMain main) fun _ => True :=
    (Exec.confines_pushUndefined _).bind fun _ _ => Exec.confines_pushFrame hframe
  have hidle : Machine.Confined (.idle E.constants globals limits E.heap) E.region E.heap :=
    ⟨E.confined_region, by simp [idle, Stack.ofCapacity], fun v hv => (hglobals v hv).within,
      by simp [idle]⟩
  have h := (Exec.Ensures.and hsized hwithin) (.idle E.constants globals limits E.heap)
    ⟨⟨rfl, hsize, rfl, rfl⟩, hidle, rfl⟩
  cases hx : Exec.enterMain main (.idle E.constants globals limits E.heap) with
  | error e m =>
    rw [hx] at h
    exact h
  | ok u m =>
    rw [hx] at h
    obtain ⟨heights, hh⟩ := hverified.checked.heights
    exact ⟨⟨_, _, _, h.1, ⟨heights, 0, hh, hh.start, rfl⟩, by simp, trivial⟩, h.2.2⟩

/-- The run has not ended in a fault of the machine, unless it is the answer of a function of the
host. -/
structure RunM.Excused {α : Type} (host : Host) (r : EStateM.Result Stop Heap α) : Prop where
  fault : ∀ e h, r = .error (.fault e) h → e.Excused host

/-- A unit is run by the machine that it is made into, if it can be made into one. -/
theorem CompiledUnit.run_eq (steps : Nat) (u : CompiledUnit) (globals : Array Value)
    (limits : Limits) (h : Heap) :
    u.run host steps globals limits h =
      match Machine.ofUnit u globals limits h with
      | .ok m => RunM.finish host steps m h
      | .error e => .error (.fault e) h := by
  show ((RunM.ofExcept (Machine.ofUnit u globals limits h) >>= RunM.finish host steps) h) = _
  cases Machine.ofUnit u globals limits h <;> rfl

/-- Verified code does not go wrong: a unit whose top-level function is verified, run with globals
that reach verified functions only, never ends in a fault of the machine, unless a function of the
host answers with that fault. -/
theorem CompiledUnit.run_excused (steps : Nat) (limits : Limits) {u : CompiledUnit}
    {globals : Array Value} {h : Heap}
    (hmain : u.main.Verified ⟨h, u.constants, globals.size⟩ 0) (hcells : u.main.cells = [])
    (hglobals : ∀ v ∈ globals, Setting.Sound ⟨h, u.constants, globals.size⟩ v)
    (hhost : HeapM.HostKeeps (Setting.region ⟨h, u.constants, globals.size⟩) host) :
    RunM.Excused host (u.run host steps globals limits h) := by
  have hstart := Machine.sound_enterMain host limits hmain hcells rfl hglobals
  refine ⟨fun e h' hrun => ?_⟩
  rw [CompiledUnit.run_eq, Machine.ofUnit] at hrun
  cases hx : Exec.enterMain u.main (.idle u.constants globals limits h) with
  | error e' m =>
    rw [hx] at hstart hrun
    cases hrun
    exact hstart
  | ok _ m =>
    rw [hx] at hstart hrun
    simp only [RunM.finish] at hrun
    cases hr : m.run host steps with
    | ok v m' =>
      rw [hr] at hrun
      cases hrun
    | error s m' =>
      rw [hr] at hrun
      cases hrun
      exact hstart.run hhost hr

/-! ### Code that makes a closure

The top-level function binds a local, makes a closure that captures it, and calls the closure.
-/

def makesClosure : CompiledUnit where
  id := 0
  main := .ofCode #[Opcode.constant.byte, 0, 1, Opcode.defineLocal.byte, 0,
    Opcode.closure.byte, 0, 0, Opcode.call.byte, 0, 0, Opcode.halt.byte] 1 0
  constants := #[.function ⟨0, .readsCaptured⟩, .int 5]

def heightsOfReadsCaptured : Nat → Option Nat
  | 0 => some 0
  | 2 => some 1
  | _ => none

def heightsOfMakesClosure : Nat → Option Nat
  | 0 => some 0
  | 3 => some 1
  | 5 => some 0
  | 8 => some 1
  | 11 => some 1
  | _ => none

/-- The heights are those of the two tables, one for each function. -/
theorem verified_makesClosure (h : Heap) (globals : Nat) :
    makesClosure.main.Verified ⟨h, makesClosure.constants, globals⟩ 0 := by
  refine ⟨fun f n => f = makesClosure.main ∧ n = 0 ∨ f = .readsCaptured ∧ n = 1, ?_,
    .inl ⟨rfl, rfl⟩⟩
  rintro f n (⟨rfl, rfl⟩ | ⟨rfl, rfl⟩)
  · refine ⟨by decide, by decide, heightsOfMakesClosure, rfl, fun ip k hk => ?_⟩
    unfold heightsOfMakesClosure at hk
    split at hk <;> cases hk
    · refine ⟨⟨.constant, [1]⟩, 3, by decide, by decide, ⟨.int 5, rfl, ?_⟩, by decide⟩
      intro g hg
      cases hg
    · exact ⟨⟨.defineLocal, [0]⟩, 5, by decide, by decide, Nat.zero_lt_one, by decide⟩
    · refine ⟨⟨.closure, [0]⟩, 8, by decide, by decide, ⟨⟨0, .readsCaptured⟩, rfl, ?_, ?_⟩,
        by decide⟩
      · intro c hc
        cases List.mem_singleton.1 hc
        exact Nat.zero_lt_one
      · exact .inr ⟨rfl, rfl⟩
    · exact ⟨⟨.call, [0, 0]⟩, 11, by decide, by decide, trivial, by decide⟩
    · exact ⟨⟨.halt, []⟩, 12, by decide, by decide, trivial, by decide⟩
  · refine ⟨by decide, by decide, heightsOfReadsCaptured, rfl, fun ip k hk => ?_⟩
    unfold heightsOfReadsCaptured at hk
    split at hk <;> cases hk
    · exact ⟨⟨.getFree, [0]⟩, 2, by decide, by decide, Nat.zero_lt_one, by decide⟩
    · exact ⟨⟨.ret, [1]⟩, 4, by decide, by decide, trivial, by decide⟩

/-- The closure is called in the fourth step, and nothing goes wrong up to there and beyond. -/
theorem run_makesClosure :
    RunM.Excused sampleHost (makesClosure.run sampleHost 10 #[.bool true] {} {}) := by
  have hglobals : ∀ v ∈ #[Value.bool true],
      Setting.Sound ⟨{}, makesClosure.constants, 1⟩ v := by
    intro v hv g hg
    simp only [List.mem_toArray, List.mem_singleton] at hv
    subst hv
    cases hg
  exact CompiledUnit.run_excused 10 {} (verified_makesClosure _ _) rfl hglobals
    (HeapM.hostKeeps_sampleHost _)

end ScriptVM
