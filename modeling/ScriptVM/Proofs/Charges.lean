import ScriptVM.Proofs.Effects

/-!
# What is made is charged for

A run with a budget pays for what it makes. `Machine.Within n` weighs the objects on the heap
together with what is left of the budget: making an object adds one, a charge takes one away, and
nothing else changes the weight. The parts of an instruction are taken here one after the other.
Every object that they make is charged for, before or after it is made, with one exception: the
array that a collecting parameter gets.
-/

namespace ScriptVM

variable {α β : Type} {m : Machine}

/-- How many objects the heap holds: arrays, maps, cells and closures. -/
def Heap.objects (h : Heap) : Nat := h.arrays.size + h.maps.size + h.cells.size + h.identities

/-- There is a budget, and with what is left of it the objects on the heap are at most so many. -/
def Machine.Within (n : Int) (m : Machine) : Prop :=
  ∃ b : Nat, m.budget = some b ∧ (m.heap.objects + b : Int) ≤ n

/-- What is within less is within more. -/
theorem Machine.Within.mono {n n' : Int} (h : m.Within n) (hle : n ≤ n') : m.Within n' := by
  obtain ⟨b, hb, hn⟩ := h
  exact ⟨b, hb, Int.le_trans hn hle⟩

/-! ## What makes nothing

Computations of the heap that make no object, or at most one. What they write makes no difference to
the number of objects.
-/

namespace HeapM

/-- The computation makes at most so many objects, and none if it ends in a fault. -/
def Makes (n : Nat) (x : HeapM α) : Prop := ∀ h : Heap,
  match x h with
  | .ok _ h' => h'.objects ≤ h.objects + n
  | .error _ h' => h'.objects ≤ h.objects

/-- A look at the heap and a check come before what is made. -/
theorem makes_get_bind {n : Nat} {k : Heap → HeapM α} (hk : ∀ h, Makes n (k h)) :
    Makes n (get >>= k) := fun h => hk h h

/-- If the check fails there is nothing to make. -/
theorem makes_ofExcept_bind {n : Nat} {r : Except Fault α} {k : α → HeapM β}
    (hk : ∀ a, Makes n (k a)) : Makes n (ofExcept r >>= k) := by
  cases r with
  | ok a => exact hk a
  | error e => exact fun h => Nat.le_refl _

theorem makes_pure (n : Nat) (a : α) : Makes n (pure a) := fun _ => Nat.le_add_right _ n

theorem makes_throw (n : Nat) (e : Fault) : Makes n (throw e : HeapM α) := fun _ => Nat.le_refl _

theorem makes_newArray (items : Array Value) : Makes 1 (newArray items) := by
  intro h
  simp [newArray, Exec.modifyGet_eq, Heap.addArray, Heap.objects]
  omega

theorem makes_newMap (fields : FieldMap Value) : Makes 1 (newMap fields) := by
  intro h
  simp [newMap, Exec.modifyGet_eq, Heap.addMap, Heap.objects]
  omega

theorem makes_newFunction (f : Function) : Makes 1 (newFunction f) := by
  intro h
  simp [newFunction, Exec.modifyGet_eq, Heap.addIdentity, Heap.objects]
  omega

theorem makes_setCell (c : CellRef) (v : Value) : Makes 0 (modify fun h => h.setCell c v) := by
  intro h
  simp [Exec.modify_eq, Heap.setCell, Heap.objects]

/-- An assignment writes into what is there. -/
theorem makes_assign (receiver key v : Value) : Makes 0 (assign receiver key v) := by
  apply makes_get_bind
  intro h
  apply makes_ofExcept_bind
  intro place h
  cases place <;> simp [Exec.modify_eq, Heap.write, Heap.setElement, Heap.setField, Heap.objects]

/-- Where no object may be made, what is done to the heap is a write. -/
theorem Uses.makes {E : List Effect} {x : HeapM α} (h : Uses E x) (hm : .make ∉ E) :
    Makes 0 x := by
  cases h with
  | setCell c v => exact makes_setCell c v
  | assign receiver key v => exact makes_assign receiver key v
  | newArray _ h | newMap _ h | newFunction _ h | binary _ _ _ h | slice _ _ _ h =>
    exact absurd h hm

theorem makes_slice (receiver low high : Value) : Makes 1 (slice receiver low high) := by
  apply makes_get_bind
  intro h
  apply makes_ofExcept_bind
  intro length
  apply makes_ofExcept_bind
  rintro ⟨l, r⟩
  dsimp only
  split
  · exact makes_newArray _
  · exact makes_pure 1 _
  · exact makes_pure 1 _

/-- Joining two arrays makes a third one; no other operator makes an object. -/
theorem makes_binary (op : Opcode) (left right : Value) :
    Makes 1 (Operator.binary op left right) := by
  unfold Operator.binary
  split
  · exact makes_ofExcept_bind fun _ => makes_pure 1 _
  split
  · split
    · exact makes_pure 1 _
    · exact makes_throw 1 _
  unfold Operator.onOthers
  split
  · exact makes_get_bind fun _ => makes_pure 1 _
  · exact makes_get_bind fun _ => makes_newArray _
  · exact makes_throw 1 _

end HeapM

namespace Exec

/-- However it ends, the computation makes no object and is charged for nothing. -/
def Costless (x : Exec α) : Prop :=
  ∀ m, (left (x m)).heap.objects ≤ m.heap.objects ∧ (left (x m)).budget = m.budget

section

variable {x : Exec α} {k : α → Exec β}

/-- The weight is not changed by what does not change it twice. -/
theorem Costless.bind (hx : Costless x) (hk : ∀ a, Costless (k a)) : Costless (x >>= k) := by
  intro m
  have hm := hx m
  rw [bind_eq]
  cases hr : x m with
  | ok a m' =>
    rw [hr] at hm
    exact ⟨Nat.le_trans (hk a m').1 hm.1, (hk a m').2.trans hm.2⟩
  | error e m' =>
    rw [hr] at hm
    exact hm

@[simp] theorem costless_pure (a : α) : Costless (pure a) := fun _ => ⟨Nat.le_refl _, rfl⟩

@[simp] theorem costless_throw (e : Fault) : Costless (throw e : Exec α) :=
  fun _ => ⟨Nat.le_refl _, rfl⟩

@[simp] theorem costless_get : Costless get := fun _ => ⟨Nat.le_refl _, rfl⟩

theorem costless_modify {f : Machine → Machine} (hheap : ∀ m, (f m).heap = m.heap)
    (hbudget : ∀ m, (f m).budget = m.budget) : Costless (modify f) :=
  fun m => ⟨Nat.le_of_eq (congrArg Heap.objects (hheap m)), hbudget m⟩

end

/-! ## The stack and the frames

Neither is part of the weight.
-/

@[simp] theorem costless_onStack (x : StackM α) : Costless (onStack x) := by
  intro m
  rw [onStack_eq]
  cases x m.stack <;> simp [left]

@[simp] theorem costless_ofExcept (r : Except Fault α) : Costless (ofExcept r) := by
  cases r with
  | ok a => exact costless_pure a
  | error e => exact costless_throw e

@[simp] theorem costless_push (v : Value) : Costless (push v) := costless_onStack _

@[simp] theorem costless_pop : Costless pop := costless_onStack _

@[simp] theorem costless_frame : Costless frame := by
  apply costless_get.bind
  intro m
  split <;> simp

@[simp] theorem costless_setFrame (f : Frame) : Costless (setFrame f) :=
  costless_modify (fun _ => rfl) fun _ => rfl

/-- An activation is not an object of the heap. -/
theorem costless_pushFrame (f : Frame) : Costless (pushFrame f) := by
  intro m
  rw [pushFrame_eq]
  split <;> simp [left]

@[simp] theorem costless_jump (target : Nat) : Costless (jump target) := by
  apply costless_frame.bind
  intro f
  split <;> simp

/-! ## Constants, globals and variables -/

theorem costless_constant (index : Nat) : Costless (constant index) := by
  intro m
  rw [constant_eq]
  cases m.constants[index]? <;> simp [left]

theorem costless_global (index : Nat) : Costless (global index) := by
  intro m
  rw [global_eq]
  cases m.globals[index]? <;> simp [left]

theorem costless_setGlobal (index : Nat) (v : Value) : Costless (setGlobal index v) := by
  intro m
  rw [setGlobal_eq]
  split <;> simp [left]

/-- What makes no object leaves the weight of the heap as it is. -/
theorem costless_onHeap {x : HeapM α} (hx : HeapM.Makes 0 x) : Costless (onHeap x) := by
  intro m
  have hm := hx m.heap
  rw [onHeap_eq]
  cases hr : x m.heap <;> simpa [hr, left] using hm

theorem costless_defineLocal (slot : Nat) (v : Value) : Costless (defineLocal slot v) :=
  costless_frame.bind fun _ => (costless_setFrame _).bind fun _ => costless_onStack _

/-! ## Whatever is costless

Costlessness is a matter of effects: what neither makes an object nor charges for one is costless.
-/

theorem Uses.costless {E : List Effect} {x : Exec α} (h : Uses E x) (hm : .make ∉ E)
    (hc : .charge ∉ E) : Costless x := by
  induction h with
  | pure a => exact costless_pure a
  | bind _ _ hx hk => exact hx.bind hk
  | throw _ => exact costless_throw _
  | withHeap _ ih => exact costless_get.bind fun m => ih m.heap
  | stackSize => exact costless_get.bind fun _ => costless_pure _
  | frame => exact costless_frame
  | constant index => exact costless_constant index
  | global index => exact costless_global index
  | ofExcept _ => exact costless_ofExcept _
  | onStack _ => exact costless_onStack _
  | onHeap h => exact costless_onHeap (h.makes hm)
  | setGlobal index v => exact costless_setGlobal index v
  | charge h => exact absurd h hc
  | defineLocal slot v => exact costless_defineLocal slot v
  | captureLocal _ _ h => exact absurd h hm

theorem costless_leave (result : Value) : Costless (leave result) := by
  intro m
  cases hf : m.frames with
  | nil => simp [leave_of_no_frame hf, left]
  | cons f rest =>
    have hlast : Costless (do
        onStack (Stack.truncate (f.base - 1))
        push result
        return (none : Option Value)) :=
      (costless_onStack _).bind fun _ => (costless_push result).bind fun _ => costless_pure _
    rw [leave_eq hf]
    split
    · simp [left]
    split
    · simp [left]
    · exact hlast { m with frames := rest }

/-- An instruction is costless if its effects are. -/
theorem Performs.costless {host : Host} {op : Opcode} {target : Nat} {x : Exec α}
    (h : Performs host op target x) (hm : .make ∉ op.effects) (hc : .charge ∉ op.effects) :
    Costless x := by
  have hcall : op ≠ .call := by
    rintro rfl
    exact hm (by decide)
  induction h with
  | uses h => exact h.costless hm hc
  | first hx _ ih => exact (hx.costless hm hc).bind ih
  | goOn _ ih => exact ih.bind fun _ => costless_pure none
  | jump => exact costless_jump target
  | enter hop => exact absurd hop hcall
  | builtin hop => exact absurd hop hcall
  | leave _ result => exact costless_leave result

/-! ## What is charged for

A charge and the object that it is for may come in either order, but they come together. The bound
on a fault in between is the one that held before.
-/

/-- Begun within `n`, the computation ends within `n'`, or in a fault within `b`, unless the fault
is that the budget is exhausted. -/
def Pays (b n n' : Int) (x : Exec α) : Prop :=
  Ensures (·.Within n) x (fun _ m => m.Within n') fun e m => e ≠ .objectAllocLimit → m.Within b

section

variable {b n n' n'' : Int} {x : Exec α} {k : α → Exec β}

/-- Nothing is added, so what was within the bound still is. -/
theorem Costless.pays (hx : Costless x) (hle : n ≤ b) : Pays b n n x := by
  rintro m ⟨left', hbudget, hn⟩
  have hm := hx m
  cases hr : x m with
  | ok a m' =>
    rw [hr] at hm
    exact ⟨left', hm.2.trans hbudget, by have := hm.1; simp only [left] at this; omega⟩
  | error e m' =>
    rw [hr] at hm
    exact fun _ => ⟨left', hm.2.trans hbudget, by have := hm.1; simp only [left] at this; omega⟩

/-- Bounds are chained like the states of the machine. A fault of either part is within the same
one. -/
theorem Pays.bind (hx : Pays b n n' x) (hk : ∀ a, Pays b n' n'' (k a)) : Pays b n n'' (x >>= k) :=
  Ensures.bind hx hk

/-- What comes first is costless. -/
theorem Costless.first (hx : Costless x) (hle : n ≤ b) (hk : ∀ a, Pays b n n' (k a)) :
    Pays b n n' (x >>= k) :=
  (hx.pays hle).bind hk

theorem Pays.mono (hx : Pays b n n' x) (hle : n' ≤ n'') : Pays b n n'' x :=
  Ensures.post hx fun _ _ h => h.mono hle

/-- The weight goes down by one, unless nothing was left of the budget. -/
theorem pays_charge : Pays b n (n - 1) charge := by
  rintro m ⟨left', hbudget, hn⟩
  rw [charge_eq, hbudget]
  cases left' with
  | zero => simp
  | succ left' =>
    refine ⟨left', rfl, ?_⟩
    push_cast at hn
    dsimp only
    omega

/-- The weight goes up by what is made. -/
theorem pays_onHeap {made : Nat} {x : HeapM α} (hx : HeapM.Makes made x) (hle : n ≤ b) :
    Pays b n (n + made) (onHeap x) := by
  rintro m ⟨left', hbudget, hn⟩
  have hm := hx m.heap
  rw [onHeap_eq]
  cases hr : x m.heap with
  | ok a h =>
    rw [hr] at hm
    refine ⟨left', hbudget, ?_⟩
    dsimp only at hm ⊢
    omega
  | error e h =>
    rw [hr] at hm
    refine fun _ => ⟨left', hbudget, ?_⟩
    dsimp only at hm ⊢
    omega

/-- An object is charged for and then made. -/
theorem Pays.of_charge_first {x : HeapM Value} (hx : HeapM.Makes 1 x) :
    Pays n n n (do charge; push (← onHeap x)) := by
  refine pays_charge.bind fun _ => ?_
  refine (pays_onHeap hx (by omega)).bind fun v => ?_
  exact ((costless_push v).pays (by simp)).mono (by simp)

/-- An object is made and then charged for. -/
theorem Pays.of_charge_last {x : HeapM Value} (hx : HeapM.Makes 1 x) :
    Pays n n n (do let v ← onHeap x; charge; push v) := by
  refine (pays_onHeap hx (Int.le_refl n)).bind fun v => ?_
  refine pays_charge.bind fun _ => ?_
  exact ((costless_push v).pays (by simp)).mono (by simp)

/-- The result is charged for whether it is a new array or a number that is no object. -/
theorem pays_applyBinary (op : Opcode) : Pays n n n (applyBinary op) :=
  costless_pop.first (Int.le_refl n) fun right => costless_pop.first (Int.le_refl n) fun left =>
    .of_charge_last (HeapM.makes_binary op left right)

theorem pays_applyUnary (op : Opcode) : Pays n n n (applyUnary op) := by
  refine costless_pop.first (Int.le_refl n) fun v => ?_
  refine (costless_ofExcept _).first (Int.le_refl n) fun result => ?_
  refine pays_charge.bind fun _ => ?_
  exact ((costless_push result).pays (by omega)).mono (by omega)

theorem pays_makeArray (count : Nat) : Pays n n n (makeArray count) :=
  (costless_onStack _).first (Int.le_refl n) fun _ => .of_charge_first (HeapM.makes_newArray _)

theorem pays_makeMap (pairs : Nat) : Pays n n n (makeMap pairs) :=
  (costless_onStack _).first (Int.le_refl n) fun _ =>
    (costless_ofExcept _).first (Int.le_refl n) fun _ => .of_charge_first (HeapM.makes_newMap _)

theorem pays_readSlice : Pays n n n readSlice :=
  costless_pop.first (Int.le_refl n) fun high => costless_pop.first (Int.le_refl n) fun low =>
    costless_pop.first (Int.le_refl n) fun receiver =>
      .of_charge_last (HeapM.makes_slice receiver low high)

/-- An error value is no object on the heap, but is charged for as one. -/
theorem pays_makeError : Pays n n (n - 1) makeError := by
  refine costless_pop.first (Int.le_refl n) fun payload => ?_
  exact pays_charge.bind fun _ => (costless_push _).pays (by omega)

/-! ## Closures

Each local that gets a cell is charged for it, and so is the closure itself. A local that has a cell
already costs nothing.
-/

/-- A local that has no cell yet is given a new one. -/
theorem ensures_promote (f : Frame) (slot : Nat) (current : Value) :
    Ensures (·.Within n) (onHeap (f.promote slot current))
      (fun (_, created, _) m => m.Within (if created then n + 1 else n))
      fun e m => e ≠ .objectAllocLimit → m.Within n := by
  rintro m ⟨left', hbudget, hn⟩
  rw [onHeap_eq, Frame.promote]
  cases f.cell? slot with
  | some cell => exact ⟨left', hbudget, hn⟩
  | none =>
    refine ⟨left', hbudget, ?_⟩
    have hadded : (m.heap.addCell current).2.objects = m.heap.objects + 1 := by
      simp [Heap.objects, Heap.addCell]
      omega
    show ((m.heap.addCell current).2.objects + left' : Int) ≤ n + 1
    omega

/-- A cell that is made is charged for, and one that was there before is not. -/
theorem pays_captureLocal (slot : Nat) : Pays n n n (captureLocal slot) := by
  refine costless_frame.first (Int.le_refl n) fun f => ?_
  refine (costless_onStack _).first (Int.le_refl n) fun current => ?_
  refine (ensures_promote f slot current).bind ?_
  rintro ⟨cell, created, f'⟩
  cases created with
  | false => exact ((costless_setFrame f').bind fun _ => costless_pure cell).pays (Int.le_refl n)
  | true =>
    intro m hm
    have hcharged : Pays n (n + 1) n (do charge; return cell) :=
      pays_charge.bind fun _ => ((costless_pure cell).pays (by simp)).mono (by simp)
    exact hcharged { m with frames := f' :: m.frames.tail } hm

theorem pays_captureAll (cs : List Capture) : Pays n n n (captureAll cs) := by
  induction cs with
  | nil => exact (costless_pure []).pays (Int.le_refl n)
  | cons c cs ih =>
    have hcapture : Pays n n n (capture c) := by
      cases c with
      | ofLocal slot => exact pays_captureLocal slot
      | ofFree k =>
        have huses := uses_freeCell (E := []) k
        exact (huses.costless (by decide) (by decide)).pays (Int.le_refl n)
    exact hcapture.bind fun _ => ih.bind fun _ => (costless_pure _).pays (Int.le_refl n)

/-- The captures come first, each with its own charge, and the closure last. -/
theorem pays_makeClosure (index : Nat) : Pays n n n (makeClosure index) := by
  refine (costless_constant index).first (Int.le_refl n) fun v => ?_
  split
  · refine (pays_captureAll _).bind fun cells => ?_
    refine pays_charge.bind fun _ => ?_
    refine (pays_onHeap (HeapM.makes_newFunction _) (by omega)).bind fun f => ?_
    exact ((costless_pure _).pays (by simp)).mono (by simp)
  · exact (costless_throw _).pays (Int.le_refl n)

/-! ## Calls -/

/-- Starting an activation is costless but for the array that a collecting parameter gets. Nothing
is charged for this array. -/
theorem pays_enterFunction (f : Function) (callee argc : Nat) :
    Pays (n + f.variadic.toNat) n (n + f.variadic.toNat) (enterFunction f callee argc) := by
  have hundefined (n : Nat) : Uses [.put] (pushUndefined n) := uses_pushUndefined n (by decide)
  have hlast : Costless (do
      pushUndefined (f.numLocals - ((← stackSize) - (callee + 1)))
      pushFrame (.start f (callee + 1))) :=
    costless_get.bind fun _ => ((hundefined _).costless (by decide) (by decide)).bind fun _ =>
      costless_pushFrame _
  have hle : n ≤ n + f.variadic.toNat := Int.le_add_of_nonneg_right (Int.natCast_nonneg _)
  refine (costless_ofExcept _).first hle fun _ => ?_
  split
  · next hv =>
    rw [hv] at hle ⊢
    refine (costless_onStack _).first hle fun rest => ?_
    refine (pays_onHeap (HeapM.makes_newArray _) hle).bind fun v => ?_
    exact (costless_push v).first (Int.le_refl _) fun _ => hlast.pays (Int.le_refl _)
  · exact (hlast.pays hle).mono hle

end

end Exec
end ScriptVM
