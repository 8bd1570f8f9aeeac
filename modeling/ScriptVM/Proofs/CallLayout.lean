import ScriptVM.Proofs.Heap
import ScriptVM.Proofs.OutsideCall

/-!
# The layout of an activation

A call finds the callee on the stack with its arguments above and has to leave the local slots of
the callee there instead: a fixed parameter in each of the first slots, after them the array of a
collecting parameter, and `undefined` in the rest. On the way the last argument may be spread, the
arguments are counted, some of them are packed into the array, and the further slots are filled.
Each of these changes how high the stack is, so the layout is said once, as a list of slots, and
every part of a call is an equation about a stack that is cut just above the callee.
-/

namespace ScriptVM

/-! ## Arguments and slots

What a call is to do is said here without a stack: which values the parameters get, and which the
other slots.
-/

/-- The arguments that a call is made with: those on the stack, where the last one, if it is to be
spread, is replaced by its elements. -/
def Heap.expand (h : Heap) (spread : Bool) (args : List Value) : Except Fault (List Value) :=
  if spread then
    match args.getLast? with
    | none => .ok []
    | some (.array ref) => .ok (args.dropLast ++ (h.arrayAt ref).toList)
    | some v => .error (.invalidArgumentType "spread" "array" v.typeName)
  else .ok args

/-- There is a last argument, so that what is spread is at hand. -/
theorem Heap.expand_concat (h : Heap) (init : List Value) (v : Value) :
    h.expand true (init ++ [v]) =
      match v with
      | .array ref => .ok (init ++ (h.arrayAt ref).toList)
      | v => .error (.invalidArgumentType "spread" "array" v.typeName) := by
  cases v <;> simp [expand]

namespace Function

def fixed (f : Function) : Nat := if f.variadic then f.numParams - 1 else f.numParams

/-- What the parameters hold when the activation starts. -/
def bound (f : Function) (h : Heap) (args : List Value) : List Value :=
  if f.variadic then
    args.take f.fixed ++ [.array (h.addArray (args.drop f.fixed).toArray).1]
  else args

/-- What the local slots hold when the activation starts. -/
def slots (f : Function) (h : Heap) (args : List Value) : List Value :=
  f.bound h args ++ List.replicate (f.numLocals - f.numParams) Value.undefined

def boundHeap (f : Function) (h : Heap) (args : List Value) : Heap :=
  if f.variadic then (h.addArray (args.drop f.fixed).toArray).2 else h

variable {f : Function} {h : Heap} {args : List Value}

/-- An accepted number of arguments covers the fixed parameters. -/
theorem fixed_le (hvariadic : f.variadic = true → 1 ≤ f.numParams)
    (haccepts : f.arity.accepts args.length = true) :
    f.fixed ≤ args.length ∧ (f.variadic = true → f.fixed + 1 = f.numParams) ∧
      (f.variadic = false → f.fixed = f.numParams ∧ args.length = f.numParams) := by
  unfold fixed
  unfold arity at haccepts
  cases hv : f.variadic with
  | true =>
    have hone := hvariadic hv
    rw [if_pos hv, Arity.accepts, decide_eq_true_eq] at haccepts
    exact ⟨haccepts, fun _ => Nat.sub_add_cancel hone, nofun⟩
  | false =>
    rw [hv, if_neg Bool.false_ne_true, Arity.accepts, beq_iff_eq] at haccepts
    exact ⟨Nat.le_of_eq haccepts.symm, nofun, fun _ => ⟨rfl, haccepts⟩⟩

/-- The parameters hold as many values as there are parameters. -/
theorem length_bound (hvariadic : f.variadic = true → 1 ≤ f.numParams)
    (haccepts : f.arity.accepts args.length = true) : (f.bound h args).length = f.numParams := by
  obtain ⟨hle, hcollects, hexact⟩ := fixed_le hvariadic haccepts
  unfold bound
  cases hv : f.variadic with
  | true =>
    rw [if_pos rfl, List.length_append, List.length_take, Nat.min_eq_left hle]
    exact hcollects hv
  | false => exact (hexact hv).2

/-- A fixed parameter holds its argument. -/
theorem slots_fixed (hvariadic : f.variadic = true → 1 ≤ f.numParams)
    (haccepts : f.arity.accepts args.length = true) {i : Nat} (hi : i < f.fixed) :
    (f.slots h args)[i]? = args[i]? := by
  obtain ⟨hle, hcollects, hexact⟩ := fixed_le hvariadic haccepts
  have hbound := length_bound (h := h) hvariadic haccepts
  unfold slots
  cases hv : f.variadic with
  | true =>
    have := hcollects hv
    rw [List.getElem?_append_left (by omega), bound, if_pos hv,
      List.getElem?_append_left (by rw [List.length_take]; omega), List.getElem?_take, if_pos hi]
  | false =>
    have := hexact hv
    rw [List.getElem?_append_left (by omega), bound, hv, if_neg Bool.false_ne_true]

/-- A collecting parameter holds the array of the other arguments. -/
theorem slots_collected (hv : f.variadic = true) (hvariadic : f.variadic = true → 1 ≤ f.numParams)
    (haccepts : f.arity.accepts args.length = true) :
    (f.slots h args)[f.fixed]? = some (.array (h.addArray (args.drop f.fixed).toArray).1) := by
  obtain ⟨hle, hcollects, -⟩ := fixed_le hvariadic haccepts
  have hbound := length_bound (h := h) hvariadic haccepts
  have := hcollects hv
  have htake : (args.take f.fixed).length = f.fixed := by rw [List.length_take]; omega
  rw [slots, List.getElem?_append_left (by omega), bound, if_pos hv,
    List.getElem?_append_right (by omega), htake, Nat.sub_self]
  rfl

/-- A slot that is no parameter holds `undefined`. -/
theorem slots_undefined (hvariadic : f.variadic = true → 1 ≤ f.numParams)
    (haccepts : f.arity.accepts args.length = true) {i : Nat} (hparams : f.numParams ≤ i)
    (hi : i < f.numLocals) : (f.slots h args)[i]? = some .undefined := by
  have hbound := length_bound (h := h) hvariadic haccepts
  rw [slots, List.getElem?_append_right (by omega), List.getElem?_replicate, if_pos (by omega)]

end Function

namespace Machine

def withValues (m : Machine) (values : List Value) : Machine :=
  { m with stack := ⟨values.toArray, m.stack.capacity⟩ }

/-- The machine at the start of an activation, where `below` is the stack up to the callee. -/
def started (m : Machine) (f : Function) (below args : List Value) : Machine :=
  { m.withValues (below ++ f.slots m.heap args) with
    frames := .start f below.length :: m.frames
    heap := f.boundHeap m.heap args }

@[simp] theorem heap_withValues (m : Machine) (values : List Value) :
    (m.withValues values).heap = m.heap := rfl

@[simp] theorem size_withValues (m : Machine) (values : List Value) :
    (m.withValues values).stack.size = values.length := rfl

/-- Every machine is cut into what is beneath and what is above in this way. -/
theorem withValues_self {m : Machine} {values : List Value}
    (h : m.stack.values.toList = values) : m.withValues values = m := by
  subst h
  rfl

end Machine

namespace Exec

variable {m : Machine} {below args : List Value}

/-! ## Pushing several values

On a stack that is given as a list, pushing several values appends them, and it either fits or it
does not: how far a push that fails has got is of no interest.
-/

/-- Pushing values that do not fit ends when the stack is full. -/
theorem pushAll_overflows (vs : List Value) (m : Machine)
    (hroom : m.stack.size ≤ m.stack.capacity)
    (h : m.stack.capacity < m.stack.size + vs.length) :
    ∃ m', pushAll vs m = .error .stackOverflow m' := by
  induction vs generalizing m with
  | nil => rw [List.length_nil] at h; omega
  | cons v vs ih =>
    rw [List.length_cons, Stack.size] at h
    rw [pushAll, bind_eq, push_eq]
    by_cases hlt : m.stack.values.size < m.stack.capacity
    · rw [if_pos hlt]
      refine ih _ ?_ ?_ <;> simp only [Stack.size, Array.size_push] <;> omega
    · rw [if_neg hlt]
      exact ⟨m, rfl⟩

/-- Slots are filled as if their values had been pushed one by one. -/
theorem pushUndefined_eq (n : Nat) : pushUndefined n = pushAll (List.replicate n .undefined) := by
  induction n with
  | zero => rfl
  | succ n ih => rw [pushUndefined, List.replicate_succ, pushAll, ih]

theorem push_withValues (values : List Value) (v : Value) :
    push v (m.withValues values) =
      if values.length < m.stack.capacity then .ok () (m.withValues (values ++ [v]))
      else .error .stackOverflow (m.withValues values) := by
  rw [push_eq]
  simp [Machine.withValues]

/-- With room for all of them, the values stand on top in their order. -/
theorem pushAll_withValues {values vs : List Value}
    (h : values.length + vs.length ≤ m.stack.capacity) :
    pushAll vs (m.withValues values) = .ok () (m.withValues (values ++ vs)) := by
  rw [pushAll_eq _ _ (by simpa [Machine.withValues, Stack.size] using h)]
  simp [Machine.withValues]

/-- Taking the last of some arguments leaves the ones before them. -/
theorem popMany_withValues {k : Nat} (hk : k ≤ args.length) :
    onStack (Stack.popMany (args.length - k)) (m.withValues (below ++ args)) =
      .ok (args.drop k) (m.withValues (below ++ args.take k)) := by
  have hstart : (below ++ args).length - (args.length - k) = below.length + k := by
    rw [List.length_append]
    omega
  have htaken : ((below ++ args).toArray.extract (below.length + k) (below ++ args).length).toList =
      args.drop k := by
    rw [List.extract_toArray, List.extract_eq_take_drop, List.drop_length_add_append]
    refine List.take_of_length_le ?_
    rw [List.length_drop, List.length_append]
    omega
  have hleft :
      (below ++ args).toArray.shrink (below.length + k) = (below ++ args.take k).toArray := by
    apply Array.ext'
    rw [Array.toList_shrink, List.take_length_add_append]
  rw [onStack_eq, Stack.popMany]
  simp only [Machine.withValues, List.size_toArray]
  rw [if_pos (by rw [List.length_append]; omega), hstart, htaken, hleft]

/-! ## Entering a function -/

/-- The end of a call: the slots after the parameters are filled, and the activation is started. -/
def fillSlots (f : Function) (base : Nat) : Exec Unit := do
  pushUndefined (f.numLocals - ((← stackSize) - base))
  pushFrame (.start f base)

/-- It succeeds if there is room for all slots, and for one more activation. -/
theorem fillSlots_eq (m : Machine) (below : List Value) {f : Function} {bound : List Value}
    (hbound : bound.length = f.numParams) (hlocals : f.numParams ≤ f.numLocals)
    (hroom : below.length + bound.length ≤ m.stack.capacity) :
    if below.length + f.numLocals ≤ m.stack.capacity ∧ m.frames.length < m.maxFrames then
      fillSlots f below.length (m.withValues (below ++ bound)) = .ok ()
        { m.withValues (below ++ (bound ++
            List.replicate (f.numLocals - f.numParams) Value.undefined)) with
          frames := .start f below.length :: m.frames }
    else
      ∃ m', fillSlots f below.length (m.withValues (below ++ bound)) =
        .error .stackOverflow m' := by
  have hsize : (m.withValues (below ++ bound)).stack.size = below.length + bound.length := by simp
  have hmissing : f.numLocals - (below.length + bound.length - below.length) =
      f.numLocals - f.numParams := by
    omega
  rw [fillSlots, bind_eq, stackSize_eq]
  dsimp only
  rw [hsize, hmissing, pushUndefined_eq, bind_eq]
  by_cases hfits : below.length + f.numLocals ≤ m.stack.capacity
  · rw [pushAll_withValues (by simp only [List.length_append, List.length_replicate]; omega)]
    dsimp only
    rw [pushFrame_eq, List.append_assoc]
    by_cases hframes : m.frames.length < m.maxFrames
    · rw [if_pos ⟨hfits, hframes⟩]
      exact if_pos hframes
    · rw [if_neg (fun h => hframes h.2)]
      exact ⟨_, if_neg hframes⟩
  · rw [if_neg (fun h => hfits h.1)]
    obtain ⟨m', hm'⟩ := pushAll_overflows
      (List.replicate (f.numLocals - f.numParams) Value.undefined) (m.withValues (below ++ bound))
      (by rw [hsize]; exact hroom)
      (by rw [hsize, List.length_replicate]; show m.stack.capacity < _; omega)
    rw [hm']
    exact ⟨m', rfl⟩

/-- The array is made before the further slots are filled, so that it comes to stand just after the
fixed parameters. -/
theorem enterFunction_eq_bind (f : Function) (callee argc : Nat) :
    enterFunction f callee argc = (do
      ofExcept (f.checkArity argc)
      if f.variadic then
        let rest ← onStack (Stack.popMany (argc - (f.numParams - 1)))
        let array ← onHeap (HeapM.newArray rest.toArray)
        push array
        fillSlots f (callee + 1)
      else fillSlots f (callee + 1)) := rfl

/-- A call with an accepted number of arguments starts the activation if there is room for all of
its slots, and for one more activation. -/
theorem enterFunction_eq {f : Function} {callee : Nat} (hbelow : below.length = callee + 1)
    (hlocals : f.numParams ≤ f.numLocals) (hvariadic : f.variadic = true → 1 ≤ f.numParams)
    (hroom : below.length + args.length ≤ m.stack.capacity)
    (haccepts : f.arity.accepts args.length = true) :
    if below.length + f.numLocals ≤ m.stack.capacity ∧ m.frames.length < m.maxFrames then
      enterFunction f callee args.length (m.withValues (below ++ args)) =
        .ok () (m.started f below args)
    else
      ∃ m', enterFunction f callee args.length (m.withValues (below ++ args)) =
        .error .stackOverflow m' := by
  have hbound := Function.length_bound (h := m.heap) hvariadic haccepts
  -- The heap is the only part that packing the collected arguments changes for good.
  have hfilled := fillSlots_eq { m with heap := f.boundHeap m.heap args } below hbound hlocals
  rw [enterFunction_eq_bind, bind_eq, Function.checkArity, if_pos haccepts, ofExcept_eq]
  dsimp only
  rw [← hbelow]
  by_cases hv : f.variadic = true
  · have hone := hvariadic hv
    have hfixed : f.fixed = f.numParams - 1 := if_pos hv
    have hle : f.fixed ≤ args.length := by
      rw [Function.arity, if_pos hv, Arity.accepts, decide_eq_true_eq] at haccepts
      rwa [hfixed]
    have hargs : f.bound m.heap args =
        args.take f.fixed ++ [.array (m.heap.addArray (args.drop f.fixed).toArray).1] := if_pos hv
    have hpack : onHeap (HeapM.newArray (args.drop f.fixed).toArray)
        (m.withValues (below ++ args.take f.fixed)) =
          .ok (.array (m.heap.addArray (args.drop f.fixed).toArray).1)
            (({ m with heap := f.boundHeap m.heap args } : Machine).withValues
              (below ++ args.take f.fixed)) := by
      rw [Function.boundHeap, if_pos hv]
      rfl
    rw [if_pos hv, ← hfixed, bind_eq, popMany_withValues hle]
    dsimp only
    rw [bind_eq, hpack]
    dsimp only
    rw [bind_eq, push_withValues, List.append_assoc, ← hargs]
    by_cases hlt : (below ++ args.take f.fixed).length < m.stack.capacity
    · rw [if_pos hlt]
      rw [List.length_append, List.length_take, hfixed] at hlt
      exact hfilled (by rw [hbound]; dsimp only; omega)
    · rw [if_neg hlt]
      rw [List.length_append, List.length_take, hfixed] at hlt
      rw [if_neg (by omega)]
      exact ⟨_, rfl⟩
  · rw [if_neg hv]
    have hargs : f.bound m.heap args = args := if_neg hv
    have hheap : f.boundHeap m.heap args = m.heap := if_neg hv
    rw [hargs, hheap] at hfilled
    rw [Machine.started, Function.slots, hargs, hheap]
    exact hfilled hroom

/-! ## Spreading

What is spread is popped before its elements are pushed, so only their number counts for the room.
-/

theorem pop_withValues (values : List Value) (v : Value) :
    pop (m.withValues (values ++ [v])) = .ok v (m.withValues values) := by
  rw [pop_eq]
  simp [Machine.withValues]

/-- The last argument is replaced by its elements if they fit. -/
theorem spreadLast_eq (hroom : below.length + args.length ≤ m.stack.capacity) :
    match m.heap.expand true args with
    | .error e => ∃ m', spreadLast args.length (m.withValues (below ++ args)) = .error e m'
    | .ok expanded =>
      if below.length + expanded.length ≤ m.stack.capacity then
        spreadLast args.length (m.withValues (below ++ args)) =
          .ok expanded.length (m.withValues (below ++ expanded))
      else
        ∃ m', spreadLast args.length (m.withValues (below ++ args)) =
          .error .stackOverflow m' := by
  rcases List.eq_nil_or_concat args with rfl | ⟨init, v, rfl⟩
  · simpa [Heap.expand, spreadLast, pure_eq] using hroom
  rw [List.concat_eq_append] at hroom ⊢
  have hne : (init ++ [v]).length ≠ 0 := by simp
  rw [Heap.expand_concat, spreadLast, if_neg hne, bind_eq, ← List.append_assoc, pop_withValues]
  cases v with
  | array ref =>
    dsimp only
    rw [bind_eq, get_eq]
    dsimp only
    rw [Machine.heap_withValues, bind_eq]
    have hlast : (m.withValues (below ++ init)).stack.size = below.length + init.length := by simp
    rw [List.length_append, List.length_singleton] at hroom
    by_cases hfits : below.length + (init ++ (m.heap.arrayAt ref).toList).length ≤ m.stack.capacity
    · rw [if_pos hfits, pushAll_withValues (by rw [List.length_append] at hfits ⊢; omega)]
      simp [pure_eq]
    · rw [if_neg hfits]
      rw [List.length_append] at hfits
      obtain ⟨m', hm'⟩ := pushAll_overflows (m.heap.arrayAt ref).toList
        (m.withValues (below ++ init)) (by rw [hlast]; show _ ≤ m.stack.capacity; omega)
        (by rw [hlast]; show m.stack.capacity < _; omega)
      rw [hm']
      exact ⟨m', rfl⟩
  | _ => exact ⟨_, rfl⟩

/-! ## Calling a function -/

/-- What is made of a call of a function with arguments that fit the stack. -/
def CallsFunction (m : Machine) (f : Function) (below args : List Value)
    (r : EStateM.Result Fault Machine Unit) : Prop :=
  if f.arity.accepts args.length then
    if below.length + f.numLocals ≤ m.stack.capacity ∧ m.frames.length < m.maxFrames then
      r = .ok () (m.started f below args)
    else ∃ m', r = .error .stackOverflow m'
  else ∃ m', r = .error (.wrongNumArguments f.arity args.length) m'

section

variable {g : FunctionObject} {callee : Nat} (hbelow : below.length = callee + 1)
  (hcallee : below[callee]? = some (.function g))
  (hlocals : g.function.numParams ≤ g.function.numLocals)
  (hvariadic : g.function.variadic = true → 1 ≤ g.function.numParams)
  (hroom : below.length + args.length ≤ m.stack.capacity)

include hbelow hcallee hlocals hvariadic hroom

/-- Without a spread argument, the arguments are what is on the stack. -/
theorem callsFunction (host : Host) :
    CallsFunction m g.function below args
      (call host args.length false (m.withValues (below ++ args))) := by
  have hslot : (m.withValues (below ++ args)).stack.size - (args.length + 1) = callee := by
    rw [Machine.size_withValues, List.length_append]
    omega
  have hfound : (m.withValues (below ++ args)).stack.values[callee]? = some (.function g) := by
    simp only [Machine.withValues, List.getElem?_toArray]
    rw [List.getElem?_append_left (by omega), hcallee]
  rw [call_eq, hslot, hfound, if_neg (by rw [Machine.size_withValues, List.length_append]; omega)]
  unfold CallsFunction
  by_cases haccepts : g.function.arity.accepts args.length = true
  · rw [if_pos haccepts]
    exact enterFunction_eq hbelow hlocals hvariadic hroom haccepts
  · rw [if_neg haccepts]
    dsimp only
    rw [enterFunction_eq_bind, bind_eq, Function.checkArity, if_neg haccepts]
    exact ⟨_, rfl⟩

/-- What comes of calling a function, whatever is on the stack beneath it. -/
theorem callsFunction_expanded (host : Host) (spread : Bool) :
    match m.heap.expand spread args with
    | .error e => ∃ m', call host args.length spread (m.withValues (below ++ args)) = .error e m'
    | .ok expanded =>
      if below.length + expanded.length ≤ m.stack.capacity then
        CallsFunction m g.function below expanded
          (call host args.length spread (m.withValues (below ++ args)))
      else ∃ m', call host args.length spread (m.withValues (below ++ args)) =
        .error .stackOverflow m' := by
  cases spread with
  | false =>
    rw [show m.heap.expand false args = .ok args from rfl]
    dsimp only
    rw [if_pos hroom]
    exact callsFunction hbelow hcallee hlocals hvariadic hroom host
  | true =>
    have hspread := spreadLast_eq hroom
    rw [call_spread, bind_eq]
    cases hexpand : m.heap.expand true args with
    | error e =>
      rw [hexpand] at hspread
      obtain ⟨m', hm'⟩ := hspread
      rw [hm']
      exact ⟨m', rfl⟩
    | ok expanded =>
      rw [hexpand] at hspread
      dsimp only at hspread ⊢
      by_cases hfits : below.length + expanded.length ≤ m.stack.capacity
      · rw [if_pos hfits] at hspread ⊢
        rw [hspread]
        exact callsFunction hbelow hcallee hlocals hvariadic hfits host
      · rw [if_neg hfits] at hspread ⊢
        obtain ⟨m', hm'⟩ := hspread
        rw [hm']
        exact ⟨m', rfl⟩

end

end Exec

/-! ## The layout

The slots of the activation are the elements of the stack from the base on. So the layout is read
off the list of slots, one kind of slot after the other.
-/

/-- The layout of an activation of a function that stands at a slot of the stack of `m` and is
called with some arguments, on the machine `m'`. -/
structure Machine.LaidOut (m : Machine) (f : Function) (slot : Nat) (args : List Value)
    (m' : Machine) : Prop where
  frames : m'.frames = .start f (slot + 1) :: m.frames
  below : ∀ i ≤ slot, m'.stack.values[i]? = m.stack.values[i]?
  fixed : ∀ i < f.fixed, i < args.length ∧ m'.stack.values[slot + 1 + i]? = args[i]?
  /-- The collected arguments are in an array that there was not before. -/
  collected : f.variadic = true → ∃ ref, m'.stack.values[slot + f.numParams]? = some (.array ref) ∧
    m.heap.arrays.size ≤ ref.index ∧ m'.heap.arrayAt ref = (args.drop f.fixed).toArray
  undefined : ∀ i, f.numParams ≤ i → i < f.numLocals →
    m'.stack.values[slot + 1 + i]? = some .undefined
  height : m'.stack.size = slot + 1 + f.numLocals
  /-- Nothing else of the heap has changed. -/
  heap : m'.heap = f.boundHeap m.heap args
  others : m'.constants = m.constants ∧ m'.stack.capacity = m.stack.capacity ∧
    m'.maxFrames = m.maxFrames ∧ m'.globals = m.globals ∧ m'.budget = m.budget

/-- The list of slots has the layout by its definition, whatever is beneath. -/
theorem Machine.laidOut_started {m : Machine} {f : Function} {slot : Nat} {below args : List Value}
    (hbelow : below.length = slot + 1) (hvalues : ∀ i ≤ slot, below[i]? = m.stack.values[i]?)
    (hlocals : f.numParams ≤ f.numLocals) (hvariadic : f.variadic = true → 1 ≤ f.numParams)
    (haccepts : f.arity.accepts args.length = true) :
    m.LaidOut f slot args (m.started f below args) := by
  have hbound := Function.length_bound (h := m.heap) hvariadic haccepts
  have hslot (i : Nat) :
      (m.started f below args).stack.values[slot + 1 + i]? = (f.slots m.heap args)[i]? := by
    simp only [started, withValues, List.getElem?_toArray]
    rw [List.getElem?_append_right (by omega)]
    congr 1
    omega
  constructor
  case frames => rw [started, hbelow]
  case below =>
    intro i hi
    simp only [started, withValues, List.getElem?_toArray]
    rw [List.getElem?_append_left (by omega), hvalues i hi]
  case fixed =>
    intro i hi
    have hle := (Function.fixed_le hvariadic haccepts).1
    exact ⟨by omega, by rw [hslot, Function.slots_fixed hvariadic haccepts hi]⟩
  case collected =>
    intro hv
    have hlast : slot + f.numParams = slot + 1 + f.fixed := by
      have := (Function.fixed_le hvariadic haccepts).2.1 hv
      omega
    rw [hlast, hslot, Function.slots_collected hv hvariadic haccepts]
    refine ⟨_, rfl, Nat.le_refl _, ?_⟩
    simp only [started, Function.boundHeap, if_pos hv]
    exact (Heap.arrayAt_addArray ..).trans (if_pos rfl)
  case undefined =>
    intro i hparams hi
    rw [hslot, Function.slots_undefined hvariadic haccepts hparams hi]
  case height =>
    simp only [started, withValues, Stack.size, List.size_toArray, List.length_append, hbelow,
      Function.slots, hbound, List.length_replicate]
    omega
  case heap => rfl
  case others => exact ⟨rfl, rfl, rfl, rfl, rfl⟩

/-- A call of a function lays the activation out as it should be, and says what is wrong where it
does not start one: first an argument that cannot be spread, then arguments that do not fit the
stack, then their number, and last the room for the other slots and for the activation. -/
theorem Exec.call_layout (host : Host) {m : Machine} {g : FunctionObject} {s : Nat}
    {args : List Value} (spread : Bool) (hcallee : m.stack.values[s]? = some (.function g))
    (hargs : m.stack.values.toList.drop (s + 1) = args)
    (hlocals : g.function.numParams ≤ g.function.numLocals)
    (hvariadic : g.function.variadic = true → 1 ≤ g.function.numParams)
    (hroom : m.stack.size ≤ m.stack.capacity) :
    match m.heap.expand spread args with
    | .error e => ∃ m', call host args.length spread m = .error e m'
    | .ok expanded =>
      let fits := s + 1 + expanded.length ≤ m.stack.capacity
      let accepts := g.function.arity.accepts expanded.length = true
      let room := s + 1 + g.function.numLocals ≤ m.stack.capacity ∧ m.frames.length < m.maxFrames
      (∀ m', call host args.length spread m = .ok () m' → m.LaidOut g.function s expanded m') ∧
      ((∃ m', call host args.length spread m = .ok () m') ↔ fits ∧ accepts ∧ room) ∧
      ((∃ m', call host args.length spread m =
          .error (.wrongNumArguments g.function.arity expanded.length) m') ↔ fits ∧ ¬ accepts) ∧
      ((∃ m', call host args.length spread m = .error .stackOverflow m') ↔
        ¬ fits ∨ accepts ∧ ¬ room) ∧
      ∀ e m', call host args.length spread m = .error e m' →
        e = .wrongNumArguments g.function.arity expanded.length ∨ e = .stackOverflow := by
  have hlt : s < m.stack.values.size := (Array.getElem?_eq_some_iff.1 hcallee).1
  let below := m.stack.values.toList.take (s + 1)
  have hbelow : below.length = s + 1 := by
    simp only [below, List.length_take, Array.length_toList]
    omega
  have hvalues (i : Nat) (hi : i ≤ s) : below[i]? = m.stack.values[i]? := by
    rw [List.getElem?_take, if_pos (by omega), Array.getElem?_toList]
  have hm : m.withValues (below ++ args) = m :=
    Machine.withValues_self (by rw [← hargs, List.take_append_drop])
  have hsize : below.length + args.length = m.stack.size := by
    rw [← List.length_append, ← hargs, List.take_append_drop, Array.length_toList, Stack.size]
  have hcalls := callsFunction_expanded hbelow ((hvalues s (Nat.le_refl s)).trans hcallee) hlocals
    hvariadic (hsize ▸ hroom) host spread
  rw [hm] at hcalls
  cases hexpand : m.heap.expand spread args with
  | error e =>
    rw [hexpand] at hcalls
    exact hcalls
  | ok expanded =>
    simp only [hexpand, CallsFunction, hbelow] at hcalls
    dsimp only
    by_cases hfits : s + 1 + expanded.length ≤ m.stack.capacity
    · rw [if_pos hfits] at hcalls
      by_cases haccepts : g.function.arity.accepts expanded.length = true
      · rw [if_pos haccepts] at hcalls
        by_cases hr : s + 1 + g.function.numLocals ≤ m.stack.capacity ∧
            m.frames.length < m.maxFrames
        · rw [if_pos hr] at hcalls
          have hlaid := Machine.laidOut_started hbelow hvalues hlocals hvariadic haccepts
          simp [hcalls, hfits, haccepts, hr, hlaid]
        · rw [if_neg hr] at hcalls
          obtain ⟨m', hm'⟩ := hcalls
          simp [hm', hfits, haccepts, hr]
      · rw [if_neg haccepts] at hcalls
        obtain ⟨m', hm'⟩ := hcalls
        simp [hm', hfits, haccepts]
    · rw [if_neg hfits] at hcalls
      obtain ⟨m', hm'⟩ := hcalls
      simp [hm', hfits]

/-! ### A spread argument that is collected again

The function has one fixed parameter, a collecting one and two further slots. It is called with an
integer and an array that is spread, whose elements end up in a new array.
-/

def collectsRest : Function :=
  { Function.ofCode #[Opcode.ret.byte, 0] 4 2 with variadic := true }

def callsCollectsRest : Machine :=
  ⟨#[], ⟨#[.undefined, .function ⟨0, collectsRest⟩, .int 1, .array ⟨0⟩], 6⟩, [], 1, #[], none,
    { arrays := #[#[.int 2, .int 3]] }⟩

theorem Exec.call_layout_collectsRest :
    ∃ m', Exec.call sampleHost 2 true callsCollectsRest = .ok () m' ∧
      callsCollectsRest.LaidOut collectsRest 1 [.int 1, .int 2, .int 3] m' := by
  have hexpand : callsCollectsRest.heap.expand true [.int 1, .array ⟨0⟩] =
      .ok [.int 1, .int 2, .int 3] := rfl
  have h := Exec.call_layout sampleHost (m := callsCollectsRest) (s := 1) true rfl rfl (by decide)
    (by decide) (by decide)
  rw [show callsCollectsRest.stack.values.toList.drop (1 + 1) = [.int 1, .array ⟨0⟩] from rfl,
    hexpand] at h
  obtain ⟨hlaid, hok, -⟩ := h
  obtain ⟨m', hm'⟩ := hok.2 (by decide)
  exact ⟨m', hm', hlaid m' hm'⟩

end ScriptVM
