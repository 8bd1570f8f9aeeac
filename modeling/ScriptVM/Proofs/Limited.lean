import ScriptVM.Proofs.Activation

/-!
# Machines under tighter limits

A machine and the same machine under tighter limits do the same until the tighter one has no room
left. `Limited` says what can come of a computation then: both have the same result, or the tighter
machine has been cut short and the wider one has come to exceed the limits of the tighter one. The
computations that no limit cuts short are `Exact`. Where a computation may be cut short, what comes
after it must not give room back, or the excess would not be seen in the end; this is `Grows`.
-/

namespace ScriptVM

/-! ## Tighter limits

The machine with the wider limits is at hand, and the tighter one is told from it: it differs in its
capacities and in what is left of its budget. The gap between the budgets stays the same, since both
are charged alike.
-/

/-- The machine under other limits, with so many allocations left. -/
def Machine.under (c : Limits) (budget : Option Nat) (m : Machine) : Machine :=
  { m with
    stack := ⟨m.stack.values, c.stackSize⟩
    maxFrames := c.maxFrames
    budget := budget }

/-- The machine's limits are no tighter than `c`, where `budget` allocations are left under `c`. The
machine has `gap` allocations more; without a gap it has any number of them. -/
structure Machine.Covers (c : Limits) (gap budget : Option Nat) (m : Machine) : Prop where
  stackSize : c.stackSize ≤ m.stack.capacity
  maxFrames : c.maxFrames ≤ m.maxFrames
  budget : m.budget = gap.bind fun g => budget.map (· + g)

/-- There is more on the machine than `c` has room for. -/
def Machine.Crowded (c : Limits) (m : Machine) : Prop :=
  c.stackSize < m.stack.size ∨ c.maxFrames < m.depth

/-- If the machine had some allocations more, it has used all but these, and some of them. -/
def Machine.Spent (gap : Option Nat) (m : Machine) : Prop :=
  ∀ g, gap = some g → ∃ left < g, m.budget = some left

/-- The second machine has no more allocations left than the first. -/
def Machine.Spends (m m' : Machine) : Prop :=
  ∀ left, m.budget = some left → ∃ left' ≤ left, m'.budget = some left'

/-- The second machine has no less on it than the first, and no more allocations left. -/
structure Machine.Grown (m m' : Machine) : Prop where
  stack : m.stack.size ≤ m'.stack.size
  depth : m.depth ≤ m'.depth
  budget : m.Spends m'

namespace Machine

variable {c : Limits} {gap : Option Nat} {m m' m'' : Machine}

theorem Spends.refl (m : Machine) : m.Spends m := fun left h => ⟨left, Nat.le_refl _, h⟩

/-- What is left in the end is no more than what was left at first. -/
theorem Spends.trans (h : m.Spends m') (h' : m'.Spends m'') : m.Spends m'' := by
  intro left hleft
  obtain ⟨left', hle, hleft'⟩ := h left hleft
  obtain ⟨left'', hle', hleft''⟩ := h' left' hleft'
  exact ⟨left'', Nat.le_trans hle' hle, hleft''⟩

/-- What has been used up is not given back. -/
theorem Spends.spent (h : m.Spends m') (hm : m.Spent gap) : m'.Spent gap := by
  intro g hg
  obtain ⟨left, hlt, hleft⟩ := hm g hg
  obtain ⟨left', hle, hleft'⟩ := h left hleft
  exact ⟨left', Nat.lt_of_le_of_lt hle hlt, hleft'⟩

theorem Grown.refl (m : Machine) : m.Grown m := ⟨Nat.le_refl _, Nat.le_refl _, .refl m⟩

/-- A machine that only grows goes on growing. -/
theorem Grown.trans (h : m.Grown m') (h' : m'.Grown m'') : m.Grown m'' :=
  ⟨Nat.le_trans h.stack h'.stack, Nat.le_trans h.depth h'.depth, h.budget.trans h'.budget⟩

/-- What does not fit goes on not fitting as long as nothing is taken off. -/
theorem Grown.crowded (h : m.Grown m') (hm : m.Crowded c) : m'.Crowded c := by
  rcases hm with hm | hm
  · exact .inl (Nat.lt_of_lt_of_le hm h.stack)
  · exact .inr (Nat.lt_of_lt_of_le hm h.depth)

end Machine

/-! ## Stacks -/

/-- What the computation does to a stack does not depend on how much the stack can hold. -/
def Stack.AnyCapacity {α : Type} (x : StackM α) : Prop :=
  ∀ values capacity capacity',
    match x ⟨values, capacity⟩ with
    | .ok a s => s.capacity = capacity ∧ x ⟨values, capacity'⟩ = .ok a ⟨s.values, capacity'⟩
    | .error e s => s.capacity = capacity ∧ x ⟨values, capacity'⟩ = .error e ⟨s.values, capacity'⟩

namespace Stack

/-- Only putting a value on it asks how much the stack can hold. -/
theorem Uses.anyCapacity {α : Type} {E : List Effect} {x : StackM α} (h : Uses E x)
    (hp : .put ∉ E) : AnyCapacity x := by
  intro values capacity capacity'
  cases h with
  | push v h => exact absurd h hp
  | pop =>
    unfold Stack.pop
    cases values.back? <;> exact ⟨rfl, rfl⟩
  | popMany n =>
    unfold Stack.popMany
    by_cases h : n ≤ values.size <;> simp only [h, if_true, if_false] <;> exact ⟨trivial, trivial⟩
  | truncate n => exact ⟨rfl, rfl⟩
  | set i v =>
    unfold Stack.set
    by_cases h : i < values.size <;> simp only [h, if_true, if_false] <;> exact ⟨trivial, trivial⟩
  | get i =>
    unfold Stack.get
    cases values[i]? <;> exact ⟨rfl, rfl⟩
  | peek n =>
    unfold Stack.peek
    by_cases h : n < values.size <;> simp only [h, if_true, if_false]
    · cases values[values.size - 1 - n]? <;> exact ⟨rfl, rfl⟩
    · exact ⟨trivial, trivial⟩
  | sliceFrom n =>
    unfold Stack.sliceFrom
    by_cases h : n ≤ values.size <;> simp only [h, if_true, if_false] <;> exact ⟨trivial, trivial⟩

end Stack

namespace Exec

variable {α β : Type} {c : Limits} {gap : Option Nat}

/-! ## What can come of a computation -/

/-- The same result, under tighter limits. -/
inductive Same (c : Limits) (gap : Option Nat) :
    EStateM.Result Fault Machine α → EStateM.Result Fault Machine α → Prop where
  | ok (a : α) {budget : Option Nat} {m : Machine} (h : m.Covers c gap budget) :
    Same c gap (.ok a (m.under c budget)) (.ok a m)
  | error (e : Fault) {budget : Option Nat} {m : Machine} (h : m.Covers c gap budget) :
    Same c gap (.error e (m.under c budget)) (.error e m)

/-- The same result, or one that the tighter limits have cut short. -/
inductive Limited (c : Limits) (gap : Option Nat) :
    EStateM.Result Fault Machine α → EStateM.Result Fault Machine α → Prop where
  | same {r r' : EStateM.Result Fault Machine α} (h : Same c gap r r') : Limited c gap r r'
  | crowded (m : Machine) {r' : EStateM.Result Fault Machine α} (h : (left r').Crowded c) :
    Limited c gap (.error .stackOverflow m) r'
  | spent {m : Machine} {r' : EStateM.Result Fault Machine α} (hm : m.budget = some 0)
    (h : (left r').Spent gap) : Limited c gap (.error .objectAllocLimit m) r'

/-- No limit cuts the computation short. -/
def Exact (c : Limits) (gap : Option Nat) (x : Exec α) : Prop :=
  ∀ m budget, m.Covers c gap budget → Same c gap (x (m.under c budget)) (x m)

/-- Tighter limits only cut the computation short. -/
def Trims (c : Limits) (gap : Option Nat) (x : Exec α) : Prop :=
  ∀ m budget, m.Covers c gap budget → Limited c gap (x (m.under c budget)) (x m)

/-- The computation takes nothing off the machine. -/
def Grows (x : Exec α) : Prop := ∀ m : Machine, m.Grown (left (x m))

variable {x : Exec α} {k : α → Exec β}

/-- What no limit cuts short is the same under all of them. -/
theorem Exact.trims (hx : Exact c gap x) : Trims c gap x := fun m budget h => .same (hx m budget h)

/-! ## Sequencing

An exact computation may come before any other. After one that may be cut short, what follows must
take nothing off, so that the excess is still there in the end.
-/

/-- Neither part asks for room. -/
theorem Exact.bind (hx : Exact c gap x) (hk : ∀ a, Exact c gap (k a)) :
    Exact c gap (x >>= k) := by
  intro m budget h
  have hx := hx m budget h
  rw [bind_eq, bind_eq]
  generalize x (m.under c budget) = r, x m = r' at hx
  cases hx with
  | ok a h' => exact hk a _ _ h'
  | error e h' => exact .error e h'

/-- The first part leaves machines that differ in their limits only. -/
theorem Exact.first (hx : Exact c gap x) (hk : ∀ a, Trims c gap (k a)) :
    Trims c gap (x >>= k) := by
  intro m budget h
  have hx := hx m budget h
  rw [bind_eq, bind_eq]
  generalize x (m.under c budget) = r, x m = r' at hx
  cases hx with
  | ok a h' => exact hk a _ _ h'
  | error e h' => exact .same (.error e h')

/-- Neither part takes anything off. -/
theorem Grows.bind (hx : Grows x) (hk : ∀ a, Grows (k a)) : Grows (x >>= k) := by
  intro m
  have hx := hx m
  rw [bind_eq]
  cases hr : x m with
  | ok a m' =>
    rw [hr] at hx
    exact hx.trans (hk a m')
  | error e m' =>
    rw [hr] at hx
    exact hx

/-- What has been exceeded stays exceeded if nothing is taken off afterwards. -/
theorem Trims.bind (hx : Trims c gap x) (hk : ∀ a, Trims c gap (k a)) (hgrow : ∀ a, Grows (k a)) :
    Trims c gap (x >>= k) := by
  intro m budget h
  have hlater : (left (x m)).Grown (left ((x >>= k) m)) := by
    rw [bind_eq]
    cases x m with
    | ok a m' => exact hgrow a m'
    | error e m' => exact .refl m'
  have hx := hx m budget h
  rw [bind_eq] at hlater
  rw [bind_eq, bind_eq]
  generalize x (m.under c budget) = r, x m = r' at hx hlater ⊢
  cases hx with
  | same hsame =>
    cases hsame with
    | ok a h' => exact hk a _ _ h'
    | error e h' => exact .same (.error e h')
  | crowded m' h' => exact .crowded m' (hlater.crowded h')
  | spent hm h' => exact .spent hm (hlater.budget.spent h')

theorem exact_pure (a : α) : Exact c gap (pure a) := fun _ _ h => .ok a h

theorem exact_throw (e : Fault) : Exact c gap (throw e : Exec α) := fun _ _ h => .error e h

theorem grows_pure (a : α) : Grows (pure a) := fun m => .refl m

theorem grows_throw (e : Fault) : Grows (throw e : Exec α) := fun m => .refl m

theorem Trims.goOn {x : Exec Unit} (hx : Trims c gap x) : Trims c gap (goOn x) :=
  hx.bind (fun _ => (exact_pure none).trims) fun _ => grows_pure none

/-! ## Parts of the machine

None of these asks for room: they read, or replace what is there.
-/

/-- An operation that does not ask for the capacity does the same under any. -/
theorem exact_onStack {x : StackM α} (hx : Stack.AnyCapacity x) : Exact c gap (onStack x) := by
  intro m budget h
  have hx := hx m.stack.values m.stack.capacity c.stackSize
  rw [onStack_eq, onStack_eq]
  dsimp only [Machine.under]
  cases hr : x m.stack with
  | ok a s =>
    rw [show x ⟨m.stack.values, m.stack.capacity⟩ = .ok a s from hr] at hx
    rw [hx.2]
    exact Same.ok a (m := { m with stack := s }) ⟨hx.1 ▸ h.stackSize, h.maxFrames, h.budget⟩
  | error e s =>
    rw [show x ⟨m.stack.values, m.stack.capacity⟩ = .error e s from hr] at hx
    rw [hx.2]
    exact Same.error e (m := { m with stack := s }) ⟨hx.1 ▸ h.stackSize, h.maxFrames, h.budget⟩

theorem exact_onHeap (x : HeapM α) : Exact c gap (onHeap x) := by
  intro m budget h
  rw [onHeap_eq, onHeap_eq]
  dsimp only [Machine.under]
  cases x m.heap with
  | ok a heap => exact Same.ok a (m := { m with heap := heap }) { h with }
  | error e heap => exact Same.error e (m := { m with heap := heap }) { h with }

theorem exact_ofExcept (r : Except Fault α) : Exact c gap (ofExcept r) := by
  cases r with
  | ok a => exact exact_pure a
  | error e => exact exact_throw e

theorem exact_stackSize : Exact c gap stackSize := fun m _ h => .ok m.stack.size h

/-- The activations are the same under any limits. -/
theorem exact_frame : Exact c gap frame := by
  intro m budget h
  cases hf : m.frames with
  | nil =>
    rw [frame_of_no_frame hf, frame_of_no_frame (m := m.under c budget) hf]
    exact .error _ h
  | cons f rest =>
    rw [frame_eq hf, frame_eq (m := m.under c budget) hf]
    exact .ok f h

theorem exact_setFrame (f : Frame) : Exact c gap (setFrame f) := by
  intro m budget h
  rw [setFrame_eq, setFrame_eq]
  exact Same.ok () (m := { m with frames := f :: m.frames.tail }) { h with }

theorem exact_jump (target : Nat) : Exact c gap (jump target) := by
  refine exact_frame.bind fun f => ?_
  split
  · exact exact_setFrame _
  · exact exact_throw _

theorem exact_constant (index : Nat) : Exact c gap (constant index) := by
  intro m budget h
  rw [constant_eq, constant_eq]
  dsimp only [Machine.under]
  cases m.constants[index]? with
  | none => exact .error _ h
  | some v => exact .ok v h

theorem exact_global (index : Nat) : Exact c gap (global index) := by
  intro m budget h
  rw [global_eq, global_eq]
  dsimp only [Machine.under]
  cases m.globals[index]? with
  | none => exact .error _ h
  | some v => exact .ok v h

theorem exact_setGlobal (index : Nat) (v : Value) : Exact c gap (setGlobal index v) := by
  intro m budget h
  rw [setGlobal_eq, setGlobal_eq]
  dsimp only [Machine.under]
  by_cases hlt : index < m.globals.size <;> simp only [hlt, if_true, if_false]
  · exact Same.ok () (m := { m with globals := m.globals.setIfInBounds index v }) { h with }
  · exact .error _ h

/-! ## Taking nothing off -/

theorem grows_onHeap (x : HeapM α) : Grows (onHeap x) := by
  intro m
  rw [onHeap_eq]
  cases x m.heap <;> exact { Machine.Grown.refl m with }

theorem grows_frame : Grows frame := by
  intro m
  cases hf : m.frames with
  | nil =>
    rw [frame_of_no_frame hf]
    exact .refl m
  | cons f rest =>
    rw [frame_eq hf]
    exact .refl m

theorem grows_setFrame (f : Frame) : Grows (setFrame f) := by
  intro m
  refine { Machine.Grown.refl m with depth := ?_ }
  simp only [setFrame_eq, left, Machine.depth, List.length_cons, List.length_tail]
  omega

theorem grows_ofExcept (r : Except Fault α) : Grows (ofExcept r) := by
  cases r with
  | ok a => exact grows_pure a
  | error e => exact grows_throw e

/-- Allocations are only ever taken from the budget. -/
theorem spends_onStack (x : StackM α) (m : Machine) : m.Spends (left (onStack x m)) := by
  rw [onStack_eq]
  cases x m.stack <;> exact .refl m

theorem grows_push (v : Value) : Grows (push v) := by
  intro m
  rw [push_eq]
  split
  · refine { Machine.Grown.refl m with stack := ?_ }
    simp [left, Stack.size]
  · exact .refl m

/-- What does not take from the stack leaves at least as many values on it. -/
theorem grows_onStack {E : List Effect} {x : StackM α} (h : Stack.Uses E x) (ht : .take ∉ E) :
    Grows (onStack x) := by
  cases h with
  | push v => exact grows_push v
  | set i v =>
    intro m
    rw [onStack_eq, Stack.set]
    by_cases h : i < m.stack.values.size <;> simp only [h, if_true, if_false]
    · exact { Machine.Grown.refl m with stack := by simp [left, Stack.size] }
    · exact .refl m
  | get i =>
    intro m
    rw [onStack_eq, Stack.get]
    cases m.stack.values[i]? <;> exact .refl m
  | peek n =>
    intro m
    rw [onStack_eq, Stack.peek]
    by_cases h : n < m.stack.values.size <;> simp only [h, if_true, if_false]
    · cases m.stack.values[m.stack.values.size - 1 - n]? <;> exact .refl m
    · exact .refl m
  | sliceFrom n =>
    intro m
    rw [onStack_eq, Stack.sliceFrom]
    by_cases h : n ≤ m.stack.values.size <;> simp only [h, if_true, if_false] <;> exact .refl m
  | pop h | popMany _ h | truncate _ h => exact absurd h ht

theorem grows_constant (index : Nat) : Grows (constant index) := by
  intro m
  rw [constant_eq]
  cases m.constants[index]? <;> exact .refl m

theorem grows_global (index : Nat) : Grows (global index) := by
  intro m
  rw [global_eq]
  cases m.globals[index]? <;> exact .refl m

theorem grows_setGlobal (index : Nat) (v : Value) : Grows (setGlobal index v) := by
  intro m
  rw [setGlobal_eq]
  split
  · exact { Machine.Grown.refl m with }
  · exact .refl m

/-- There is one activation more, or there are as many as before. -/
theorem grows_pushFrame (f : Frame) : Grows (pushFrame f) := by
  intro m
  rw [pushFrame_eq]
  split
  · refine { Machine.Grown.refl m with depth := ?_ }
    simp [left, Machine.depth]
  · exact .refl m

/-- A charge takes from the budget, and what is taken is not given back. -/
theorem grows_charge : Grows charge := by
  intro m
  rw [charge_eq]
  rcases hm : m.budget with _ | _ | n
  · exact .refl m
  · exact .refl m
  · refine { Machine.Grown.refl m with budget := ?_ }
    intro left hleft
    cases hm.symm.trans hleft
    exact ⟨n, Nat.le_succ n, rfl⟩

/-! ## Where a limit may cut short

A push, a new activation and a charge are the three places. If the tighter machine fails at one of
them, the wider one has come to hold more than the tighter limits allow, or has used up what the
tighter budget would have had.
-/

/-- If only the wider machine has room, it holds too much afterwards. -/
theorem trims_push (v : Value) : Trims c gap (push v) := by
  intro m budget h
  have hroom := h.stackSize
  rw [push_eq, push_eq]
  dsimp only [Machine.under]
  by_cases hlt : m.stack.values.size < c.stackSize
  · have hlt' : m.stack.values.size < m.stack.capacity := by omega
    simp only [hlt, hlt', if_true]
    exact .same <| Same.ok () (m := { m with stack := ⟨m.stack.values.push v, m.stack.capacity⟩ })
      { h with }
  · simp only [hlt, if_false]
    by_cases hlt' : m.stack.values.size < m.stack.capacity <;> simp only [hlt', if_true, if_false]
    · refine .crowded _ (.inl ?_)
      simp only [left, Stack.size, Array.size_push]
      omega
    · exact .same (.error .stackOverflow h)

/-- The same for activations. -/
theorem trims_pushFrame (f : Frame) : Trims c gap (pushFrame f) := by
  intro m budget h
  have hroom := h.maxFrames
  rw [pushFrame_eq, pushFrame_eq]
  dsimp only [Machine.under]
  by_cases hlt : m.frames.length < c.maxFrames
  · have hlt' : m.frames.length < m.maxFrames := by omega
    simp only [hlt, hlt', if_true]
    exact .same <| Same.ok () (m := { m with frames := f :: m.frames }) { h with }
  · simp only [hlt, if_false]
    by_cases hlt' : m.frames.length < m.maxFrames <;> simp only [hlt', if_true, if_false]
    · refine .crowded _ (.inr ?_)
      simp only [left, Machine.depth, List.length_cons]
      omega
    · exact .same (.error .stackOverflow h)

/-- What is charged to both machines alike, or to the wider one only. -/
theorem charge_same_or {m : Machine} {budget : Option Nat} (h : m.Covers c gap budget) :
    Same c gap (charge (m.under c budget)) (charge m) ∨
      charge (m.under c budget) = .error .objectAllocLimit (m.under c budget) ∧
        budget = some 0 ∧ (left (charge m)).Spent gap := by
  have hm := h.budget
  rw [charge_eq, charge_eq]
  dsimp only [Machine.under]
  -- By what is left to each of them: the wider one can only be charged alone when the other has
  -- nothing left.
  cases gap with
  | none =>
    rw [show m.budget = none from hm]
    rcases budget with _ | _ | n
    · exact .inl (.ok () h)
    · exact .inr ⟨rfl, rfl, fun g hg => nomatch hg⟩
    · exact .inl (.ok () ⟨h.stackSize, h.maxFrames, hm⟩)
  | some g =>
    rcases budget with _ | _ | n
    · rw [show m.budget = none from hm]
      exact .inl (.ok () h)
    · cases g with
      | zero =>
        rw [show m.budget = some 0 from hm]
        exact .inl (.error .objectAllocLimit h)
      | succ g =>
        rw [show m.budget = some (g + 1) by simpa using hm]
        refine .inr ⟨rfl, rfl, fun g' hg' => ⟨g, ?_, rfl⟩⟩
        cases hg'
        exact Nat.lt_succ_self g
    · rw [show m.budget = some (n + g + 1) by simpa [Nat.add_right_comm] using hm]
      refine .inl (Same.ok () (m := { m with budget := some (n + g) }) ?_)
      exact ⟨h.stackSize, h.maxFrames, rfl⟩

theorem trims_charge : Trims c gap charge := by
  intro m budget h
  rcases charge_same_or h with hsame | ⟨heq, hbudget, hspent⟩
  · exact .same hsame
  · rw [heq]
    exact .spent hbudget hspent

/-- After a charge the stack may shrink, since the budget does not recover from that. -/
theorem Trims.after_charge {x : Exec α} (hx : Trims c gap x)
    (hspends : ∀ m : Machine, m.Spends (left (x m))) : Trims c gap (charge >>= fun _ => x) := by
  intro m budget h
  rcases charge_same_or h with hsame | ⟨heq, hbudget, hspent⟩
  · rw [bind_eq, bind_eq]
    generalize charge (m.under c budget) = r, charge m = r' at hsame
    cases hsame with
    | ok a h' => exact hx _ _ h'
    | error e h' => exact .same (.error e h')
  · rw [bind_eq, bind_eq, heq]
    refine .spent hbudget ?_
    cases hr : charge m with
    | ok a m' =>
      rw [hr] at hspent
      exact (hspends m').spent hspent
    | error e m' =>
      rw [hr] at hspent
      exact hspent

end Exec
end ScriptVM
