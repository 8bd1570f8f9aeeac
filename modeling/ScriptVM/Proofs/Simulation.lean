import ScriptVM.Proofs.HeapSimulation
import ScriptVM.Proofs.Locals

/-!
# Machines that do alike

Two machines may differ in how they number objects, and in how they keep locals. A `Linkage` says
how their locals hang together: which stack slots need not agree, since the local is kept elsewhere,
and what holds of the activations instead. Machines related by it execute instructions alike, as
long as their operations on locals do.
-/

namespace ScriptVM

/-! ## Related machines

The outline is what both machines share: the functions that execute, where they stand on the stack
and how high that is. Whatever else is compared is compared in a renaming.
-/

/-- What is known of a machine without looking at values. -/
structure Outline where
  constants : Array Value
  /-- The functions and bases of the activations. -/
  shape : List (Function × Nat)
  size : Nat

def Machine.outline (m : Machine) : Outline :=
  ⟨m.constants, m.frames.map fun f => (f.function, f.base), m.stack.size⟩

/-- How two machines keep locals. -/
structure Linkage where
  /-- The stack slots of the first machine that need not agree with those of the second. -/
  hidden : List (Function × Nat) → Nat → Prop
  /-- The locals of the executing activation. -/
  owned : List (Function × Nat) → Nat → Prop
  /-- What holds of the activations. -/
  link : Renaming → Machine → Machine → Prop

/-- Two activations at the same place of related functions. -/
structure Frame.Related (ρ : Renaming) (f f' : Frame) : Prop where
  function : f.function.Related ρ f'.function
  ip : f'.ip = f.ip
  base : f'.base = f.base

/-- Two stacks of one size with related values, but for some slots. -/
structure Stack.Related (hidden : Nat → Prop) (ρ : Renaming) (s s' : Stack) : Prop where
  capacity : s'.capacity = s.capacity
  size : s'.values.size = s.values.size
  values : ∀ {i v v'}, ¬ hidden i → s.values[i]? = some v → s'.values[i]? = some v' →
    v.Related ρ v'

/-- Two machines in the same state, up to the numbering of objects and the keeping of locals. -/
structure Linkage.Related (L : Linkage) (ρ : Renaming) (m m' : Machine) : Prop where
  constants : Values.Related ρ m.constants.toList m'.constants.toList
  stack : Stack.Related (L.hidden m.outline.shape) ρ m.stack m'.stack
  frames : List.Forall₂ (Frame.Related ρ) m.frames m'.frames
  maxFrames : m'.maxFrames = m.maxFrames
  globals : Values.Related ρ m.globals.toList m'.globals.toList
  budget : m'.budget = m.budget
  heap : Heap.Related ρ m.heap m'.heap
  link : L.link ρ m m'

/-- An activation without its place in the code. -/
def Frame.still (f : Frame) : Frame := { f with ip := 0 }

/-- The machine has gone on to `m₁` within its activations and without a limit, if it had none. -/
structure Machine.GoesOn (m m₁ : Machine) : Prop where
  frames : m₁.frames.map Frame.still = m.frames.map Frame.still
  budget : m.budget = none → m₁.budget = none

/-- What holds of the activations goes on to hold as long as nobody touches them. -/
def Linkage.Stable (L : Linkage) : Prop :=
  ∀ {ρ ρ₁ : Renaming} {m m' m₁ m₁' : Machine}, L.link ρ m m' → m.GoesOn m₁ → m'.GoesOn m₁' →
    (∀ i, L.hidden m.outline.shape i → m₁.stack.values[i]? = m.stack.values[i]?) →
    World.Grows ⟨ρ, m.heap, m'.heap⟩ ⟨ρ₁, m₁.heap, m₁'.heap⟩ → L.link ρ₁ m₁ m₁'

/-- Within its activations a machine keeps its shape. -/
theorem Machine.GoesOn.shape {m m₁ : Machine} (h : m.GoesOn m₁) :
    m₁.outline.shape = m.outline.shape := by
  have := congrArg (List.map fun f : Frame => (f.function, f.base)) h.frames
  simpa [Frame.still, Function.comp_def, outline] using this

section

variable {ρ ρ' : Renaming}

theorem Frame.Related.mono {f f' : Frame} (h : f.Related ρ f') (hle : ρ ≤ ρ') : f.Related ρ' f' :=
  { h with function := h.function.mono hle }

theorem Stack.Related.mono {hidden : Nat → Prop} {s s' : Stack} (h : s.Related hidden ρ s')
    (hle : ρ ≤ ρ') : s.Related hidden ρ' s' :=
  { h with values := fun hi hv hv' => (h.values hi hv hv').mono hle }

/-- Related functions have the same code, and related activations the same offset. -/
theorem Frame.Related.fetch_eq {f f' : Frame} (h : f.Related ρ f') :
    f'.function.fetch f'.ip = f.function.fetch f.ip := by
  rw [h.ip, h.function.eq]
  rfl

end

namespace Linkage.Related

variable {L : Linkage} {ρ ρ' : Renaming} {m m' : Machine}

/-- The heaps may grow. -/
theorem grow (h : L.Related ρ m m') (hL : L.Stable) {h₁ h₁' : Heap}
    (hg : World.Grows ⟨ρ, m.heap, m'.heap⟩ ⟨ρ', h₁, h₁'⟩) (hr : Heap.Related ρ' h₁ h₁') :
    L.Related ρ' { m with heap := h₁ } { m' with heap := h₁' } where
  constants := h.constants.mono hg.le
  stack := h.stack.mono hg.le
  frames := h.frames.imp fun _ _ hf => hf.mono hg.le
  maxFrames := h.maxFrames
  globals := h.globals.mono hg.le
  budget := h.budget
  heap := hr
  link := hL h.link ⟨rfl, id⟩ ⟨rfl, id⟩ (fun _ _ => rfl) hg

/-- The stacks may change where they agree. -/
theorem withStack (h : L.Related ρ m m') (hL : L.Stable) {s s' : Stack}
    (hs : s.Related (L.hidden m.outline.shape) ρ s')
    (hsame : ∀ i, L.hidden m.outline.shape i → s.values[i]? = m.stack.values[i]?) :
    L.Related ρ { m with stack := s } { m' with stack := s' } :=
  { h with
    stack := hs
    link := hL h.link ⟨rfl, id⟩ ⟨rfl, id⟩ hsame (World.Extends.refl _).grows }

end Linkage.Related

/-! ## Computations of related machines -/

namespace Exec

variable {α β γ δ : Type} {L : Linkage} {ρ : Renaming} {P P' P₁ : Outline → Prop}

/-- Begun in machines that are related by `ρ` or more, the first with an outline as `P` has it, the
computations end alike, in machines that are related by more, the first with an outline as `P'` has
it. -/
def Sim (L : Linkage) (ρ : Renaming) (P : Outline → Prop) (x : Exec α) (y : Exec β)
    (Q : Renaming → α → β → Prop) (P' : Outline → Prop) : Prop :=
  ∀ (ρ₁ : Renaming) (m m' : Machine), ρ ≤ ρ₁ → L.Related ρ₁ m m' → P m.outline →
    match x m, y m' with
    | .ok a m₁, .ok b m₁' => ∃ ρ₂, ρ₁ ≤ ρ₂ ∧ L.Related ρ₂ m₁ m₁' ∧ Q ρ₂ a b ∧ P' m₁.outline
    | .error e m₁, .error e' m₁' => e = e' ∧ ∃ ρ₂, ρ₁ ≤ ρ₂ ∧ L.Related ρ₂ m₁ m₁'
    | _, _ => False

variable {x : Exec α} {y : Exec β} {k : α → Exec γ} {l : β → Exec δ}
  {Q Q' : Renaming → α → β → Prop} {R : Renaming → γ → δ → Prop}

/-! ## Sequencing

What is known of the outline is passed on from part to part, together with a renaming that grows.
-/

/-- Both computations answer, or both fail with the same fault. -/
theorem Sim.cases {ρ₁ : Renaming} {m m' : Machine} (h : Sim L ρ P x y Q P') (hle : ρ ≤ ρ₁)
    (hr : L.Related ρ₁ m m') (hp : P m.outline) :
    (∃ a b ρ₂ m₁ m₁', x m = .ok a m₁ ∧ y m' = .ok b m₁' ∧ ρ₁ ≤ ρ₂ ∧ L.Related ρ₂ m₁ m₁' ∧
        Q ρ₂ a b ∧ P' m₁.outline) ∨
      ∃ e ρ₂ m₁ m₁', x m = .error e m₁ ∧ y m' = .error e m₁' ∧ ρ₁ ≤ ρ₂ ∧
        L.Related ρ₂ m₁ m₁' := by
  have h := h ρ₁ m m' hle hr hp
  cases hx : x m with
  | ok a m₁ =>
    cases hy : y m' with
    | error e' m₁' => simp only [hx, hy] at h
    | ok b m₁' =>
      simp only [hx, hy] at h
      obtain ⟨ρ₂, hend⟩ := h
      exact .inl ⟨a, b, ρ₂, m₁, m₁', rfl, rfl, hend⟩
  | error e m₁ =>
    cases hy : y m' with
    | ok b m₁' => simp only [hx, hy] at h
    | error e' m₁' =>
      simp only [hx, hy] at h
      obtain ⟨rfl, ρ₂, hend⟩ := h
      exact .inr ⟨e, ρ₂, m₁, m₁', rfl, rfl, hend⟩

/-- The second parts begin with the outline and the renaming that the first ones have left. -/
theorem Sim.bind (hx : Sim L ρ P x y Q P₁)
    (hk : ∀ ρ₁ a b, ρ ≤ ρ₁ → Q ρ₁ a b → Sim L ρ₁ P₁ (k a) (l b) R P') :
    Sim L ρ P (x >>= k) (y >>= l) R P' := by
  intro ρ₁ m m' hle hr hp
  rw [bind_eq, bind_eq]
  obtain ⟨a, b, ρ₂, m₁, m₁', hx, hy, hle₁, hr₁, hq, hp₁⟩ | ⟨e, ρ₂, m₁, m₁', hx, hy, hend⟩ :=
    hx.cases hle hr hp
  · rw [hx, hy]
    dsimp only
    obtain ⟨c, d, ρ₃, m₂, m₂', hk, hl, hle₂, hend⟩ | ⟨e, ρ₃, m₂, m₂', hk, hl, hle₂, hr₂⟩ :=
      (hk ρ₂ a b (hle.trans hle₁) hq).cases (le_refl _) hr₁ hp₁
    · rw [hk, hl]
      exact ⟨ρ₃, hle₁.trans hle₂, hend⟩
    · rw [hk, hl]
      exact ⟨rfl, ρ₃, hle₁.trans hle₂, hr₂⟩
  · rw [hx, hy]
    exact ⟨rfl, ρ₂, hend⟩

theorem Sim.pre (h : Sim L ρ P x y Q P₁) (hP : ∀ o, P' o → P o) : Sim L ρ P' x y Q P₁ :=
  fun _ _ _ hle hr hp => h _ _ _ hle hr (hP _ hp)

/-- Less may be said of the answers and of the outline. -/
theorem Sim.mono (h : Sim L ρ P x y Q P₁) (hQ : ∀ ρ₁ a b, ρ ≤ ρ₁ → Q ρ₁ a b → Q' ρ₁ a b)
    (hP : ∀ o, P₁ o → P' o) : Sim L ρ P x y Q' P' := by
  intro ρ₁ m m' hle hr hp
  obtain ⟨a, b, ρ₂, m₁, m₁', hx, hy, hle₁, hr₁, hq, hp₁⟩ | ⟨e, ρ₂, m₁, m₁', hx, hy, hend⟩ :=
    h.cases hle hr hp
  · rw [hx, hy]
    exact ⟨ρ₂, hle₁, hr₁, hQ _ _ _ (hle.trans hle₁) hq, hP _ hp₁⟩
  · rw [hx, hy]
    exact ⟨rfl, ρ₂, hend⟩

theorem Sim.post (h : Sim L ρ P x y Q P₁) (hP : ∀ o, P₁ o → P' o) : Sim L ρ P x y Q P' :=
  h.mono (fun _ _ _ _ hq => hq) hP

/-- The outline may be taken for known. -/
theorem Sim.of_outline (h : ∀ o, P o → Sim L ρ (fun o' => o' = o) x y Q P') :
    Sim L ρ P x y Q P' := fun _ _ _ hle hr hp => h _ hp _ _ _ hle hr rfl

theorem sim_pure {a : α} {b : β} (h : ∀ ρ₁, ρ ≤ ρ₁ → Q ρ₁ a b) (hP : ∀ o, P o → P' o) :
    Sim L ρ P (pure a) (pure b) Q P' :=
  fun _ _ _ hle hr hp => ⟨_, le_refl _, hr, h _ hle, hP _ hp⟩

theorem sim_throw (e : Fault) : Sim L ρ P (throw e : Exec α) (throw e : Exec β) Q P' :=
  fun _ _ _ _ hr _ => ⟨rfl, _, le_refl _, hr⟩

/-- Answers that are left out need not be related. -/
theorem Sim.discard (h : Sim L ρ P x y Q P') :
    Sim L ρ P (discard x) (discard y) (fun _ _ _ => True) P' := by
  rw [discard_eq, discard_eq]
  exact h.bind fun _ _ _ _ _ => sim_pure (fun _ _ => trivial) fun _ hp => hp

/-- The machines that are looked at are related. -/
theorem sim_get : Sim L ρ P get get L.Related P :=
  fun _ _ _ _ hr hp => ⟨_, le_refl _, hr, hr, hp⟩

/-- A check has related outcomes if what it checks is related. -/
theorem sim_ofExcept {r : Except Fault α} {r' : Except Fault β}
    (h : Alike (fun a b => ∀ ρ₁, ρ ≤ ρ₁ → Q ρ₁ a b) r r') :
    Sim L ρ P (ofExcept r) (ofExcept r') Q P := by
  cases h with
  | ok h => exact sim_pure h fun _ hp => hp
  | error e => exact sim_throw e

theorem sim_ofExcept_eq {r r' : Except Fault α} (h : r = r') :
    Sim L ρ P (ofExcept r) (ofExcept r') (fun _ a b => a = b) P := by
  subst h
  cases r with
  | ok a => exact sim_pure (fun _ _ => rfl) fun _ hp => hp
  | error e => exact sim_throw e

/-- The size of the stack is the same and known. -/
theorem Sim.of_stackSize {k : Nat → Exec γ} {l : Nat → Exec δ}
    (h : ∀ n, Sim L ρ (fun o => o.size = n ∧ P o) (k n) (l n) R P') :
    Sim L ρ P (stackSize >>= k) (stackSize >>= l) R P' := by
  intro ρ₁ m m' hle hr hp
  have hsize : m'.stack.size = m.stack.size := hr.stack.size
  rw [bind_eq, bind_eq, stackSize_eq, stackSize_eq, hsize]
  exact h m.stack.size _ _ _ hle hr ⟨rfl, hp⟩

/-- The executing activations are at the same place of related functions. -/
theorem Sim.of_frame {k : Frame → Exec γ} {l : Frame → Exec δ}
    (h : ∀ ρ₁ f f', ρ ≤ ρ₁ → f.Related ρ₁ f' →
      Sim L ρ₁ (fun o => (∃ rest, o.shape = (f.function, f.base) :: rest) ∧ P o) (k f) (l f')
        R P') :
    Sim L ρ P (frame >>= k) (frame >>= l) R P' := by
  intro ρ₁ m m' hle hr hp
  have hframes := hr.frames
  cases hf : m.frames with
  | nil =>
    rw [hf] at hframes
    have hf' : m'.frames = [] := List.forall₂_nil_left_iff.1 hframes
    rw [bind_eq, bind_eq, frame_of_no_frame hf, frame_of_no_frame hf']
    exact ⟨rfl, _, le_refl _, hr⟩
  | cons f rest =>
    rw [hf] at hframes
    obtain ⟨f', rest', hrel, -, hf'⟩ := List.forall₂_cons_left_iff.1 hframes
    rw [bind_eq, bind_eq, frame_eq hf, frame_eq hf']
    refine h ρ₁ f f' hle hrel _ _ _ (le_refl _) hr ⟨?_, hp⟩
    simp [Machine.outline, hf]

end Exec

/-! ## Parts of the machine

An operation on the stack must keep away from the slots that need not agree. Which slots these are
is known from the outline.
-/

/-- So many values on top of the stack agree, and the named slots are locals. -/
structure Linkage.Ready (L : Linkage) (slots : List Nat) (d : Nat) (o : Outline) : Prop where
  clear : ∀ i, L.hidden o.shape i → i + d < o.size
  owns : ∀ s ∈ slots, L.owned o.shape s

/-- All values from the slot `floor` on agree, and there are `top` values. -/
structure Linkage.Above (L : Linkage) (floor top : Nat) (o : Outline) : Prop where
  clear : ∀ i, L.hidden o.shape i → i < floor
  size : o.size = top
  le : floor ≤ top

/-- Shrinking leaves what is below. -/
theorem getElem?_shrink (vs : Array Value) (n i : Nat) :
    (vs.shrink n)[i]? = if i < n then vs[i]? else none := by
  rw [← Array.getElem?_toList, Array.toList_shrink, List.getElem?_take, Array.getElem?_toList]

theorem toList_extract_size (vs : Array Value) (n : Nat) :
    (vs.extract n vs.size).toList = vs.toList.drop n := by
  rw [Array.toList_extract, List.extract_eq_take_drop]
  exact List.take_of_length_le (by simp)

/-- The values of two stacks agree from some slot on. -/
theorem Stack.Related.drop {hidden : Nat → Prop} {ρ : Renaming} {s s' : Stack}
    (h : s.Related hidden ρ s') {n : Nat} (hn : ∀ i, hidden i → i < n) :
    Values.Related ρ (s.values.toList.drop n) (s'.values.toList.drop n) := by
  refine List.forall₂_iff_get.2 ⟨by simp [h.size], fun i hi hi' => ?_⟩
  have hlt : n + i < s.values.size := by
    simp only [List.length_drop, Array.length_toList] at hi
    omega
  have hlt' : n + i < s'.values.size := h.size ▸ hlt
  refine h.values (i := n + i) (fun hh => absurd (hn _ hh) (by omega)) ?_ ?_
  · simp [Array.getElem?_eq_getElem hlt]
  · simp [Array.getElem?_eq_getElem hlt']

namespace Exec

variable {α β : Type} {L : Linkage} {ρ : Renaming} {P P' : Outline → Prop}
  {Q : Renaming → α → β → Prop} {slots : List Nat} {d : Nat} (hL : L.Stable)
include hL

/-- Computations of the stack that do alike and do not touch the slots that need not agree. -/
theorem sim_onStack {x : StackM α} {y : StackM β}
    (h : ∀ (ρ₁ : Renaming) (o : Outline) (s s' : Stack), ρ ≤ ρ₁ → P o → s.values.size = o.size →
      s.Related (L.hidden o.shape) ρ₁ s' →
      match x s, y s' with
      | .ok a t, .ok b t' =>
        Q ρ₁ a b ∧ P' { o with size := t.values.size } ∧ t.Related (L.hidden o.shape) ρ₁ t' ∧
          ∀ i, L.hidden o.shape i → t.values[i]? = s.values[i]?
      | .error e t, .error e' t' => e = e' ∧ t = s ∧ t' = s'
      | _, _ => False) :
    Sim L ρ P (onStack x) (onStack y) Q P' := by
  intro ρ₁ m m' hle hr hp
  have h := h ρ₁ m.outline m.stack m'.stack hle hp rfl hr.stack
  rw [onStack_eq, onStack_eq]
  cases hx : x m.stack with
  | error e t =>
    cases hy : y m'.stack with
    | ok b t' => simp only [hx, hy] at h
    | error e' t' =>
      simp only [hx, hy] at h ⊢
      obtain ⟨heq, rfl, rfl⟩ := h
      exact ⟨heq, ρ₁, le_refl _, hr⟩
  | ok a t =>
    cases hy : y m'.stack with
    | error e' t' => simp only [hx, hy] at h
    | ok b t' =>
      simp only [hx, hy] at h ⊢
      obtain ⟨hq, hp', hrel, hsame⟩ := h
      exact ⟨ρ₁, le_refl _, hr.withStack hL hrel hsame, hq, hp'⟩

/-- The new value is above all slots that need not agree. -/
theorem sim_push {v v' : Value} (hv : v.Related ρ v')
    (hP : ∀ o, P o → (∀ i, L.hidden o.shape i → i < o.size) ∧
      P' { o with size := o.size + 1 }) :
    Sim L ρ P (push v) (push v') (fun _ _ _ => True) P' := by
  refine sim_onStack hL fun ρ₁ o s s' hle hp hsize hr => ?_
  obtain ⟨hhid, hp'⟩ := hP o hp
  have hpush (s : Stack) (v : Value) : Stack.push v s =
      if s.values.size < s.capacity then .ok () { s with values := s.values.push v }
      else .error .stackOverflow s := rfl
  rw [hpush, hpush, hr.size, hr.capacity]
  by_cases hroom : s.values.size < s.capacity
  · rw [if_pos hroom, if_pos hroom]
    refine ⟨trivial, ?_, ⟨rfl, by simp [hr.size], ?_⟩, fun i hi => ?_⟩
    · rwa [Array.size_push, hsize]
    · intro i u u' hi hu hu'
      rw [Array.getElem?_push] at hu hu'
      rw [hr.size] at hu'
      split at hu
      · rw [if_pos ‹_›] at hu'
        cases hu
        cases hu'
        exact hv.mono hle
      · rw [if_neg ‹_›] at hu'
        exact hr.values hi hu hu'
    · rw [Array.getElem?_push, if_neg]
      exact Nat.ne_of_lt (hsize ▸ hhid i hi)
  · rw [if_neg hroom, if_neg hroom]
    exact ⟨rfl, rfl, rfl⟩

/-- The value on top must not be one of those that need not agree. -/
theorem sim_pop
    (hP : ∀ o, P o → (∀ i, L.hidden o.shape i → i + 1 < o.size) ∧
      P' { o with size := o.size - 1 }) :
    Sim L ρ P pop pop Value.Related P' := by
  refine sim_onStack hL fun ρ₁ o s s' hle hp hsize hr => ?_
  obtain ⟨hhid, hp'⟩ := hP o hp
  unfold Stack.pop
  rw [Array.back?_eq_getElem?, Array.back?_eq_getElem?, hr.size]
  rcases Nat.eq_zero_or_pos s.values.size with h0 | hpos
  · rw [Array.getElem?_eq_none (by omega), Array.getElem?_eq_none (by rw [hr.size]; omega)]
    exact ⟨rfl, rfl, rfl⟩
  · have hlt : s.values.size - 1 < s.values.size := by omega
    have hlt' : s.values.size - 1 < s'.values.size := hr.size ▸ hlt
    rw [Array.getElem?_eq_getElem hlt, Array.getElem?_eq_getElem hlt']
    refine ⟨?_, ?_, ⟨hr.capacity, by simp [hr.size], ?_⟩, fun i hi => ?_⟩
    · refine hr.values (i := s.values.size - 1) (fun hh => ?_) (Array.getElem?_eq_getElem hlt)
        (Array.getElem?_eq_getElem hlt')
      have := hhid _ hh
      omega
    · rwa [Array.size_pop, hsize]
    · intro i u u' hi hu hu'
      rw [Array.getElem?_pop] at hu hu'
      split at hu
      · split at hu'
        · exact hr.values hi hu hu'
        · cases hu'
      · cases hu
    · have := hhid i hi
      rw [Array.getElem?_pop, if_pos (by omega)]

theorem sim_top (hP : ∀ o, P o → ∀ i, L.hidden o.shape i → i + 1 < o.size) :
    Sim L ρ P top top Value.Related P := by
  refine sim_onStack hL fun ρ₁ o s s' hle hp hsize hr => ?_
  unfold Stack.peek
  rw [hr.size]
  by_cases hpos : 0 < s.values.size
  · have hlt : s.values.size - 1 - 0 < s.values.size := by omega
    have hlt' : s.values.size - 1 - 0 < s'.values.size := hr.size ▸ hlt
    rw [if_pos hpos, if_pos hpos, Array.getElem?_eq_getElem hlt, Array.getElem?_eq_getElem hlt']
    refine ⟨?_, ?_, hr, fun _ _ => rfl⟩
    · refine hr.values (fun hh => ?_) (Array.getElem?_eq_getElem hlt)
        (Array.getElem?_eq_getElem hlt')
      have := hP o hp _ hh
      omega
    · rw [hsize]
      exact hp
  · rw [if_neg hpos, if_neg hpos]
    exact ⟨rfl, rfl, rfl⟩

/-- If there are as many, none of them is a slot that need not agree. -/
theorem sim_popMany (n : Nat)
    (hP : ∀ o, P o → n ≤ o.size → (∀ i, L.hidden o.shape i → i + n < o.size) ∧
      P' { o with size := o.size - n }) :
    Sim L ρ P (onStack (Stack.popMany n)) (onStack (Stack.popMany n)) Values.Related P' := by
  refine sim_onStack hL fun ρ₁ o s s' hle hp hsize hr => ?_
  unfold Stack.popMany
  rw [hr.size]
  by_cases hn : n ≤ s.values.size
  · obtain ⟨hhid, hp'⟩ := hP o hp (hsize ▸ hn)
    have hfloor (i : Nat) (hi : L.hidden o.shape i) : i < s.values.size - n := by
      have := hhid i hi
      omega
    rw [if_pos hn, if_pos hn]
    refine ⟨?_, ?_, ⟨hr.capacity, by simp [hr.size], ?_⟩, fun i hi => ?_⟩
    · have hdrop := hr.drop hfloor
      rw [toList_extract_size, ← hr.size, toList_extract_size, hr.size]
      exact hdrop
    · rwa [Array.size_shrink, Nat.min_eq_left (Nat.sub_le ..), hsize]
    · intro i u u' hi hu hu'
      simp only [getElem?_shrink] at hu hu'
      split at hu
      · rw [if_pos ‹_›] at hu'
        exact hr.values hi hu hu'
      · cases hu
    · rw [getElem?_shrink, if_pos (hfloor i hi)]
  · rw [if_neg hn, if_neg hn]
    exact ⟨rfl, rfl, rfl⟩

theorem sim_stackGet (i : Nat) (hP : ∀ o, P o → ¬ L.hidden o.shape i) :
    Sim L ρ P (onStack (Stack.get i)) (onStack (Stack.get i)) Value.Related P := by
  refine sim_onStack hL fun ρ₁ o s s' hle hp hsize hr => ?_
  unfold Stack.get
  rcases Nat.lt_or_ge i s.values.size with hlt | hge
  · have hlt' : i < s'.values.size := hr.size ▸ hlt
    rw [Array.getElem?_eq_getElem hlt, Array.getElem?_eq_getElem hlt']
    refine ⟨hr.values (hP o hp) (Array.getElem?_eq_getElem hlt) (Array.getElem?_eq_getElem hlt'),
      ?_, hr, fun _ _ => rfl⟩
    rw [hsize]
    exact hp
  · rw [Array.getElem?_eq_none hge, Array.getElem?_eq_none (hr.size ▸ hge)]
    exact ⟨rfl, rfl, rfl⟩

/-- What is left still has all slots that need not agree. -/
theorem sim_truncate (n : Nat)
    (hP : ∀ o, P o → (∀ i, L.hidden o.shape i → i < n) ∧ P' { o with size := min n o.size }) :
    Sim L ρ P (onStack (Stack.truncate n)) (onStack (Stack.truncate n)) (fun _ _ _ => True) P' := by
  refine sim_onStack hL fun ρ₁ o s s' hle hp hsize hr => ?_
  obtain ⟨hhid, hp'⟩ := hP o hp
  refine ⟨trivial, ?_, ⟨hr.capacity, by simp [hr.size], ?_⟩, fun i hi => ?_⟩
  · rwa [Array.size_shrink, hsize]
  · intro i u u' hi hu hu'
    simp only [getElem?_shrink] at hu hu'
    split at hu
    · rw [if_pos ‹_›] at hu'
      exact hr.values hi hu hu'
    · cases hu
  · rw [getElem?_shrink, if_pos (hhid i hi)]

/-- The values from the slot on agree, since none of them is a slot that need not. -/
theorem sim_sliceFrom (n : Nat) (hP : ∀ o, P o → ∀ i, L.hidden o.shape i → i < n) :
    Sim L ρ P (onStack (Stack.sliceFrom n)) (onStack (Stack.sliceFrom n)) Values.Related P := by
  refine sim_onStack hL fun ρ₁ o s s' hle hp hsize hr => ?_
  unfold Stack.sliceFrom
  rw [hr.size]
  by_cases hn : n ≤ s.values.size
  · rw [if_pos hn, if_pos hn]
    refine ⟨?_, ?_, hr, fun _ _ => rfl⟩
    · rw [toList_extract_size, ← hr.size, toList_extract_size]
      exact hr.drop (hP o hp)
    · rw [hsize]
      exact hp
  · rw [if_neg hn, if_neg hn]
    exact ⟨rfl, rfl, rfl⟩

/-- Values that are pushed above the floor agree. -/
theorem sim_pushUndefined {floor top : Nat} (n : Nat) :
    Sim L ρ (L.Above floor top) (pushUndefined n) (pushUndefined n) (fun _ _ _ => True)
      (L.Above floor (top + n)) := by
  induction n generalizing top with
  | zero => exact sim_pure (fun _ _ => trivial) fun _ hp => hp
  | succ n ih =>
    have hpush : Sim L ρ (L.Above floor top) (push .undefined) (push .undefined)
        (fun _ _ _ => True) (L.Above floor (top + 1)) := by
      refine sim_push hL .undefined fun o ho => ⟨fun i hi => ?_, ho.clear, ?_, ?_⟩
      · exact ho.size ▸ Nat.lt_of_lt_of_le (ho.clear i hi) ho.le
      · exact congrArg (· + 1) ho.size
      · exact Nat.le_succ_of_le ho.le
    refine hpush.bind fun ρ₁ _ _ _ _ => ?_
    rw [show top + (n + 1) = top + 1 + n by omega]
    exact fun ρ₂ m m' hle => ih ρ₂ m m' (le_trans ‹_› hle)

/-! ## With values that agree on top

Most instructions take values that agree from the top and put their result there. So how many agree
is all that has to be kept in mind from one part to the next.
-/

/-- One value more agrees. -/
theorem sim_pushReady {v v' : Value} (hv : v.Related ρ v') :
    Sim L ρ (L.Ready slots d) (push v) (push v') (fun _ _ _ => True) (L.Ready slots (d + 1)) := by
  refine sim_push hL hv fun o ho => ⟨fun i hi => ?_, fun i hi => ?_, ho.owns⟩
  · have := ho.clear i hi
    omega
  · have := ho.clear i hi
    show i + (d + 1) < o.size + 1
    omega

/-- One value less agrees, and the one that was taken is related. -/
theorem sim_popReady :
    Sim L ρ (L.Ready slots (d + 1)) pop pop Value.Related (L.Ready slots d) := by
  refine sim_pop hL fun o ho => ⟨fun i hi => ?_, fun i hi => ?_, ho.owns⟩
  · have := ho.clear i hi
    omega
  · have := ho.clear i hi
    show i + d < o.size - 1
    omega

theorem sim_topReady :
    Sim L ρ (L.Ready slots (d + 1)) top top Value.Related (L.Ready slots (d + 1)) := by
  refine sim_top hL fun o ho i hi => ?_
  have := ho.clear i hi
  omega

/-- If there are as many, all of them agree. -/
theorem sim_popManyReady (n : Nat) (hP : ∀ o, P o → n ≤ o.size → L.Ready slots (n + d) o) :
    Sim L ρ P (onStack (Stack.popMany n)) (onStack (Stack.popMany n)) Values.Related
      (L.Ready slots d) := by
  refine sim_popMany hL n fun o ho hn => ?_
  have hready := hP o ho hn
  refine ⟨fun i hi => ?_, fun i hi => ?_, hready.owns⟩
  · have := hready.clear i hi
    omega
  · have := hready.clear i hi
    show i + d < o.size - n
    omega

/-! ## Beside the stack -/

/-- Computations over the heap do not concern the activations. -/
theorem sim_onHeap {x : HeapM α} {y : HeapM β} {R : World → α → β → Prop}
    (hx : ∀ w : World, ρ ≤ w.ρ → HeapM.Sim World.Grows w x y R)
    (hQ : ∀ w a b, R w a b → Q w.ρ a b) : Sim L ρ P (onHeap x) (onHeap y) Q P := by
  intro ρ₁ m m' hle hr hp
  rw [onHeap_eq, onHeap_eq]
  obtain ⟨a, b, w, hx, hy, hg, hv, hq⟩ | ⟨e, w, hx, hy, hg, hv⟩ :=
    (hx ⟨ρ₁, m.heap, m'.heap⟩ hle).cases (World.Extends.refl _).grows hr.heap
  · dsimp only at hx hy ⊢
    rw [hx, hy]
    exact ⟨w.ρ, hg.le, hr.grow hL hg hv, hQ _ _ _ hq, hp⟩
  · dsimp only at hx hy ⊢
    rw [hx, hy]
    exact ⟨rfl, w.ρ, hg.le, hr.grow hL hg hv⟩

theorem sim_onHeapValue {x y : HeapM Value}
    (hx : ∀ w : World, ρ ≤ w.ρ → HeapM.Sim World.Grows w x y HeapM.Same) :
    Sim L ρ P (onHeap x) (onHeap y) Value.Related P :=
  sim_onHeap hL hx fun _ _ _ h => h

/-- Both machines have as much left of a budget, so both are refused or neither is. -/
theorem sim_charge : Sim L ρ P charge charge (fun _ _ _ => True) P := by
  intro ρ₁ m m' hle hr hp
  rw [charge_eq, charge_eq, hr.budget]
  cases hb : m.budget with
  | none => exact ⟨ρ₁, le_refl _, hr, trivial, hp⟩
  | some n =>
    cases n with
    | zero => exact ⟨rfl, ρ₁, le_refl _, hr⟩
    | succ n =>
      have hnone {m : Machine} (hb : m.budget = some (n + 1)) :
          m.GoesOn { m with budget := some n } := ⟨rfl, fun h => by simp [hb] at h⟩
      refine ⟨ρ₁, le_refl _, { hr with budget := rfl, link := ?_ }, trivial, hp⟩
      exact hL hr.link (hnone hb) (hnone (hr.budget.trans hb)) (fun _ _ => rfl)
        (World.Extends.refl _).grows

omit hL in
theorem sim_constant (index : Nat) :
    Sim L ρ P (constant index) (constant index) Value.Related P := by
  intro ρ₁ m m' hle hr hp
  have hrel := Heap.getElem?_related hr.constants index
  have hsize : m'.constants.size = m.constants.size := by
    simpa using hr.constants.length_eq.symm
  rw [constant_eq, constant_eq, hsize]
  simp only [Array.getElem?_toList] at hrel
  generalize m.constants[index]? = a at hrel
  generalize m'.constants[index]? = b at hrel
  cases hrel with
  | none => exact ⟨rfl, ρ₁, le_refl _, hr⟩
  | some h => exact ⟨ρ₁, le_refl _, hr, h, hp⟩

omit hL in
theorem sim_global (index : Nat) : Sim L ρ P (global index) (global index) Value.Related P := by
  intro ρ₁ m m' hle hr hp
  have hrel := Heap.getElem?_related hr.globals index
  have hsize : m'.globals.size = m.globals.size := by
    simpa using hr.globals.length_eq.symm
  rw [global_eq, global_eq, hsize]
  simp only [Array.getElem?_toList] at hrel
  generalize m.globals[index]? = a at hrel
  generalize m'.globals[index]? = b at hrel
  cases hrel with
  | none => exact ⟨rfl, ρ₁, le_refl _, hr⟩
  | some h => exact ⟨ρ₁, le_refl _, hr, h, hp⟩

theorem sim_setGlobal (index : Nat) {v v' : Value} (hv : v.Related ρ v') :
    Sim L ρ P (setGlobal index v) (setGlobal index v') (fun _ _ _ => True) P := by
  intro ρ₁ m m' hle hr hp
  have hsize : m'.globals.size = m.globals.size := by
    simpa using hr.globals.length_eq.symm
  rw [setGlobal_eq, setGlobal_eq, hsize]
  by_cases hi : index < m.globals.size
  · rw [if_pos hi, if_pos hi]
    refine ⟨ρ₁, le_refl _, { hr with globals := ?_, link := ?_ }, trivial, hp⟩
    · simp only [Array.toList_setIfInBounds]
      exact Heap.set_related hr.globals index (hv.mono hle)
    · exact hL hr.link ⟨rfl, id⟩ ⟨rfl, id⟩ (fun _ _ => rfl) (World.Extends.refl _).grows
  · rw [if_neg hi, if_neg hi]
    exact ⟨rfl, ρ₁, le_refl _, hr⟩

omit hL in
/-- Truth is the same for related values. -/
theorem sim_isFalsy {v v' : Value} (hv : v.Related ρ v') :
    Sim L ρ P (isFalsy v) (isFalsy v') (fun _ a b => a = b) P := by
  intro ρ₁ m m' hle hr hp
  rw [isFalsy_eq, isFalsy_eq]
  exact ⟨ρ₁, le_refl _, hr, Heap.isFalsy_related hr.heap (hv.mono hle), hp⟩

end Exec

/-- Both machines may go on at another offset. -/
theorem Linkage.Related.goTo {L : Linkage} {ρ : Renaming} {m m' : Machine} (hr : L.Related ρ m m')
    (hL : L.Stable) {f f' : Frame} {rest rest' : List Frame} (hf : m.frames = f :: rest)
    (hf' : m'.frames = f' :: rest') (ip : Nat) : L.Related ρ (m.goTo ip) (m'.goTo ip) := by
  have hframes := hr.frames
  rw [hf, hf'] at hframes
  obtain ⟨hrel, hrest⟩ := List.forall₂_cons.1 hframes
  rw [Machine.goTo_eq hf, Machine.goTo_eq hf']
  refine { hr with stack := ?_, frames := ?_, link := ?_ }
  · have hstack := hr.stack
    rw [Machine.outline, hf] at hstack
    exact hstack
  · exact .cons { hrel with ip := rfl } hrest
  · refine hL hr.link ⟨?_, id⟩ ⟨?_, id⟩ (fun _ _ => rfl) (World.Extends.refl _).grows
    · rw [hf]
      rfl
    · rw [hf']
      rfl

theorem Machine.outline_goTo (m : Machine) (ip : Nat) : (m.goTo ip).outline = m.outline := by
  unfold goTo outline
  cases hf : m.frames <;> simp [hf]

namespace Exec

variable {L : Linkage} {ρ : Renaming} {P : Outline → Prop} (hL : L.Stable)
include hL

/-- Related functions have code of one length, so the same targets are accepted. -/
theorem sim_jump (target : Nat) :
    Sim L ρ P (jump target) (jump target) (fun _ _ _ => True) P := by
  intro ρ₁ m m' hle hr hp
  have hframes := hr.frames
  cases hf : m.frames with
  | nil =>
    rw [hf] at hframes
    have hf' : m'.frames = [] := List.forall₂_nil_left_iff.1 hframes
    unfold jump
    rw [bind_eq, bind_eq, frame_of_no_frame hf, frame_of_no_frame hf']
    exact ⟨rfl, ρ₁, le_refl _, hr⟩
  | cons f rest =>
    rw [hf] at hframes
    obtain ⟨f', rest', hrel, hrest, hf'⟩ := List.forall₂_cons_left_iff.1 hframes
    have hcode : f'.function.code = f.function.code := by rw [hrel.function.eq]
    have hgo := hr.goTo hL hf hf' target
    have houtline := m.outline_goTo target
    rw [Machine.goTo_eq hf] at hgo houtline
    rw [Machine.goTo_eq hf'] at hgo
    rw [jump_eq hf, jump_eq hf', hcode]
    by_cases htarget : target ≤ f.function.code.size
    · rw [if_pos htarget, if_pos htarget]
      exact ⟨ρ₁, le_refl _, hgo, trivial, houtline ▸ hp⟩
    · rw [if_neg htarget, if_neg htarget]
      exact ⟨rfl, ρ₁, le_refl _, hr⟩

end Exec
end ScriptVM
