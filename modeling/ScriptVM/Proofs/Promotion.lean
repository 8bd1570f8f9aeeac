import ScriptVM.Proofs.Lockstep

/-!
# Locals that move into cells

The machine keeps a local on the stack until a closure captures it. Another machine keeps each local
in a cell of its own from the beginning. No run can tell the two apart: a local that has been
captured is in paired cells, and one that has not is on the stack of the first machine and in a cell
of the second that nothing else refers to.
-/

namespace ScriptVM

/-! ## Local slots

The slots of different activations do not overlap, because there is a callee between any two. So a
stack slot is a local of one activation at most.
-/

def Frame.place (f : Frame) : Function × Nat := (f.function, f.base)

/-- The stack slots of the locals of an activation. -/
def Slots (p : Function × Nat) (i : Nat) : Prop := p.2 ≤ i ∧ i < p.2 + p.1.numLocals

def LocalOf (shape : List (Function × Nat)) (i : Nat) : Prop := ∃ p ∈ shape, Slots p i

/-- The first activation has its locals above those of the second, with a callee between. -/
def Apart (p q : Function × Nat) : Prop := p.2 ≠ 0 ∧ ∀ i, Slots q i → i + 1 < p.2

theorem LocalOf.cons_iff {p : Function × Nat} {shape : List (Function × Nat)} {i : Nat} :
    LocalOf (p :: shape) i ↔ Slots p i ∨ LocalOf shape i := by
  simp [LocalOf]

/-- A slot of an activation beneath lies below the callee of the one on top. -/
theorem LocalOf.lt {p : Function × Nat} {shape : List (Function × Nat)} {i : Nat}
    (hp : ∀ q ∈ shape, Apart p q) (hi : LocalOf shape i) : i + 1 < p.2 := by
  obtain ⟨q, hq, hi⟩ := hi
  exact (hp q hq).2 i hi

/-! ## Where locals are

The cell of a local that has not been captured belongs to its stack slot. What owns which cell is
kept track of beside the machines, since neither of them says so.
-/

/-- A cell that no cell of the other heap stands for. -/
structure Unpaired (ρ : Renaming) (h : Heap) (i : Nat) : Prop where
  lt : i < h.count .cell
  free : ∀ a, ¬ ρ.rel .cell a i

/-- Where the local in a stack slot is: in paired cells, or on the stack of the first machine and in
a cell of the second that belongs to the slot. -/
inductive Keeps (ρ : Renaming) (owner : Nat → Nat) (s : Stack) (h : Heap) (i : Nat) :
    Option CellRef → Option CellRef → Prop where
  | shared {c c' : CellRef} (hrel : ρ.rel .cell c.index c'.index) :
    Keeps ρ owner s h i (some c) (some c')
  | own {v : Value} {c' : CellRef} (hv : s.values[i]? = some v) (hc : Unpaired ρ h c'.index)
    (howner : owner c'.index = i) (hrel : v.Related ρ (h.cellAt c')) :
    Keeps ρ owner s h i none (some c')

/-- All locals of two activations are somewhere. -/
def Linked (ρ : Renaming) (owner : Nat → Nat) (s : Stack) (h : Heap) (f f' : Frame) : Prop :=
  ∀ slot, slot < f.function.numLocals →
    Keeps ρ owner s h (f.base + slot) (f.cell? slot) (f'.cell? slot)

/-- The locals of a machine that moves them into cells on demand, beside one that has each in a cell
from the beginning. -/
structure Promoted (ρ : Renaming) (m m' : Machine) : Prop where
  budget : m.budget = none
  apart : m.outline.shape.Pairwise Apart
  inside : ∀ i, LocalOf m.outline.shape i → i < m.stack.size
  linked : ∃ owner, List.Forall₂ (Linked ρ owner m.stack m'.heap) m.frames m'.frames

/-- Stack slots of locals need not agree. When no activation is left no slot needs to. -/
def promotion : Linkage where
  hidden shape i := shape = [] ∨ LocalOf shape i
  owned shape slot := ∃ p ∈ shape.head?, slot < p.1.numLocals
  link := Promoted

section

variable {ρ ρ' : Renaming} {owner owner' : Nat → Nat} {s s₁ : Stack} {h h₁ : Heap}

/-- A local stays where it is as long as nobody touches its slot or its cell. -/
theorem Keeps.imp {i : Nat} {c c' : Option CellRef} (hk : Keeps ρ owner s h i c c') (hle : ρ ≤ ρ')
    (hs : s₁.values[i]? = s.values[i]?)
    (hc : ∀ j, Unpaired ρ h j → owner j = i →
      Unpaired ρ' h₁ j ∧ owner' j = i ∧ h₁.cellAt ⟨j⟩ = h.cellAt ⟨j⟩) :
    Keeps ρ' owner' s₁ h₁ i c c' := by
  cases hk with
  | shared hrel => exact .shared (hle _ _ _ hrel)
  | @own v c' hv hu howner hrel =>
    obtain ⟨hu', howner', hsame⟩ := hc _ hu howner
    refine .own (hs.trans hv) hu' howner' ?_
    rw [show h₁.cellAt c' = h.cellAt c' from hsame]
    exact hrel.mono hle

/-- An activation keeps its locals if nothing of them has been touched. -/
theorem Linked.imp {f f' : Frame} (hf : Linked ρ owner s h f f') (hle : ρ ≤ ρ')
    (hs : ∀ i, Slots f.place i → s₁.values[i]? = s.values[i]?)
    (hc : ∀ j, Unpaired ρ h j → Slots f.place (owner j) →
      Unpaired ρ' h₁ j ∧ owner' j = owner j ∧ h₁.cellAt ⟨j⟩ = h.cellAt ⟨j⟩) :
    Linked ρ' owner' s₁ h₁ f f' := by
  intro slot hslot
  have hin : Slots f.place (f.base + slot) :=
    ⟨Nat.le_add_right .., Nat.add_lt_add_left hslot _⟩
  refine (hf slot hslot).imp hle (hs _ hin) fun j hj howner => ?_
  obtain ⟨hj', howner', hsame⟩ := hc j hj (howner ▸ hin)
  exact ⟨hj', howner'.trans howner, hsame⟩

/-- The same for all activations. -/
theorem linked_imp {fs fs' : List Frame} (hfs : List.Forall₂ (Linked ρ owner s h) fs fs')
    (hle : ρ ≤ ρ') (hs : ∀ i, LocalOf (fs.map Frame.place) i → s₁.values[i]? = s.values[i]?)
    (hc : ∀ j, Unpaired ρ h j → LocalOf (fs.map Frame.place) (owner j) →
      Unpaired ρ' h₁ j ∧ owner' j = owner j ∧ h₁.cellAt ⟨j⟩ = h.cellAt ⟨j⟩) :
    List.Forall₂ (Linked ρ' owner' s₁ h₁) fs fs' := by
  induction hfs with
  | nil => exact .nil
  | cons hf _ ih =>
    refine .cons (hf.imp hle (fun i hi => hs i ?_) fun j hj hi => hc j hj ?_)
      (ih (fun i hi => hs i ?_) fun j hj hi => hc j hj ?_)
    · exact LocalOf.cons_iff.2 (.inl hi)
    · exact LocalOf.cons_iff.2 (.inl hi)
    · exact LocalOf.cons_iff.2 (.inr hi)
    · exact LocalOf.cons_iff.2 (.inr hi)

/-- It does not matter where activations are in their code. -/
theorem linked_still {fs fs' : List Frame} :
    List.Forall₂ (Linked ρ owner s h) (fs.map Frame.still) (fs'.map Frame.still) ↔
      List.Forall₂ (Linked ρ owner s h) fs fs' := by
  rw [List.forall₂_map_left_iff, List.forall₂_map_right_iff]
  exact Iff.rfl

/-- What has been unpaired stays so while the heaps grow. -/
theorem Unpaired.grow {g g₁ : Heap} {j : Nat} (hj : Unpaired ρ h j)
    (hg : World.Grows ⟨ρ, g, h⟩ ⟨ρ', g₁, h₁⟩) :
    Unpaired ρ' h₁ j ∧ h₁.cellAt ⟨j⟩ = h.cellAt ⟨j⟩ :=
  ⟨⟨Nat.lt_of_lt_of_le hj.lt (hg.rightCount _), hg.unpaired_right hj.lt hj.free⟩,
    hg.right hj.lt hj.free⟩

end

/-- While heaps grow, unpaired cells stay as they are. -/
theorem stable_promotion : promotion.Stable := by
  intro ρ ρ₁ m m' m₁ m₁' hlink hgo hgo' hsame hg
  obtain ⟨owner, hlinked⟩ := hlink.linked
  have hshape := hgo.shape
  have hslots (i : Nat) (hi : LocalOf m.outline.shape i) :
      m₁.stack.values[i]? = m.stack.values[i]? := hsame i (.inr hi)
  refine ⟨hgo.budget hlink.budget, hshape ▸ hlink.apart, fun i hi => ?_, owner, ?_⟩
  · rw [hshape] at hi
    have hlt := hlink.inside i hi
    have hsome := hslots i hi
    rw [Array.getElem?_eq_getElem hlt] at hsome
    exact (Array.getElem?_eq_some_iff.1 hsome).1
  · rw [← linked_still, hgo.frames, hgo'.frames, linked_still]
    refine linked_imp hlinked hg.le hslots fun j hj _ => ?_
    obtain ⟨hj', hcell⟩ := hj.grow hg
    exact ⟨hj', rfl, hcell⟩

/-! ## The executing activation

Only the executing activation has its locals read or written. It is taken apart from the ones
beneath, which stay linked as long as their slots and cells are left alone.
-/

/-- The executing activations, and the ones beneath. -/
structure Executing (ρ : Renaming) (owner : Nat → Nat) (m m' : Machine) (f f' : Frame)
    (rest rest' : List Frame) : Prop where
  left : m.frames = f :: rest
  right : m'.frames = f' :: rest'
  base : f'.base = f.base
  top : Linked ρ owner m.stack m'.heap f f'
  below : List.Forall₂ (Linked ρ owner m.stack m'.heap) rest rest'
  apart : ∀ i, LocalOf (rest.map Frame.place) i → i + 1 < f.base

section

variable {ρ ρ' : Renaming} {owner owner' : Nat → Nat} {m m' : Machine} {f f' : Frame}
  {rest rest' : List Frame} {slots : List Nat} {d slot : Nat}

/-- Machines that are related have activations of the same places, one by one. -/
theorem Linkage.Related.executing (hr : promotion.Related ρ m m') (hf : m.frames = f :: rest) :
    ∃ owner f' rest', Executing ρ owner m m' f f' rest rest' := by
  obtain ⟨owner, hlinked⟩ := hr.link.linked
  have hframes := hr.frames
  have hshape : m.outline.shape = f.place :: rest.map Frame.place := by
    rw [Machine.outline, hf]
    rfl
  have hapart := hr.link.apart
  rw [hshape, List.pairwise_cons] at hapart
  rw [hf] at hframes hlinked
  obtain ⟨f', rest', hrel, -, hf'⟩ := List.forall₂_cons_left_iff.1 hframes
  rw [hf'] at hlinked
  obtain ⟨htop, hbelow⟩ := List.forall₂_cons.1 hlinked
  exact ⟨owner, f', rest', hf, hf', hrel.base, htop, hbelow, fun i hi => hi.lt hapart.1⟩

/-- A local is one of the executing activation's, and its slot is on the stack. -/
theorem Linkage.Related.executing_of_owned (hr : promotion.Related ρ m m')
    (hready : promotion.Ready slots d m.outline) (hslot : slot ∈ slots) :
    ∃ owner f f' rest rest', Executing ρ owner m m' f f' rest rest' ∧
      slot < f.function.numLocals ∧ f.base + slot < m.stack.size := by
  obtain ⟨p, hp, hlt⟩ := hready.owns slot hslot
  cases hf : m.frames with
  | nil =>
    rw [Machine.outline, hf] at hp
    cases hp
  | cons f rest =>
    rw [Machine.outline, hf] at hp
    cases hp
    obtain ⟨owner, f', rest', he⟩ := hr.executing hf
    refine ⟨owner, f, f', rest, rest', he, hlt, hr.link.inside _ ⟨f.place, ?_, ?_⟩⟩
    · rw [Machine.outline, hf]
      exact .head _
    · exact ⟨Nat.le_add_right .., Nat.add_lt_add_left hlt _⟩

namespace Executing

variable (he : Executing ρ owner m m' f f' rest rest')
include he

/-- The place of the executing activation comes first. -/
theorem shape_eq : m.outline.shape = f.place :: rest.map Frame.place := by
  rw [Machine.outline, he.left]
  rfl

/-- One local of the executing activation may be kept otherwise than before. -/
theorem update (hr : promotion.Related ρ m m') (hslot : slot < f.function.numLocals)
    (hle : ρ ≤ ρ') (t t' : List (Nat × CellRef)) (s₁ : Stack) {h₁ h₁' : Heap}
    (hcapacity : s₁.capacity = m.stack.capacity) (hsize : s₁.values.size = m.stack.values.size)
    (hs : ∀ i, i ≠ f.base + slot → s₁.values[i]? = m.stack.values[i]?)
    (hheap : Heap.Related ρ' h₁ h₁')
    (hcells : ∀ j, Unpaired ρ m'.heap j → owner j ≠ f.base + slot →
      Unpaired ρ' h₁' j ∧ owner' j = owner j ∧ h₁'.cellAt ⟨j⟩ = m'.heap.cellAt ⟨j⟩)
    (ht : ∀ u, u ≠ slot → ({ f with promoted := t } : Frame).cell? u = f.cell? u)
    (ht' : ∀ u, u ≠ slot → ({ f' with promoted := t' } : Frame).cell? u = f'.cell? u)
    (hk : Keeps ρ' owner' s₁ h₁' (f.base + slot) (({ f with promoted := t } : Frame).cell? slot)
      (({ f' with promoted := t' } : Frame).cell? slot)) :
    promotion.Related ρ'
      { m with stack := s₁, frames := { f with promoted := t } :: rest, heap := h₁ }
      { m' with frames := { f' with promoted := t' } :: rest', heap := h₁' } := by
  have hshape := he.shape_eq
  have hin : Slots f.place (f.base + slot) :=
    ⟨Nat.le_add_right .., Nat.add_lt_add_left hslot _⟩
  have hbelow (i : Nat) (hi : LocalOf (rest.map Frame.place) i) : i ≠ f.base + slot := by
    have := he.apart i hi
    omega
  have hframes := hr.frames
  rw [he.left, he.right] at hframes
  obtain ⟨hrel, hrest⟩ := List.forall₂_cons.1 hframes
  refine ⟨hr.constants.mono hle, ⟨hr.stack.capacity.trans hcapacity.symm,
    hr.stack.size.trans hsize.symm, ?_⟩, ?_, hr.maxFrames, hr.globals.mono hle, hr.budget, hheap,
    ⟨hr.link.budget, ?_, ?_, owner', ?_⟩⟩
  · intro i v v' hi hv hv'
    have hout : ¬ promotion.hidden m.outline.shape i := hshape ▸ hi
    have hne : i ≠ f.base + slot := by
      rintro rfl
      exact hi (.inr (LocalOf.cons_iff.2 (.inl hin)))
    rw [hs i hne] at hv
    exact (hr.stack.values hout hv hv').mono hle
  · refine .cons ⟨hrel.function.mono hle, hrel.ip, hrel.base⟩ (hrest.imp fun _ _ h => h.mono hle)
  · have := hr.link.apart
    rwa [hshape] at this
  · intro i hi
    have := hr.link.inside i (hshape ▸ hi)
    show i < s₁.values.size
    rwa [hsize]
  · refine .cons (fun u hu => ?_)
      (linked_imp he.below hle (fun i hi => hs i (hbelow i hi)) fun j hj hi => ?_)
    · rcases eq_or_ne u slot with rfl | hne
      · exact hk
      · have hne' : f.base + u ≠ f.base + slot := fun h => hne (Nat.add_left_cancel h)
        rw [ht u hne, ht' u hne]
        refine (he.top u hu).imp hle (hs _ hne') fun j hj howner => ?_
        obtain ⟨hj', howner', hsame⟩ := hcells j hj (howner ▸ hne')
        exact ⟨hj', howner'.trans howner, hsame⟩
    · exact hcells j hj (hbelow _ hi)

/-- What is on the stack and in the cells is not part of the outline. -/
theorem outline_update {t : List (Nat × CellRef)} (s₁ : Stack) {h₁ : Heap}
    (hsize : s₁.values.size = m.stack.values.size) :
    ({ m with stack := s₁, frames := { f with promoted := t } :: rest, heap := h₁ } :
      Machine).outline = m.outline := by
  unfold Machine.outline
  rw [he.left]
  simp only [Stack.size, hsize, List.map_cons]

end Executing

end

/-! ## Operations on locals

What each operation does on either machine, as an equation.
-/

theorem Machine.eq_of_frames {m : Machine} {fs : List Frame} (hf : m.frames = fs) :
    m = { m with frames := fs } := by
  rw [← hf]

namespace Exec

variable {m : Machine} {f : Frame} {rest : List Frame} {v : Value} {c : CellRef}

theorem getLocal_eq (hf : m.frames = f :: rest) (slot : Nat) :
    getLocal slot m = match f.cell? slot with
      | some c => .ok (m.heap.cellAt c) m
      | none => onStack (Stack.get (f.base + slot)) m := by
  unfold getLocal
  rw [bind_eq, frame_eq hf]
  dsimp only
  cases f.cell? slot <;> rfl

theorem setLocal_eq (hf : m.frames = f :: rest) (slot : Nat) (v : Value) :
    setLocal slot v m = match f.cell? slot with
      | some c => onHeap (modify fun h => h.setCell c v) m
      | none => onStack (Stack.set (f.base + slot) v) m := by
  unfold setLocal
  rw [bind_eq, frame_eq hf]
  dsimp only
  cases f.cell? slot <;> rfl

theorem stackSet_eq {i : Nat} (hi : i < m.stack.size) (v : Value) :
    onStack (Stack.set i v) m =
      .ok () { m with stack := { m.stack with values := m.stack.values.setIfInBounds i v } } := by
  have hi' : i < m.stack.values.size := hi
  rw [onStack_eq, Stack.set, if_pos hi']

theorem defineLocal_eq (hf : m.frames = f :: rest) {slot : Nat}
    (hslot : f.base + slot < m.stack.size) (v : Value) :
    defineLocal slot v m = .ok () { m with
      frames := f.unbind slot :: rest
      stack := { m.stack with values := m.stack.values.setIfInBounds (f.base + slot) v } } := by
  unfold defineLocal
  rw [bind_eq, frame_eq hf]
  dsimp only
  rw [bind_eq, setFrame_eq, hf]
  exact stackSet_eq (m := { m with frames := f.unbind slot :: rest }) hslot v

/-- Without a budget nothing is refused, so a local on the stack gets its cell. -/
theorem captureLocal_eq (hf : m.frames = f :: rest) (hbudget : m.budget = none) {slot : Nat}
    (hv : m.stack.values[f.base + slot]? = some v) :
    captureLocal slot m = match f.cell? slot with
      | some c => .ok c m
      | none => .ok ⟨m.heap.count .cell⟩ { m with
          frames := { f with promoted := (slot, ⟨m.heap.count .cell⟩) :: f.promoted } :: rest
          heap := (m.heap.addCell v).2 } := by
  unfold captureLocal
  rw [bind_eq, frame_eq hf]
  dsimp only
  rw [bind_eq, onStack_eq, Stack.get, hv]
  dsimp only
  rw [bind_eq, onHeap_eq, Frame.promote]
  cases f.cell? slot with
  | some c =>
    show (setFrame f >>= fun _ => pure c) m = _
    rw [bind_eq, setFrame_eq, hf]
    obtain ⟨constants, stack, frames, maxFrames, globals, budget, heap⟩ := m
    cases hf
    rfl
  | none =>
    show (setFrame { f with promoted := (slot, ⟨m.heap.count .cell⟩) :: f.promoted } >>= fun _ =>
      charge >>= fun _ => pure (⟨m.heap.count .cell⟩ : CellRef))
        { m with heap := (m.heap.addCell v).2 } = _
    rw [bind_eq, setFrame_eq, hf]
    dsimp only
    rw [bind_eq, charge_eq, hbudget]
    rfl

end Exec

namespace Locals

open Exec

variable {m : Machine} {f : Frame} {rest : List Frame} {c : CellRef} {slot : Nat}

theorem cellOf_eq (hf : m.frames = f :: rest) (hc : f.cell? slot = some c) :
    cellOf slot m = .ok c m := by
  unfold cellOf
  rw [bind_eq, frame_eq hf]
  dsimp only
  rw [hc]
  rfl

theorem inCells_get_eq (hf : m.frames = f :: rest) (hc : f.cell? slot = some c) :
    inCells.get slot m = .ok (m.heap.cellAt c) m := by
  show (cellOf slot >>= fun cell => do return (← MonadState.get).heap.cellAt cell) m = _
  rw [bind_eq, cellOf_eq hf hc]
  rfl

theorem inCells_set_eq (hf : m.frames = f :: rest) (hc : f.cell? slot = some c) (v : Value) :
    inCells.set slot v m = onHeap (modify fun h => h.setCell c v) m := by
  show (cellOf slot >>= fun cell => onHeap (modify fun h => h.setCell cell v)) m = _
  rw [bind_eq, cellOf_eq hf hc]

/-- A local that is bound afresh is given another cell, and the closures keep the old one. -/
theorem inCells_define_eq (hf : m.frames = f :: rest) (slot : Nat) (v : Value) :
    inCells.define slot v m = .ok () { m with
      frames := { f with
        promoted := (slot, ⟨m.heap.count .cell⟩) :: (f.unbind slot).promoted } :: rest
      heap := (m.heap.addCell v).2 } := by
  show (frame >>= fun f => onHeap (HeapM.newCell v) >>= fun cell =>
    setFrame { f with promoted := (slot, cell) :: (f.unbind slot).promoted }) m = _
  rw [bind_eq, frame_eq hf]
  dsimp only
  rw [bind_eq, onHeap_eq]
  show setFrame { f with
    promoted := (slot, ⟨m.heap.count .cell⟩) :: (f.unbind slot).promoted }
      { m with heap := (m.heap.addCell v).2 } = _
  rw [setFrame_eq, hf, List.tail_cons]

end Locals

/-! ## The operations do alike

For a local in paired cells both machines work on the pair. For one that has not been captured, one
machine works on its stack and the other on a cell that is not paired. Capturing it pairs the new
cell with that one.
-/

namespace Heap

variable {ρ : Renaming} {h h' : Heap}

/-- A cell that is not paired may be written to. -/
theorem Related.setUnpaired (hr : Related ρ h h') {c : CellRef} (hc : Unpaired ρ h' c.index)
    (v : Value) : Related ρ h (h'.setCell c v) := by
  have hset := sets_setCell h' c v
  refine hr.of_same (fun _ => Nat.le_refl _) (fun k => Nat.le_of_eq (hset.count k).symm)
    fun {k a b} hrel => ⟨.refl .., hset.same k b (not_and_or.1 ?_)⟩
  rintro ⟨rfl, rfl⟩
  exact hc.free a hrel

/-- A cell may be added on either side. -/
theorem Related.addLeft (hr : Related ρ h h') (v : Value) : Related ρ (h.addCell v).2 h' := by
  have hadd := adds_addCell h v
  exact hr.of_same hadd.le (fun _ => Nat.le_refl _) fun hrel =>
    ⟨hadd.same _ _ (hr.bounds hrel).1, .refl ..⟩

/-- The same on the other side. -/
theorem Related.addRight (hr : Related ρ h h') (v : Value) : Related ρ h (h'.addCell v).2 := by
  have hadd := adds_addCell h' v
  exact hr.of_same (fun _ => Nat.le_refl _) hadd.le fun hrel =>
    ⟨.refl .., hadd.same _ _ (hr.bounds hrel).2⟩

end Heap

/-- Writing to another cell leaves an unpaired one as it is. -/
theorem Unpaired.setCell {ρ : Renaming} {h : Heap} {j : Nat} (hj : Unpaired ρ h j) {c : CellRef}
    (hne : j ≠ c.index) (v : Value) :
    Unpaired ρ (h.setCell c v) j ∧ (h.setCell c v).cellAt ⟨j⟩ = h.cellAt ⟨j⟩ := by
  have hset := Heap.sets_setCell h c v
  exact ⟨⟨(hset.count _).symm ▸ hj.lt, hj.free⟩, hset.same .cell j (.inr hne)⟩

theorem Unpaired.addCell {ρ : Renaming} {h : Heap} {j : Nat} (hj : Unpaired ρ h j) (v : Value) :
    Unpaired ρ (h.addCell v).2 j ∧ (h.addCell v).2.cellAt ⟨j⟩ = h.cellAt ⟨j⟩ := by
  have hadd := Heap.adds_addCell h v
  exact ⟨⟨Nat.lt_of_lt_of_le hj.lt (hadd.le _), hj.free⟩, hadd.same .cell j hj.lt⟩

namespace Locals

open Exec

variable {ρ : Renaming} {slots : List Nat} {d slot : Nat}

/-- The local is read from a pair of cells, or from the stack and the cell that belongs to the
slot. -/
theorem sim_get (hslot : slot ∈ slots) :
    Exec.Sim promotion ρ (promotion.Ready slots d) (onDemand.get slot) (inCells.get slot)
      Value.Related (promotion.Ready slots d) := by
  intro ρ₁ m m' _ hr hp
  obtain ⟨owner, f, f', rest, rest', he, hlt, -⟩ := hr.executing_of_owned hp hslot
  have hk := he.top slot hlt
  rw [show onDemand.get slot m = _ from getLocal_eq he.left slot]
  generalize hc : f.cell? slot = c at hk
  generalize hc' : f'.cell? slot = c' at hk
  cases hk with
  | shared hrel =>
    rw [inCells_get_eq he.right hc']
    exact ⟨ρ₁, le_refl _, hr, hr.heap.contents hrel, hp⟩
  | own hv _ _ hrel =>
    rw [inCells_get_eq he.right hc']
    dsimp only
    rw [onStack_eq, Stack.get, hv]
    exact ⟨ρ₁, le_refl _, hr, hrel, hp⟩

/-- The local is written where it is, on both sides. -/
theorem sim_set {v v' : Value} (hslot : slot ∈ slots) (hv : v.Related ρ v') :
    Exec.Sim promotion ρ (promotion.Ready slots d) (onDemand.set slot v) (inCells.set slot v')
      (fun _ _ _ => True) (promotion.Ready slots d) := by
  intro ρ₁ m m' hle hr hp
  obtain ⟨owner, f, f', rest, rest', he, hlt, hin⟩ := hr.executing_of_owned hp hslot
  have hk := he.top slot hlt
  rw [show onDemand.set slot v m = _ from setLocal_eq he.left slot v]
  generalize hc : f.cell? slot = c at hk
  generalize hc' : f'.cell? slot = c' at hk
  -- Either both have the local in a cell, or the first has it on the stack and the second in a cell
  -- that has no counterpart.
  cases hk with
  | shared hrel =>
    rw [inCells_set_eq he.right hc']
    exact sim_setCell stable_promotion hrel (hv.mono hle) ρ₁ m m' (le_refl _) hr hp
  | @own u c' _ hu howner _ =>
    have hcells (j : Nat) (hj : Unpaired ρ₁ m'.heap j) (hne : owner j ≠ f.base + slot) :
        Unpaired ρ₁ (m'.heap.setCell c' v') j ∧ owner j = owner j ∧
          (m'.heap.setCell c' v').cellAt ⟨j⟩ = m'.heap.cellAt ⟨j⟩ := by
      obtain ⟨hj', hsame⟩ := hj.setCell (fun heq => hne (heq ▸ howner)) v'
      exact ⟨hj', rfl, hsame⟩
    let s₁ : Stack := { m.stack with values := m.stack.values.setIfInBounds (f.base + slot) v }
    have hsize : s₁.values.size = m.stack.values.size := Array.size_setIfInBounds
    have hrel := he.update hr hlt (le_refl _) f.promoted f'.promoted s₁ rfl hsize
      (fun i hi => Array.getElem?_setIfInBounds_ne hi.symm) (hr.heap.setUnpaired hu v') hcells
      (fun _ _ => rfl) (fun _ _ => rfl) ?_
    · rw [inCells_set_eq he.right hc']
      dsimp only
      rw [stackSet_eq hin, Machine.eq_of_frames he.left, Machine.eq_of_frames he.right]
      exact ⟨ρ₁, le_refl _, hrel, trivial, he.outline_update s₁ hsize ▸ hp⟩
    · rw [show ({ f with promoted := f.promoted } : Frame).cell? slot = none from hc,
        show ({ f' with promoted := f'.promoted } : Frame).cell? slot = some c' from hc']
      refine .own (Array.getElem?_setIfInBounds_self_of_lt hin) ⟨?_, hu.free⟩ howner ?_
      · exact (Heap.sets_setCell m'.heap c' v').count _ ▸ hu.lt
      · have hlt' : c'.index < m'.heap.cells.size := hu.lt
        rw [Heap.cellAt_setCell, if_pos ⟨rfl, hlt'⟩]
        exact hv.mono hle

/-- On one side the local goes back to its slot, and on the other it gets a new cell that is not
paired. -/
theorem sim_define {v v' : Value} (hslot : slot ∈ slots) (hv : v.Related ρ v') :
    Exec.Sim promotion ρ (promotion.Ready slots d) (onDemand.define slot v)
      (inCells.define slot v') (fun _ _ _ => True) (promotion.Ready slots d) := by
  intro ρ₁ m m' hle hr hp
  obtain ⟨owner, f, f', rest, rest', he, hlt, hin⟩ := hr.executing_of_owned hp hslot
  -- The second machine takes a new cell for the slot, where the first goes back to the stack.
  let owner' (j : Nat) : Nat := if j = m'.heap.count .cell then f.base + slot else owner j
  have hnew : owner' (m'.heap.count .cell) = f.base + slot := if_pos rfl
  have hcells (j : Nat) (hj : Unpaired ρ₁ m'.heap j) (_ : owner j ≠ f.base + slot) :
      Unpaired ρ₁ (m'.heap.addCell v').2 j ∧ owner' j = owner j ∧
        (m'.heap.addCell v').2.cellAt ⟨j⟩ = m'.heap.cellAt ⟨j⟩ := by
    obtain ⟨hj', hsame⟩ := hj.addCell v'
    exact ⟨hj', if_neg (Nat.ne_of_lt hj.lt), hsame⟩
  let s₁ : Stack := { m.stack with values := m.stack.values.setIfInBounds (f.base + slot) v }
  have hsize : s₁.values.size = m.stack.values.size := Array.size_setIfInBounds
  have hcell (u : Nat) : (f.unbind slot).cell? u = if u = slot then none else f.cell? u :=
    f.cell?_unbind slot u
  have hcell' (u : Nat) : ({ f' with promoted :=
      (slot, ⟨m'.heap.count .cell⟩) :: (f'.unbind slot).promoted } : Frame).cell? u =
        if u = slot then some ⟨m'.heap.count .cell⟩ else f'.cell? u := by
    have hrest : ({ f' with promoted := (f'.unbind slot).promoted } : Frame).cell? u =
        if u = slot then none else f'.cell? u := f'.cell?_unbind slot u
    rw [Frame.cell?_cons, hrest]
    split <;> rfl
  have hrel := he.update hr hlt (le_refl _) (f.unbind slot).promoted
    ((slot, ⟨m'.heap.count .cell⟩) :: (f'.unbind slot).promoted) s₁ rfl hsize
    (fun i hi => Array.getElem?_setIfInBounds_ne hi.symm) (hr.heap.addRight v') hcells
    (fun u hu => (hcell u).trans (if_neg hu)) (fun u hu => (hcell' u).trans (if_neg hu)) ?_
  · rw [show onDemand.define slot v m = _ from defineLocal_eq he.left hin v,
      inCells_define_eq he.right]
    exact ⟨ρ₁, le_refl _, hrel, trivial, he.outline_update s₁ hsize ▸ hp⟩
  · rw [show ({ f with promoted := (f.unbind slot).promoted } : Frame).cell? slot = none from
      (hcell slot).trans (if_pos rfl), (hcell' slot).trans (if_pos rfl)]
    refine .own (Array.getElem?_setIfInBounds_self_of_lt hin) ⟨?_, ?_⟩ hnew ?_
    · exact (Heap.adds_addCell m'.heap v').lt
    · exact fun a hrel => Nat.lt_irrefl _ (hr.heap.bounds hrel).2
    · rw [Heap.cellAt_addCell, if_pos (show m'.heap.count .cell = m'.heap.cells.size from rfl)]
      exact hv.mono hle

/-- The new cell on one side is paired with the old one on the other. -/
theorem sim_capture (hslot : slot ∈ slots) :
    Exec.Sim promotion ρ (promotion.Ready slots d) (onDemand.capture slot) (inCells.capture slot)
      (fun ρ c c' => ρ.rel .cell c.index c'.index) (promotion.Ready slots d) := by
  intro ρ₁ m m' hle hr hp
  obtain ⟨owner, f, f', rest, rest', he, hlt, hin⟩ := hr.executing_of_owned hp hslot
  obtain ⟨u, hu⟩ : ∃ u, m.stack.values[f.base + slot]? = some u :=
    ⟨_, Array.getElem?_eq_getElem hin⟩
  have hk := he.top slot hlt
  rw [show onDemand.capture slot m = _ from captureLocal_eq he.left hr.link.budget hu]
  generalize hc : f.cell? slot = c at hk
  generalize hc' : f'.cell? slot = c' at hk
  cases hk with
  | shared hrel =>
    rw [show inCells.capture slot m' = _ from cellOf_eq he.right hc']
    exact ⟨ρ₁, le_refl _, hr, hrel, hp⟩
  | @own v c' hv hunpaired howner hrel =>
    obtain rfl : v = u := Option.some.inj (hv.symm.trans hu)
    -- The cell that is made now stands for the one that has been there from the beginning.
    have hna (b : Nat) : ¬ ρ₁.rel .cell (m.heap.count .cell) b := fun h =>
      Nat.lt_irrefl _ (hr.heap.bounds h).1
    have hle' : ρ₁ ≤ ρ₁.pair .cell (m.heap.count .cell) c'.index hna hunpaired.free :=
      Renaming.le_pair
    have hheap : Heap.Related (ρ₁.pair .cell (m.heap.count .cell) c'.index hna hunpaired.free)
        (m.heap.addCell v).2 m'.heap := by
      refine (hr.heap.addLeft v).pair (Heap.adds_addCell m.heap v).lt hunpaired.lt ?_
      have hnew : (m.heap.addCell v).2.cellAt ⟨m.heap.count .cell⟩ = v := by
        rw [Heap.cellAt_addCell, if_pos (show m.heap.count .cell = m.heap.cells.size from rfl)]
      rw [Heap.Matches, hnew]
      exact hrel.mono hle'
    have hcells (j : Nat) (hj : Unpaired ρ₁ m'.heap j) (hne : owner j ≠ f.base + slot) :
        Unpaired (ρ₁.pair .cell (m.heap.count .cell) c'.index hna hunpaired.free) m'.heap j ∧
          owner j = owner j ∧ m'.heap.cellAt ⟨j⟩ = m'.heap.cellAt ⟨j⟩ := by
      refine ⟨⟨hj.lt, ?_⟩, rfl, rfl⟩
      rintro a (hold | ⟨-, -, rfl⟩)
      · exact hj.free a hold
      · exact hne howner
    have hcell (u : Nat) := f.cell?_cons slot u ⟨m.heap.count .cell⟩ f.promoted
    have hrel := he.update hr hlt hle' ((slot, ⟨m.heap.count .cell⟩) :: f.promoted) f'.promoted
      m.stack rfl rfl (fun _ _ => rfl) hheap hcells (fun u hu => (hcell u).trans (if_neg hu))
      (fun _ _ => rfl) ?_
    · rw [show inCells.capture slot m' = _ from cellOf_eq he.right hc',
        Machine.eq_of_frames he.right]
      exact ⟨_, hle', hrel, Renaming.rel_pair, he.outline_update m.stack rfl ▸ hp⟩
    · rw [(hcell slot).trans (if_pos rfl),
        show ({ f' with promoted := f'.promoted } : Frame).cell? slot = some c' from hc']
      exact .shared Renaming.rel_pair

/-- Operands lie above the slots of all activations. -/
theorem promotion_above {m m' : Machine} {f : Frame} {rest : List Frame}
    (hr : promotion.Related ρ m m') (hf : m.frames = f :: rest)
    (hsize : f.base + f.function.numLocals < m.stack.size) (i : Nat)
    (hi : promotion.hidden m.outline.shape i) : i + 1 < m.stack.size := by
  obtain ⟨owner, f', rest', he⟩ := hr.executing hf
  rw [he.shape_eq] at hi
  rcases hi with hnil | hi
  · cases hnil
  · rcases LocalOf.cons_iff.1 hi with ⟨-, hlt⟩ | hi
    · exact Nat.lt_of_le_of_lt hlt hsize
    · have := he.apart i hi
      omega

/-- An activation ends, and what it had on the stack goes with it. -/
theorem related_drop {m m' : Machine} {f f' g g' : Frame} {rest rest' : List Frame}
    {owner : Nat → Nat} (hr : promotion.Related ρ m m')
    (he : Executing ρ owner m m' f f' (g :: rest) (g' :: rest')) :
    promotion.Related ρ
      { m with
        frames := g :: rest
        stack := { m.stack with values := m.stack.values.shrink (f.base - 1) } }
      { m' with
        frames := g' :: rest'
        stack := { m'.stack with values := m'.stack.values.shrink (f.base - 1) } } := by
  have hframes := hr.frames
  rw [he.left, he.right] at hframes
  have hapart := hr.link.apart
  rw [he.shape_eq, List.pairwise_cons] at hapart
  refine ⟨hr.constants, ⟨hr.stack.capacity, ?_, fun {i v v'} hi hv hv' => ?_⟩,
    (List.forall₂_cons.1 hframes).2, hr.maxFrames, hr.globals, hr.budget, hr.heap, hr.link.budget,
    hapart.2, fun i hi => ?_, owner, ?_⟩
  · simp [hr.stack.size]
  · simp only [getElem?_shrink] at hv hv'
    split at hv
    · rename_i hlt
      rw [if_pos hlt] at hv'
      refine hr.stack.values (fun hh => ?_) hv hv'
      rw [he.shape_eq] at hh
      rcases hh with hnil | hh
      · cases hnil
      · rcases LocalOf.cons_iff.1 hh with ⟨hge, -⟩ | hh
        · have : f.base ≤ i := hge
          omega
        · exact hi (.inr hh)
    · cases hv
  · have hlt := he.apart i hi
    have hsize := hr.link.inside i (he.shape_eq ▸ LocalOf.cons_iff.2 (.inr hi))
    have hsize' : i < m.stack.values.size := hsize
    show i < (m.stack.values.shrink (f.base - 1)).size
    rw [Array.size_shrink]
    omega
  · refine linked_imp he.below (le_refl _) (fun i hi => ?_) fun j hj _ => ⟨hj, rfl, rfl⟩
    have hlt := he.apart i hi
    rw [getElem?_shrink, if_pos (by omega)]

/-- The locals of the activation are gone on both sides. -/
theorem sim_leave {v v' : Value} (hv : v.Related ρ v') :
    Exec.Sim promotion ρ (promotion.Ready [] 0) (leave v) (leave v')
      (fun ρ => Option.Rel (Value.Related ρ)) (fun _ => True) := by
  intro ρ₁ m m' hle hr hp
  have hframes := hr.frames
  cases hf : m.frames with
  | nil =>
    rw [hf] at hframes
    have hf' : m'.frames = [] := List.forall₂_nil_left_iff.1 hframes
    rw [leave_of_no_frame hf, leave_of_no_frame hf']
    exact ⟨rfl, ρ₁, le_refl _, hr⟩
  | cons f rest =>
    obtain ⟨owner, f', rest', he⟩ := hr.executing hf
    rw [hf, he.right] at hframes
    obtain ⟨-, hrest⟩ := List.forall₂_cons.1 hframes
    rw [leave_eq hf, leave_eq he.right, he.base]
    have hapart := hr.link.apart
    rw [he.shape_eq, List.pairwise_cons] at hapart
    -- The return from the outermost activation ends the run, any other one goes on below it.
    cases hrest with
    | nil =>
      have hover : promotion.Related ρ₁ { m with frames := [] } { m' with frames := [] } := by
        refine ⟨hr.constants, ⟨hr.stack.capacity, hr.stack.size, fun hi => absurd (.inl rfl) hi⟩,
          .nil, hr.maxFrames, hr.globals, hr.budget, hr.heap, hr.link.budget, .nil, ?_, owner, .nil⟩
        rintro i ⟨p, hp, -⟩
        cases hp
      exact ⟨ρ₁, le_refl _, hover, .some (hv.mono hle), trivial⟩
    | @cons g g' rest rest' hg hrest =>
      have hbase : f.base ≠ 0 := (hapart.1 _ (.head _)).1
      have hdrop := related_drop hr he
      have hpush : Sim promotion ρ₁ (fun o => ∀ i, promotion.hidden o.shape i → i < o.size)
          (push v >>= fun _ => pure none) (push v' >>= fun _ => pure none)
          (fun ρ => Option.Rel (Value.Related ρ)) (fun _ => True) := by
        refine (sim_push stable_promotion (hv.mono hle) fun o ho => ⟨ho, trivial⟩).bind
          fun _ _ _ _ _ => sim_pure (fun _ _ => .none) fun _ hp => hp
      simp only [List.isEmpty_cons, Bool.false_eq_true, if_false, if_neg hbase]
      refine hpush ρ₁ _ _ (le_refl _) hdrop fun i hi => ?_
      rcases hi with hnil | hi
      · cases hnil
      · exact hdrop.link.inside i hi

/-! ## Starting an activation

The machine with cells gives each slot a cell in turn, and fills it with what the stack has there.
-/

/-- The lowest so many slots of an activation have been given new cells, in order. -/
structure Bound (n : Nat) (m : Machine) (f : Frame) (table : List (Nat × CellRef)) (h : Heap) :
    Prop where
  lookup : ∀ slot, slot < n → table.lookup slot = some ⟨m.heap.count .cell + slot⟩
  count : h.count .cell = m.heap.count .cell + n
  le : ∀ k, m.heap.count k ≤ h.count k
  same : ∀ k i, i < m.heap.count k → m.heap.Same h k i
  holds : ∀ slot, slot < n →
    m.stack.values[f.base + slot]? = some (h.cellAt ⟨m.heap.count .cell + slot⟩)

/-- The cells are new and hold what is in the slots. -/
theorem bindSlots_ok {m : Machine} {f : Frame} {rest : List Frame} (hf : m.frames = f :: rest)
    {n : Nat} (hn : f.base + n ≤ m.stack.size) :
    ∃ table h, bindSlots n m = .ok () { m with
        frames := { f with promoted := table } :: rest
        heap := h } ∧ Bound n m f table h := by
  induction n with
  | zero =>
    refine ⟨f.promoted, m.heap, ?_, ?_⟩
    · rw [show bindSlots 0 m = .ok () m from rfl]
      exact congrArg _ (Machine.eq_of_frames hf)
    · exact ⟨by simp, rfl, fun _ => Nat.le_refl _, fun _ _ _ => .refl .., by simp⟩
  | succ n ih =>
    obtain ⟨table, h, heq, hb⟩ := ih (by omega)
    have hlt : f.base + n < m.stack.values.size := by
      have : m.stack.size = m.stack.values.size := rfl
      omega
    obtain ⟨v, hv⟩ : ∃ v, m.stack.values[f.base + n]? = some v :=
      ⟨_, Array.getElem?_eq_getElem hlt⟩
    have hadd := Heap.adds_addCell h v
    have hcells : h.cells.size = m.heap.count .cell + n := hb.count
    refine ⟨(n, ⟨m.heap.count .cell + n⟩) :: table, (h.addCell v).2, ?_, ?_⟩
    · rw [bindSlots, bind_eq, heq]
      dsimp only
      rw [bind_eq, frame_eq rfl]
      dsimp only
      rw [bind_eq, onStack_eq, Stack.get, hv]
      dsimp only
      rw [bind_eq, onHeap_eq]
      show setFrame { f with promoted := (n, ⟨h.cells.size⟩) :: table } _ = _
      rw [setFrame_eq, hcells]
      rfl
    · refine ⟨fun slot hslot => ?_, ?_, fun k => Nat.le_trans (hb.le k) (hadd.le k),
        fun k i hi => ?_, fun slot hslot => ?_⟩
      · rw [lookup_cons_eq]
        rcases eq_or_ne slot n with rfl | hne
        · rw [if_pos rfl]
        · rw [if_neg hne]
          exact hb.lookup slot (by omega)
      · rw [hadd.count, if_pos rfl, hb.count]
        omega
      · exact (hb.same k i hi).trans (hadd.same k i (Nat.lt_of_lt_of_le hi (hb.le k)))
      · rw [Heap.cellAt_addCell, hcells]
        rcases eq_or_ne slot n with rfl | hne
        · rw [if_pos rfl]
          exact hv
        · rw [if_neg fun h => hne (Nat.add_left_cancel h)]
          exact hb.holds slot (by omega)

/-- An activation starts with its locals on the stack of the first machine, and in new cells of the
second. -/
theorem related_enter {m m' : Machine} {f f' : Function} {base : Nat}
    (hr : promotion.Related ρ m m') (hf : f.Related ρ f')
    (hstack : m.stack.Related (LocalOf m.outline.shape) ρ m'.stack)
    (hapart : ∀ p ∈ m.outline.shape, Apart (f, base) p)
    (hsize : base + f.numLocals ≤ m.stack.size) :
    ∃ m₁', bindSlots f'.numLocals { m' with frames := .start f' base :: m'.frames } = .ok () m₁' ∧
      promotion.Related ρ { m with frames := .start f base :: m.frames } m₁' := by
  have hlocals : f'.numLocals = f.numLocals := by rw [hf.eq]
  have hsize' : m'.stack.values.size = m.stack.values.size := hr.stack.size
  have hin (slot : Nat) (hslot : slot < f.numLocals) : base + slot < m.stack.values.size :=
    Nat.lt_of_lt_of_le (Nat.add_lt_add_left hslot _) hsize
  have hn : (Frame.start f' base).base + f.numLocals ≤
      ({ m' with frames := .start f' base :: m'.frames } : Machine).stack.size := by
    show base + f.numLocals ≤ m'.stack.values.size
    rw [hsize']
    exact hsize
  obtain ⟨table, h, heq, hb⟩ := bindSlots_ok rfl hn
  rw [hlocals]
  refine ⟨_, heq, hr.constants, ⟨hr.stack.capacity, hr.stack.size, ?_⟩,
    .cons ⟨hf, rfl, rfl⟩ hr.frames, hr.maxFrames, hr.globals, hr.budget, ?_, hr.link.budget,
    List.pairwise_cons.2 ⟨hapart, hr.link.apart⟩, fun i hi => ?_, ?_⟩
  · intro i v v' hi
    exact hstack.values fun hin => hi (.inr (LocalOf.cons_iff.2 (.inr hin)))
  · exact hr.heap.of_same (fun _ => Nat.le_refl _) hb.le fun hrel =>
      ⟨.refl .., hb.same _ _ (hr.heap.bounds hrel).2⟩
  · rcases LocalOf.cons_iff.1 hi with ⟨-, hlt⟩ | hi
    · exact Nat.lt_of_lt_of_le hlt hsize
    · exact hr.link.inside i hi
  · obtain ⟨owner, hlinked⟩ := hr.link.linked
    -- The new cells belong to the slots from `base` on, in order.
    let owner' (j : Nat) : Nat :=
      if j < m'.heap.count .cell then owner j else base + (j - m'.heap.count .cell)
    refine ⟨owner', .cons (fun slot hslot => ?_)
      (linked_imp hlinked (le_refl _) (fun _ _ => rfl) fun j hj _ => ?_)⟩
    · have hlt := hin slot hslot
      have hlt' : base + slot < m'.stack.values.size := hsize'.symm ▸ hlt
      have hget := Array.getElem?_eq_getElem hlt
      have hout : ¬ LocalOf m.outline.shape (base + slot) := fun hi => by
        have := hi.lt hapart
        omega
      have hholds := hb.holds slot hslot
      show Keeps ρ owner' m.stack h (base + slot) none (table.lookup slot)
      rw [hb.lookup slot hslot]
      refine .own hget ⟨?_, fun a hrel => ?_⟩ ?_ (hstack.values hout hget hholds)
      · rw [hb.count]
        exact Nat.add_lt_add_left hslot _
      · exact absurd (hr.heap.bounds hrel).2 (Nat.not_lt.2 (Nat.le_add_right ..))
      · show (if _ then _ else _) = _
        rw [if_neg (Nat.not_lt.2 (Nat.le_add_right ..)), Nat.add_sub_cancel_left]
    · exact ⟨⟨Nat.lt_of_lt_of_le hj.lt (hb.le _), hj.free⟩, if_pos hj.lt, hb.same .cell j hj.lt⟩

/-- Both machines start the activation, or both have no room for it. -/
theorem enter_alike {m m' : Machine} {f f' : Function} {base : Nat}
    (hr : promotion.Related ρ m m') (hf : f.Related ρ f')
    (hstack : m.stack.Related (LocalOf m.outline.shape) ρ m'.stack)
    (hapart : ∀ p ∈ m.outline.shape, Apart (f, base) p)
    (hsize : base + f.numLocals ≤ m.stack.size) :
    (∃ m₁ m₁', onDemand.enter (.start f base) m = .ok () m₁ ∧
        inCells.enter (.start f' base) m' = .ok () m₁' ∧ promotion.Related ρ m₁ m₁' ∧
        m₁.frames ≠ []) ∨
      ∃ e m₁ m₁', onDemand.enter (.start f base) m = .error e m₁ ∧
        inCells.enter (.start f' base) m' = .error e m₁' ∧ promotion.Related ρ m₁ m₁' := by
  have hdepth : m'.frames.length < m'.maxFrames ↔ m.frames.length < m.maxFrames := by
    rw [hr.frames.length_eq, hr.maxFrames]
  rw [show onDemand.enter (.start f base) = pushFrame (.start f base) from rfl,
    show inCells.enter (.start f' base) =
      (pushFrame (.start f' base) >>= fun _ => bindSlots f'.numLocals) from rfl,
    bind_eq, pushFrame_eq, pushFrame_eq]
  by_cases hroom : m.frames.length < m.maxFrames
  · rw [if_pos hroom, if_pos (hdepth.2 hroom)]
    obtain ⟨m₁', heq, hr₁⟩ := related_enter hr hf hstack hapart hsize
    dsimp only
    rw [heq]
    exact .inl ⟨_, m₁', rfl, rfl, hr₁, List.cons_ne_nil _ _⟩
  · rw [if_neg hroom, if_neg (mt hdepth.1 hroom)]
    exact .inr ⟨_, m, m', rfl, rfl, hr⟩

/-- Both start the activation with the same values in its locals. -/
theorem sim_enter {f f' : Function} {callee : Nat} {P : Outline → Prop} (hf : f.Related ρ f')
    (hP : ∀ o, P o → (∀ i, promotion.hidden o.shape i → i < callee) ∧
      callee + 1 + f.numLocals ≤ o.size) :
    Exec.Sim promotion ρ P (onDemand.enter (.start f (callee + 1)))
      (inCells.enter (.start f' (callee + 1))) (fun _ _ _ => True) (promotion.Ready [] 0) := by
  intro ρ₁ m m' hle hr hp
  obtain ⟨hclear, hsize⟩ := hP _ hp
  have hlocal (i : Nat) (hi : ¬ LocalOf m.outline.shape i) :
      ¬ promotion.hidden m.outline.shape i := by
    rintro (hnil | hi')
    · exact Nat.lt_irrefl _ (hclear callee (.inl hnil))
    · exact hi hi'
  have hstack : m.stack.Related (LocalOf m.outline.shape) ρ₁ m'.stack :=
    ⟨hr.stack.capacity, hr.stack.size, fun hi => hr.stack.values (hlocal _ hi)⟩
  have hapart (p : Function × Nat) (hp : p ∈ m.outline.shape) : Apart (f, callee + 1) p :=
    ⟨Nat.succ_ne_zero _, fun i hi => Nat.succ_lt_succ (hclear i (.inr ⟨p, hp, hi⟩))⟩
  obtain ⟨m₁, m₁', hx, hy, hr₁, hne⟩ | ⟨e, m₁, m₁', hx, hy, hr₁⟩ :=
    enter_alike hr (hf.mono hle) hstack hapart hsize
  · rw [hx, hy]
    refine ⟨ρ₁, le_refl _, hr₁, trivial, fun i hi => ?_, by simp⟩
    rcases hi with hnil | hi
    · exact absurd (List.map_eq_nil_iff.1 hnil) hne
    · exact hr₁.link.inside i hi
  · rw [hx, hy]
    exact ⟨rfl, ρ₁, le_refl _, hr₁⟩

/-- With this, all that has been proved of instructions of related machines holds of the two. -/
theorem lawful : promotion.Lawful onDemand inCells where
  stable := stable_promotion
  get := sim_get
  set := sim_set
  define := sim_define
  capture := sim_capture
  enter := sim_enter
  leave := sim_leave
  above := promotion_above

end Locals

end ScriptVM
