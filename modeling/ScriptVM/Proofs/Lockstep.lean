import ScriptVM.Proofs.Simulation

/-!
# Instructions of related machines

Every instruction does alike on related machines, given that the operations on locals do. What an
instruction takes from the stack has to be where the machines agree, and the locals that it names
have to be locals. From one instruction it goes to a step, and from a step to a run.
-/

namespace ScriptVM

/-! ## What an instruction concerns

Machines that keep their locals in different places agree on operands but not on all stack slots. So
it must be known of an instruction that what it takes from the stack are operands.
-/

/-- The local slots that an instruction names: its operand, or what a closure captures. -/
def Instruction.locals (i : Instruction) (constants : Array Value) : List Nat :=
  match i.op with
  | .getLocal | .setLocal | .defineLocal => [i.first]
  | .closure =>
    match constants[i.first]? with
    | some (.function f) => f.function.captures.filterMap fun
      | .ofLocal slot => some slot
      | .ofFree _ => none
    | _ => []
  | _ => []

/-- What the instruction concerns, agrees or is a local. -/
def Linkage.Fits (L : Linkage) (i : Instruction) (o : Outline) : Prop :=
  L.Ready (i.locals o.constants) (i.takes o.size) o

/-- The operations on locals do alike on machines related by `L`. -/
structure Linkage.Lawful (L : Linkage) (l l' : Locals) : Prop where
  stable : L.Stable
  get : ∀ {ρ : Renaming} {slots : List Nat} {d slot : Nat}, slot ∈ slots →
    Exec.Sim L ρ (L.Ready slots d) (l.get slot) (l'.get slot) Value.Related (L.Ready slots d)
  set : ∀ {ρ : Renaming} {slots : List Nat} {d slot : Nat} {v v' : Value}, slot ∈ slots →
    v.Related ρ v' → Exec.Sim L ρ (L.Ready slots d) (l.set slot v) (l'.set slot v')
      (fun _ _ _ => True) (L.Ready slots d)
  define : ∀ {ρ : Renaming} {slots : List Nat} {d slot : Nat} {v v' : Value}, slot ∈ slots →
    v.Related ρ v' → Exec.Sim L ρ (L.Ready slots d) (l.define slot v) (l'.define slot v')
      (fun _ _ _ => True) (L.Ready slots d)
  capture : ∀ {ρ : Renaming} {slots : List Nat} {d slot : Nat}, slot ∈ slots →
    Exec.Sim L ρ (L.Ready slots d) (l.capture slot) (l'.capture slot)
      (fun ρ c c' => ρ.rel .cell c.index c'.index) (L.Ready slots d)
  enter : ∀ {ρ : Renaming} {f f' : Function} {callee : Nat} {P : Outline → Prop}, f.Related ρ f' →
    (∀ o, P o → (∀ i, L.hidden o.shape i → i < callee) ∧ callee + 1 + f.numLocals ≤ o.size) →
    Exec.Sim L ρ P (l.enter (.start f (callee + 1))) (l'.enter (.start f' (callee + 1)))
      (fun _ _ _ => True) (L.Ready [] 0)
  leave : ∀ {ρ : Renaming} {v v' : Value}, v.Related ρ v' →
    Exec.Sim L ρ (L.Ready [] 0) (Exec.leave v) (Exec.leave v')
      (fun ρ => Option.Rel (Value.Related ρ)) (fun _ => True)
  /-- What an activation has above its locals agrees. -/
  above : ∀ {ρ : Renaming} {m m' : Machine} {f : Frame} {rest : List Frame}, L.Related ρ m m' →
    m.frames = f :: rest → f.base + f.function.numLocals < m.stack.size →
    ∀ i, L.hidden m.outline.shape i → i + 1 < m.stack.size

theorem Linkage.Ready.weaken {L : Linkage} {slots : List Nat} {d : Nat} {o : Outline}
    (h : L.Ready slots d o) : L.Ready [] 0 o :=
  ⟨fun i hi => Nat.lt_of_le_of_lt (Nat.le_add_right ..) (h.clear i hi), by simp⟩

/-- When there are as many values as are asked for, these agree. -/
theorem Linkage.Ready.of_takes {L : Linkage} {slots : List Nat} {n k : Nat} {o : Outline}
    (h : L.Ready slots (if n ≤ o.size then n else k) o) (hn : n ≤ o.size) : L.Ready slots n o := by
  rwa [if_pos hn] at h

/-- As many values as are needed agree, if there are as many. -/
structure Linkage.Supplied (L : Linkage) (n : Nat) (o : Outline) : Prop where
  ready : L.Ready [] 0 o
  supplied : n ≤ o.size → L.Ready [] n o

namespace Exec

variable {α β γ δ : Type} {L : Linkage} {ρ : Renaming} {P P' : Outline → Prop}
  {Q : Renaming → α → β → Prop} {R : Renaming → γ → δ → Prop} {slots : List Nat} {d : Nat}

/-- An instruction that goes on answers with nothing on either side. -/
theorem Sim.goOn {x y : Exec Unit} (h : Sim L ρ P x y (fun _ _ _ => True) (L.Ready [] 0)) :
    Sim L ρ P (goOn x) (goOn y) (fun ρ => Option.Rel (Value.Related ρ)) (fun _ => True) :=
  Sim.bind h fun _ _ _ _ _ => sim_pure (fun _ _ => .none) fun _ _ => trivial

theorem Sim.weaken {x : Exec α} {y : Exec β} (h : Sim L ρ P x y Q (L.Ready slots d)) :
    Sim L ρ P x y Q (L.Ready [] 0) := h.post fun _ ho => ho.weaken

/-- A constant is the one of the outline. -/
theorem Sim.of_constant {index : Nat} {k : Value → Exec γ} {l : Value → Exec δ}
    (h : ∀ ρ₁ v v', ρ ≤ ρ₁ → v.Related ρ₁ v' →
      Sim L ρ₁ (fun o => o.constants[index]? = some v ∧ P o) (k v) (l v') R P') :
    Sim L ρ P (constant index >>= k) (constant index >>= l) R P' := by
  intro ρ₁ m m' hle hr hp
  have hrel := Heap.getElem?_related hr.constants index
  have hsize : m'.constants.size = m.constants.size := by
    simpa using hr.constants.length_eq.symm
  rw [bind_eq, bind_eq, constant_eq, constant_eq, hsize]
  simp only [Array.getElem?_toList] at hrel
  cases ha : m.constants[index]? with
  | none =>
    rw [ha] at hrel
    cases hb : m'.constants[index]? with
    | none => exact ⟨rfl, ρ₁, le_refl _, hr⟩
    | some v' =>
      rw [hb] at hrel
      cases hrel
  | some v =>
    rw [ha] at hrel
    cases hb : m'.constants[index]? with
    | none =>
      rw [hb] at hrel
      cases hrel
    | some v' =>
      rw [hb] at hrel
      cases hrel with
      | some hv => exact h ρ₁ v v' hle hv _ _ _ (le_refl _) hr ⟨ha, hp⟩

/-! ## Captured variables and closures

Captured variables are in cells on both sides, and cells are paired. So they need not be looked for
in different places.
-/

theorem sim_freeCell (index : Nat) :
    Sim L ρ P (freeCell index) (freeCell index) (fun ρ c c' => ρ.rel .cell c.index c'.index) P := by
  refine Sim.of_frame fun ρ₁ f f' hle hf => ?_
  refine (sim_ofExcept ?_).post fun _ hp => hp.2
  have hcells := hf.function.cells
  have hget : ∀ {cs ds : List CellRef},
      List.Forall₂ (fun c d => ρ₁.rel .cell c.index d.index) cs ds → ∀ i : Nat,
      Option.Rel (fun c d : CellRef => ρ₁.rel .cell c.index d.index) cs[i]? ds[i]? := by
    intro cs ds h
    induction h with
    | nil => exact fun _ => .none
    | cons h _ ih =>
      intro i
      cases i with
      | zero => exact .some h
      | succ i => simpa using ih i
  have hrel := hget hcells index
  unfold Function.free?
  rw [hcells.length_eq]
  generalize f.function.cells[index]? = a at hrel
  generalize f'.function.cells[index]? = b at hrel
  cases hrel with
  | none => exact .error _
  | some h => exact .ok fun ρ₂ hle₁ => hle₁ _ _ _ h

theorem sim_cellAt {c c' : CellRef} (hc : ρ.rel .cell c.index c'.index) :
    Sim L ρ P (do return (← get).heap.cellAt c) (do return (← get).heap.cellAt c')
      Value.Related P := by
  refine sim_get.bind fun ρ₁ m m' hle hr => sim_pure (fun ρ₂ hle₁ => ?_) fun _ hp => hp
  have hcell : (m.heap.cellAt c).Related ρ₁ (m'.heap.cellAt c') :=
    hr.heap.contents (hle _ _ _ hc)
  exact hcell.mono hle₁

/-- Paired cells hold related values. -/
theorem sim_getFree (index : Nat) : Sim L ρ P (getFree index) (getFree index) Value.Related P :=
  (sim_freeCell index).bind fun _ _ _ _ hc => sim_cellAt hc

/-- Paired cells are written with related values. -/
theorem sim_setCell (hL : L.Stable) {c c' : CellRef} {v v' : Value}
    (hc : ρ.rel .cell c.index c'.index) (hv : v.Related ρ v') :
    Sim L ρ P (onHeap (modify fun h => h.setCell c v)) (onHeap (modify fun h => h.setCell c' v'))
      (fun _ _ _ => True) P :=
  sim_onHeap hL (fun _ hle => HeapM.sim_setCell (hle _ _ _ hc) (hv.mono hle)) fun _ _ _ _ => trivial

variable {l l' : Locals} (hL : L.Lawful l l')
include hL

theorem sim_setFree (index : Nat) {v v' : Value} (hv : v.Related ρ v') :
    Sim L ρ P (setFree index v) (setFree index v') (fun _ _ _ => True) P :=
  (sim_freeCell index).bind fun _ _ _ hle hc => sim_setCell hL.stable hc (hv.mono hle)

/-- Each capture is of a local that both machines know, or of a captured variable. -/
theorem sim_captureAll {cs : List Capture} (hcs : ∀ slot, .ofLocal slot ∈ cs → slot ∈ slots) :
    Sim L ρ (L.Ready slots d) (l.captureAll cs) (l'.captureAll cs)
      (fun ρ => List.Forall₂ fun c c' => ρ.rel .cell c.index c'.index) (L.Ready slots d) := by
  induction cs generalizing ρ with
  | nil => exact sim_pure (fun _ _ => .nil) fun _ hp => hp
  | cons c cs ih =>
    have hc : Sim L ρ (L.Ready slots d) (l.captureVariable c) (l'.captureVariable c)
        (fun ρ c c' => ρ.rel .cell c.index c'.index) (L.Ready slots d) := by
      cases c with
      | ofLocal slot => exact hL.capture (hcs slot (.head _))
      | ofFree index => exact sim_freeCell index
    refine hc.bind fun ρ₁ a b hle hab => ?_
    refine (ih fun slot hs => hcs slot (.tail _ hs)).bind fun ρ₂ as bs hle₁ hs => ?_
    refine sim_pure (fun ρ₃ hle₂ => .cons ?_ (hs.imp fun _ _ h => hle₂ _ _ _ h)) fun _ hp => hp
    exact (hle₁.trans hle₂) _ _ _ hab

/-- The new closures are paired, with paired cells. -/
theorem sim_makeClosure {index : Nat}
    (hslots : ∀ o, P o → L.Ready slots d o ∧ ∀ f : FunctionObject,
      o.constants[index]? = some (.function f) →
      ∀ slot, .ofLocal slot ∈ f.function.captures → slot ∈ slots) :
    Sim L ρ P (l.makeClosure index) (l'.makeClosure index) Value.Related (L.Ready slots d) := by
  refine Sim.of_constant fun ρ₁ v v' hle hv => Sim.of_outline fun o ho => ?_
  obtain ⟨hready, hcs⟩ := hslots o ho.2
  cases hv with
  | @function f f' hid hf =>
    have hall : Sim L ρ₁ (fun o' => o' = o) (l.captureAll f.function.captures)
        (l'.captureAll f'.function.captures)
        (fun ρ => List.Forall₂ fun c c' => ρ.rel .cell c.index c'.index) (L.Ready slots d) := by
      rw [show f'.function.captures = f.function.captures by rw [hf.eq]]
      exact (sim_captureAll hL (hcs f ho.1)).pre fun o' ho' => ho' ▸ hready
    refine hall.bind fun ρ₂ cs cs' hle₁ hcells => ?_
    refine (sim_charge hL.stable).bind fun ρ₃ _ _ hle₂ _ => ?_
    have hfun : Function.Related ρ₃ { f.function with cells := cs }
        { f'.function with cells := cs' } := by
      refine ⟨?_, hcells.imp fun _ _ h => hle₂ _ _ _ h⟩
      exact congrArg (fun g : Function => { g with cells := cs' }) hf.eq
    refine (sim_onHeap hL.stable (Q := fun ρ a b => (Value.function a).Related ρ (.function b))
      (fun w hw => HeapM.sim_newFunction (hfun.mono hw)) fun _ _ _ h => h).bind
      fun ρ₄ a b _ hab => sim_pure (fun _ h => hab.mono h) fun _ hp => hp
  | _ => exact sim_throw _

/-! ## Operators and containers

Operands agree, so operators are applied to related values. What they make is related, and one more
operand that agrees.
-/

theorem sim_applyBinary (op : Opcode) :
    Sim L ρ (L.Ready slots 2) (applyBinary op) (applyBinary op) (fun _ _ _ => True)
      (L.Ready slots 1) := by
  refine (sim_popReady hL.stable).bind fun ρ₁ u u' _ hu => ?_
  refine (sim_popReady hL.stable).bind fun ρ₂ v v' hle hv => ?_
  have hbinary := sim_onHeapValue (P := L.Ready slots 0) hL.stable fun w hw =>
    HeapM.sim_binary op (hv.mono hw) ((hu.mono hle).mono hw)
  refine hbinary.bind fun ρ₃ r r' _ hr => (sim_charge hL.stable).bind fun ρ₄ _ _ hle₁ _ => ?_
  exact sim_pushReady hL.stable (hr.mono hle₁)

theorem sim_applyUnary (op : Opcode) :
    Sim L ρ (L.Ready slots 1) (applyUnary op) (applyUnary op) (fun _ _ _ => True)
      (L.Ready slots 1) := by
  refine (sim_popReady hL.stable).bind fun ρ₁ v v' _ hv => ?_
  have hunary : Sim L ρ₁ (L.Ready slots 0) (ofExcept (Operator.unary op v))
      (ofExcept (Operator.unary op v')) Value.Related (L.Ready slots 0) :=
    sim_ofExcept ((Operator.unary_related op hv).imp fun _ _ h _ hle => h.mono hle)
  refine hunary.bind fun ρ₂ r r' _ hr => (sim_charge hL.stable).bind fun ρ₃ _ _ hle _ => ?_
  exact sim_pushReady hL.stable (hr.mono hle)

theorem sim_applyOrder (op : Opcode) :
    Sim L ρ (L.Ready slots 2) (applyOrder op) (applyOrder op) (fun _ _ _ => True)
      (L.Ready slots 1) := by
  refine (sim_popReady hL.stable).bind fun ρ₁ u u' _ hu => ?_
  refine (sim_popReady hL.stable).bind fun ρ₂ v v' hle hv => ?_
  refine (sim_ofExcept_eq (Operator.order_related op hv (hu.mono hle))).bind
    fun ρ₃ b b' _ heq => ?_
  exact heq ▸ sim_pushReady hL.stable (.bool b)

/-- Equality does not see which objects there are, so the answers are the same. -/
theorem sim_popEqual :
    Sim L ρ (L.Ready slots 2) popEqual popEqual (fun _ a b => a = b) (L.Ready slots 0) := by
  refine (sim_popReady hL.stable).bind fun ρ₁ u u' _ hu => ?_
  refine (sim_popReady hL.stable).bind fun ρ₂ v v' hle hv => ?_
  refine sim_get.bind fun ρ₃ m m' hle₁ hr => sim_pure (fun _ _ => ?_) fun _ hp => hp
  exact Heap.equal_related hr.heap (hv.mono hle₁) ((hu.mono hle).mono hle₁)

/-- The elements have to agree only if there are as many. -/
theorem sim_makeArray {count : Nat} (hP : ∀ o, P o → count ≤ o.size → L.Ready slots count o) :
    Sim L ρ P (makeArray count) (makeArray count) (fun _ _ _ => True) (L.Ready slots 1) := by
  refine (sim_popManyReady (d := 0) hL.stable count hP).bind fun ρ₁ vs vs' _ hvs => ?_
  refine (sim_charge hL.stable).bind fun ρ₂ _ _ hle _ => ?_
  have hnew := sim_onHeapValue (P := L.Ready slots 0) hL.stable fun w hw =>
    HeapM.sim_newArrayOf (G := World.Grows) ((Values.Related.mono hvs hle).mono hw)
  exact hnew.bind fun ρ₃ v v' _ hv => sim_pushReady hL.stable hv

omit hL in
/-- Related keys are equal, so the same pairs are refused, and the same overwrite others. -/
theorem fieldsOf_related {vs vs' : List Value} (hvs : Values.Related ρ vs vs')
    {fs fs' : FieldMap Value} (hfs : Fields.Related ρ fs.entries fs'.entries) :
    Alike (fun a b : FieldMap Value => Fields.Related ρ a.entries b.entries) (fieldsOf fs vs)
      (fieldsOf fs' vs') := by
  induction fs, vs using fieldsOf.induct generalizing vs' fs' with
  | case1 fs k v rest ih =>
    obtain ⟨_, _, hk, hrest, rfl⟩ := List.forall₂_cons_left_iff.1 hvs
    obtain ⟨v', rest', hv, hrest', rfl⟩ := List.forall₂_cons_left_iff.1 hrest
    cases hk
    exact ih hrest' (Heap.insertEntry_related hfs k hv)
  | case2 fs key v rest hkey =>
    obtain ⟨key', _, hk, hrest, rfl⟩ := List.forall₂_cons_left_iff.1 hvs
    obtain ⟨v', rest', hv, -, rfl⟩ := List.forall₂_cons_left_iff.1 hrest
    rw [fieldsOf.eq_2 fs key v rest hkey, fieldsOf.eq_2 fs' key' v' rest', hk.typeName_eq]
    · exact .error _
    · rintro k rfl
      cases hk
      exact hkey k rfl
  | case3 fs vs hstring hpair =>
    cases hvs with
    | nil => exact .ok hfs
    | cons hk hrest =>
      cases hrest with
      | nil => cases hk <;> exact .ok hfs
      | cons => exact absurd rfl (hpair _ _ _)

theorem sim_makeMap {pairs : Nat}
    (hP : ∀ o, P o → pairs * 2 ≤ o.size → L.Ready slots (pairs * 2) o) :
    Sim L ρ P (makeMap pairs) (makeMap pairs) (fun _ _ _ => True) (L.Ready slots 1) := by
  refine (sim_popManyReady (d := 0) hL.stable _ hP).bind fun ρ₁ vs vs' _ hvs => ?_
  have hfields : Sim L ρ₁ (L.Ready slots 0) (ofExcept (fieldsOf FieldMap.empty vs))
      (ofExcept (fieldsOf FieldMap.empty vs'))
      (fun ρ fs fs' => Fields.Related ρ fs.entries fs'.entries) (L.Ready slots 0) := by
    have := fieldsOf_related hvs (show Fields.Related ρ₁ FieldMap.empty.entries
      FieldMap.empty.entries from .nil)
    exact sim_ofExcept (this.imp fun _ _ h _ hle => h.mono hle)
  refine hfields.bind fun ρ₂ fs fs' _ hfs => (sim_charge hL.stable).bind fun ρ₃ _ _ hle _ => ?_
  have hnew := sim_onHeapValue (P := L.Ready slots 0) hL.stable fun w hw =>
    HeapM.sim_newMap (G := World.Grows) (w := w) ((Fields.Related.mono hfs hle).mono hw)
  exact hnew.bind fun ρ₄ v v' _ hv => sim_pushReady hL.stable hv

theorem sim_makeError :
    Sim L ρ (L.Ready slots 1) makeError makeError (fun _ _ _ => True) (L.Ready slots 1) := by
  refine (sim_popReady hL.stable).bind fun ρ₁ v v' _ hv => ?_
  refine (sim_charge hL.stable).bind fun ρ₂ _ _ hle _ => ?_
  exact sim_pushReady hL.stable (.error (hv.mono hle))

theorem sim_readIndex :
    Sim L ρ (L.Ready slots 2) readIndex readIndex (fun _ _ _ => True) (L.Ready slots 1) := by
  refine (sim_popReady hL.stable).bind fun ρ₁ u u' _ hu => ?_
  refine (sim_popReady hL.stable).bind fun ρ₂ v v' hle hv => ?_
  refine sim_get.bind fun ρ₃ m m' hle₁ hr => ?_
  have hindex : Sim L ρ₃ (L.Ready slots 0) (ofExcept (m.heap.index v u))
      (ofExcept (m'.heap.index v' u')) Value.Related (L.Ready slots 0) := by
    have := Heap.index_related hr.heap (hv.mono hle₁) ((hu.mono hle).mono hle₁)
    exact sim_ofExcept (this.imp fun _ _ h _ hle => h.mono hle)
  exact hindex.bind fun ρ₄ r r' _ hr => sim_pushReady hL.stable hr

theorem sim_readSlice :
    Sim L ρ (L.Ready slots 3) readSlice readSlice (fun _ _ _ => True) (L.Ready slots 1) := by
  refine (sim_popReady hL.stable).bind fun ρ₁ t t' _ ht => ?_
  refine (sim_popReady hL.stable).bind fun ρ₂ u u' hle hu => ?_
  refine (sim_popReady hL.stable).bind fun ρ₃ v v' hle₁ hv => ?_
  have hslice := sim_onHeapValue (P := L.Ready slots 0) hL.stable fun w hw =>
    HeapM.sim_slice (G := World.Grows) (hv.mono hw) ((hu.mono hle₁).mono hw)
      ((ht.mono (hle.trans hle₁)).mono hw)
  refine hslice.bind fun ρ₄ r r' _ hr => (sim_charge hL.stable).bind fun ρ₅ _ _ hle₂ _ => ?_
  exact sim_pushReady hL.stable (hr.mono hle₂)

theorem sim_writeIndex :
    Sim L ρ (L.Ready slots 3) writeIndex writeIndex (fun _ _ _ => True) (L.Ready slots 0) := by
  refine (sim_popReady hL.stable).bind fun ρ₁ t t' _ ht => ?_
  refine (sim_popReady hL.stable).bind fun ρ₂ u u' hle hu => ?_
  refine (sim_popReady hL.stable).bind fun ρ₃ v v' hle₁ hv => ?_
  refine sim_onHeap (R := fun _ _ _ => True) hL.stable (fun w hw => ?_) fun _ _ _ _ => trivial
  exact HeapM.sim_assign (hv.mono hw) ((hu.mono hle₁).mono hw) ((ht.mono (hle.trans hle₁)).mono hw)

/-! ## Jumps -/

theorem sim_jumpFalsy (target : Nat) :
    Sim L ρ (L.Ready slots 1) (jumpFalsy target) (jumpFalsy target) (fun _ _ _ => True)
      (L.Ready slots 0) := by
  refine (sim_popReady hL.stable).bind fun ρ₁ v v' _ hv => ?_
  refine (sim_isFalsy hv).bind fun ρ₂ b b' _ heq => ?_
  subst heq
  cases b with
  | true => exact sim_jump hL.stable target
  | false => exact sim_pure (fun _ _ => trivial) fun _ hp => hp

/-- Conditions are truth values of related values, and so both sides jump or neither does. -/
theorem sim_andJump (target : Nat) :
    Sim L ρ (L.Ready slots 1) (andJump target) (andJump target) (fun _ _ _ => True)
      (L.Ready [] 0) := by
  refine (sim_topReady hL.stable).bind fun ρ₁ v v' _ hv => ?_
  refine (sim_isFalsy hv).bind fun ρ₂ b b' _ heq => ?_
  subst heq
  cases b with
  | true => exact (sim_jump hL.stable target).weaken
  | false => exact (sim_popReady hL.stable).discard.weaken

theorem sim_orJump (target : Nat) :
    Sim L ρ (L.Ready slots 1) (orJump target) (orJump target) (fun _ _ _ => True)
      (L.Ready [] 0) := by
  refine (sim_topReady hL.stable).bind fun ρ₁ v v' _ hv => ?_
  refine (sim_isFalsy hv).bind fun ρ₂ b b' _ heq => ?_
  subst heq
  cases b with
  | true => exact (sim_popReady hL.stable).discard.weaken
  | false => exact (sim_jump hL.stable target).weaken

/-! ## Calls

The callee and its arguments agree. What becomes of the arguments as locals of the new activation is
up to the operations on locals.
-/

theorem sim_pushAbove {floor top : Nat} {v v' : Value} (hv : v.Related ρ v') :
    Sim L ρ (L.Above floor top) (push v) (push v') (fun _ _ _ => True)
      (L.Above floor (top + 1)) := by
  refine sim_push hL.stable hv fun o ho => ⟨fun i hi => ?_, ho.clear, ?_, ?_⟩
  · exact ho.size ▸ Nat.lt_of_lt_of_le (ho.clear i hi) ho.le
  · exact congrArg (· + 1) ho.size
  · exact Nat.le_succ_of_le ho.le

/-- The function's own checks are of its numbers, which related functions share. -/
theorem sim_enterFunction {f f' : Function} (hf : f.Related ρ f') (callee argc : Nat) :
    Sim L ρ (L.Above callee (callee + 1 + argc)) (l.enterFunction f callee argc)
      (l'.enterFunction f' callee argc) (fun _ _ _ => True) (L.Ready [] 0) := by
  have harity : f'.checkArity argc = f.checkArity argc := by rw [hf.eq]; rfl
  have hvariadic : f'.variadic = f.variadic := by rw [hf.eq]
  have hparams : f'.numParams = f.numParams := by rw [hf.eq]
  have hlocals : f'.numLocals = f.numLocals := by rw [hf.eq]
  have hlast (ρ₁ : Renaming) (hle : ρ ≤ ρ₁) (top : Nat) (htop : callee + 1 ≤ top) :
      Sim L ρ₁ (L.Above callee top)
        (do
          pushUndefined (f.numLocals - ((← stackSize) - (callee + 1)))
          l.enter (.start f (callee + 1)))
        (do
          pushUndefined (f'.numLocals - ((← stackSize) - (callee + 1)))
          l'.enter (.start f' (callee + 1))) (fun _ _ _ => True) (L.Ready [] 0) := by
    refine Sim.of_stackSize fun n => Sim.of_outline fun o ho => ?_
    obtain rfl : n = top := ho.1.symm.trans ho.2.size
    rw [hlocals]
    refine ((sim_pushUndefined hL.stable _).pre fun o' ho' => ho' ▸ ho.2).bind
      fun ρ₂ _ _ hle₁ _ => ?_
    refine hL.enter (hf.mono (hle.trans hle₁)) fun o' ho' => ⟨ho'.clear, ?_⟩
    have := ho'.size
    omega
  unfold Locals.enterFunction
  rw [harity, hvariadic, hparams]
  refine (sim_ofExcept_eq rfl).bind fun ρ₁ _ _ hle _ => ?_
  cases f.variadic with
  | false => exact hlast ρ₁ hle _ (by omega)
  | true =>
    have hpop : Sim L ρ₁ (L.Above callee (callee + 1 + argc))
        (onStack (Stack.popMany (argc - (f.numParams - 1))))
        (onStack (Stack.popMany (argc - (f.numParams - 1)))) Values.Related
        (L.Above callee (callee + 1 + argc - (argc - (f.numParams - 1)))) := by
      refine sim_popMany hL.stable _ fun o ho _ => ⟨fun i hi => ?_, ho.clear, ?_, ?_⟩
      · have := ho.clear i hi
        have := ho.size
        omega
      · exact congrArg (· - _) ho.size
      · omega
    refine hpop.bind fun ρ₂ vs vs' hle₁ hvs => ?_
    have hnew := sim_onHeapValue
      (P := L.Above callee (callee + 1 + argc - (argc - (f.numParams - 1)))) hL.stable fun w hw =>
      HeapM.sim_newArrayOf (G := World.Grows) (Values.Related.mono hvs hw)
    refine hnew.bind fun ρ₃ v v' hle₂ hv => (sim_pushAbove hL hv).bind fun ρ₄ _ _ hle₃ _ => ?_
    exact hlast ρ₄ (hle.trans (hle₁.trans (hle₂.trans hle₃))) _ (by omega)

/-- A builtin is given its arguments, and what it answers takes the place of the callee. -/
theorem sim_callBuiltin {ρ₀ : Renaming} {host : Host}
    (hhost : HeapM.UniformIn (World.Above ρ₀) host) (hρ : ρ₀ ≤ ρ) (b : Builtin)
    (callee argc : Nat) :
    Sim L ρ (L.Above callee (callee + 1 + argc)) (callBuiltin host b callee)
      (callBuiltin host b callee) (fun _ _ _ => True) (L.Ready [] 0) := by
  have hslice : Sim L ρ (L.Above callee (callee + 1 + argc))
      (onStack (Stack.sliceFrom (callee + 1))) (onStack (Stack.sliceFrom (callee + 1)))
      Values.Related (L.Above callee (callee + 1 + argc)) :=
    sim_sliceFrom hL.stable _ fun o ho i hi => Nat.lt_succ_of_lt (ho.clear i hi)
  refine hslice.bind fun ρ₁ args args' hle hargs => ?_
  have hcall := sim_onHeapValue (P := L.Above callee (callee + 1 + argc)) hL.stable fun w hw =>
    HeapM.sim_call hhost ((hρ.trans hle).trans hw) b (Values.Related.mono hargs hw)
  refine hcall.bind fun ρ₂ v v' _ hv => ?_
  have hlast (ρ₃ : Renaming) (hle : ρ₂ ≤ ρ₃) : Sim L ρ₃ (L.Above callee (callee + 1 + argc))
      (do onStack (Stack.truncate callee); push v) (do onStack (Stack.truncate callee); push v')
      (fun _ _ _ => True) (L.Ready [] 0) := by
    have htruncate : Sim L ρ₃ (L.Above callee (callee + 1 + argc))
        (onStack (Stack.truncate callee)) (onStack (Stack.truncate callee)) (fun _ _ _ => True)
        (L.Ready [] 0) := by
      refine sim_truncate hL.stable callee fun o ho => ⟨ho.clear, ⟨fun i hi => ?_, by simp⟩⟩
      have := ho.clear i hi
      have := ho.size
      show i + 0 < min callee o.size
      omega
    exact htruncate.bind fun ρ₄ _ _ hle₁ _ =>
      (sim_pushReady hL.stable ((hv.mono hle).mono hle₁)).weaken
  dsimp only
  rw [hv.isUndefined_eq]
  cases v'.isUndefined with
  | true => exact hlast ρ₂ (le_refl _)
  | false => exact (sim_charge hL.stable).bind fun ρ₃ _ _ hle _ => hlast ρ₃ hle

/-- What a call does once its arguments are on the stack. -/
theorem sim_callOf {ρ₀ : Renaming} {host : Host}
    (hhost : HeapM.UniformIn (World.Above ρ₀) host) (hρ : ρ₀ ≤ ρ) (argc : Nat) :
    Sim L ρ (L.Supplied (argc + 1))
      (do
        let size ← stackSize
        if size < argc + 1 then throw .stackUnderflow
        else
          let callee := size - (argc + 1)
          match ← onStack (Stack.get callee) with
          | .function f => l.enterFunction f.function callee argc
          | .builtin b => callBuiltin host b callee
          | v => throw (.notCallable v.typeName))
      (do
        let size ← stackSize
        if size < argc + 1 then throw .stackUnderflow
        else
          let callee := size - (argc + 1)
          match ← onStack (Stack.get callee) with
          | .function f => l'.enterFunction f.function callee argc
          | .builtin b => callBuiltin host b callee
          | v => throw (.notCallable v.typeName))
      (fun _ _ _ => True) (L.Ready [] 0) := by
  refine Sim.of_stackSize fun n => ?_
  by_cases hn : n < argc + 1
  · rw [if_pos hn, if_pos hn]
    exact sim_throw _
  · rw [if_neg hn, if_neg hn]
    have habove (o : Outline) (ho : o.size = n ∧ L.Supplied (argc + 1) o) :
        L.Above (n - (argc + 1)) (n - (argc + 1) + 1 + argc) o := by
      have hready := ho.2.supplied (by omega)
      refine ⟨fun i hi => ?_, ?_, ?_⟩
      · have := hready.clear i hi
        omega
      · have := ho.1
        omega
      · omega
    have hget : Sim L ρ (L.Above (n - (argc + 1)) (n - (argc + 1) + 1 + argc))
        (onStack (Stack.get (n - (argc + 1)))) (onStack (Stack.get (n - (argc + 1))))
        Value.Related (L.Above (n - (argc + 1)) (n - (argc + 1) + 1 + argc)) :=
      sim_stackGet hL.stable _ fun o ho hi => Nat.lt_irrefl _ (ho.clear _ hi)
    refine (hget.bind fun ρ₁ v v' hle hv => ?_).pre habove
    cases hv with
    | function hid hf => exact sim_enterFunction hL hf _ _
    | builtin b => exact sim_callBuiltin hL hhost (hρ.trans hle) b _ _
    | _ => exact sim_throw _

/-- What is pushed on both sides agrees. -/
theorem sim_pushAllSupplied {vs vs' : List Value} (hvs : Values.Related ρ vs vs') (n : Nat) :
    Sim L ρ (L.Supplied n) (pushAll vs) (pushAll vs') (fun _ _ _ => True)
      (L.Supplied (n + vs.length)) := by
  induction hvs generalizing n with
  | nil => exact sim_pure (fun _ _ => trivial) fun _ hp => hp
  | @cons v v' vs vs' hv hvs ih =>
    have hpush : Sim L ρ (L.Supplied n) (push v) (push v') (fun _ _ _ => True)
        (L.Supplied (n + 1)) := by
      refine sim_push hL.stable hv fun o ho => ⟨fun i hi => ho.ready.clear i hi, ⟨?_, by simp⟩, ?_⟩
      · exact fun i hi => Nat.lt_succ_of_lt (ho.ready.clear i hi)
      · refine fun hn => ⟨fun i hi => ?_, by simp⟩
        have hn' : n + 1 ≤ o.size + 1 := hn
        have := (ho.supplied (by omega)).clear i hi
        show i + (n + 1) < o.size + 1
        omega
    refine hpush.bind fun ρ₁ _ _ hle _ => ?_
    rw [List.length_cons, show n + (vs.length + 1) = n + 1 + vs.length by omega]
    exact fun ρ₂ m m' hle₁ => ih (n + 1) ρ₂ m m' (hle.trans hle₁)

/-- A spread argument agrees, and with it the elements that it is spread to. -/
theorem sim_call {ρ₀ : Renaming} {host : Host}
    (hhost : HeapM.UniformIn (World.Above ρ₀) host) (hρ : ρ₀ ≤ ρ) {argc : Nat} {spread : Bool}
    (hP : ∀ o, P o → L.Supplied (argc + 1) o ∧
      (spread = true → argc ≠ 0 → L.Ready [] 1 o)) :
    Sim L ρ P (l.call host argc spread) (l'.call host argc spread) (fun _ _ _ => True)
      (L.Ready [] 0) := by
  unfold Locals.call
  cases spread with
  | false => exact (sim_callOf hL hhost hρ argc).pre fun o ho => (hP o ho).1
  | true =>
    by_cases h0 : argc = 0
    · subst h0
      exact (sim_callOf hL hhost hρ 0).pre fun o ho => (hP o ho).1
    · have hpop : Sim L ρ P pop pop Value.Related (L.Supplied argc) := by
        refine sim_pop hL.stable fun o ho => ⟨((hP o ho).2 rfl h0).clear, ⟨fun i hi => ?_, by simp⟩,
          fun hn => ⟨fun i hi => ?_, by simp⟩⟩
        · have := ((hP o ho).2 rfl h0).clear i hi
          show i + 0 < o.size - 1
          omega
        · have hn' : argc ≤ o.size - 1 := hn
          have := ((hP o ho).1.supplied (by omega)).clear i hi
          show i + argc < o.size - 1
          omega
      simp only [if_true]
      rw [spreadLast, if_neg h0, bind_assoc, bind_assoc]
      refine hpop.bind fun ρ₁ v v' hle₁ hv => ?_
      cases hv with
      | @array a b hrel =>
        rw [bind_assoc, bind_assoc]
        refine sim_get.bind fun ρ₂ m m' hle hr => ?_
        have hitems := hr.heap.contents (hle _ _ _ hrel)
        have hsize : (m'.heap.arrayAt b).size = (m.heap.arrayAt a).size :=
          (hr.heap.size_arrayAt (hle _ _ _ hrel)).symm
        dsimp only
        rw [bind_assoc, bind_assoc]
        refine (sim_pushAllSupplied hL hitems argc).bind fun ρ₃ _ _ hle₂ _ => ?_
        rw [pure_bind, pure_bind, hsize]
        have hρ₃ : ρ₀ ≤ ρ₃ := hρ.trans (hle₁.trans (hle.trans hle₂))
        refine (sim_callOf hL hhost hρ₃ _).pre fun o ho => ?_
        rw [Array.length_toList] at ho
        rwa [show argc - 1 + (m.heap.arrayAt a).size + 1 = argc + (m.heap.arrayAt a).size by omega]
      | _ => exact sim_throw _

/-! ## Ends of calls and runs -/

theorem sim_returnValue (taken : Bool) :
    Sim L ρ (L.Ready slots (if taken then 1 else 0)) (returnValue taken) (returnValue taken)
      Value.Related (L.Ready slots 0) := by
  cases taken with
  | true => exact sim_popReady hL.stable
  | false => exact sim_pure (fun _ _ => .undefined) fun _ hp => hp

/-- The result is an operand, if there is one above the slots of the activation. -/
theorem sim_haltResult :
    Sim L ρ (L.Ready [] 0) haltResult haltResult Value.Related (L.Ready [] 0) := by
  intro ρ₁ m m' hle hr hp
  have hframes := hr.frames
  unfold haltResult
  cases hf : m.frames with
  | nil =>
    rw [hf] at hframes
    have hf' : m'.frames = [] := List.forall₂_nil_left_iff.1 hframes
    rw [bind_eq, bind_eq, frame_of_no_frame hf, frame_of_no_frame hf']
    exact ⟨rfl, ρ₁, le_refl _, hr⟩
  | cons f rest =>
    rw [hf] at hframes
    obtain ⟨f', rest', hrel, -, hf'⟩ := List.forall₂_cons_left_iff.1 hframes
    have hlocals : f'.function.numLocals = f.function.numLocals := by rw [hrel.function.eq]
    have hsize : m'.stack.size = m.stack.size := hr.stack.size
    rw [bind_eq, bind_eq, frame_eq hf, frame_eq hf']
    dsimp only
    rw [bind_eq, bind_eq, stackSize_eq, stackSize_eq, hrel.base, hlocals, hsize]
    dsimp only
    by_cases habove : f.base + f.function.numLocals < m.stack.size
    · rw [if_pos habove]
      have htop : Sim L ρ₁ (fun o => L.Ready [] 1 o) top top Value.Related (L.Ready [] 0) :=
        (sim_topReady hL.stable).weaken
      exact htop ρ₁ m m' (le_refl _) hr ⟨hL.above hr hf habove, by simp⟩
    · rw [if_neg habove]
      exact ⟨ρ₁, le_refl _, hr, .undefined, hp⟩

/-! ## All instructions -/

omit hL in
/-- The table of builtins is the same for all machines. -/
theorem sim_coreBuiltin (index : Nat) :
    Sim L ρ (L.Ready slots 0) (coreBuiltin index) (coreBuiltin index) Value.Related
      (L.Ready slots 0) := by
  unfold coreBuiltin
  cases CoreBuiltin.ofIndex? index with
  | none => exact sim_throw _
  | some b => exact sim_pure (fun _ _ => .builtin _) fun _ hp => hp

theorem Sim.bindPush {x y : Exec Value} (h : Sim L ρ P x y Value.Related (L.Ready slots 0)) :
    Sim L ρ P (do push (← x)) (do push (← y)) (fun _ _ _ => True) (L.Ready [] 0) :=
  h.bind fun _ _ _ _ hv => (sim_pushReady hL.stable hv).weaken

omit hL in
/-- What a call takes agrees. Where it spreads, the last argument does, even if there are not as
many arguments as it asks for. -/
theorem supplied_of_fits {operands : List Nat} {o : Outline}
    (ho : L.Fits ⟨.call, operands⟩ o) :
    L.Supplied (Instruction.first ⟨.call, operands⟩ + 1) o ∧
      ((Instruction.second ⟨.call, operands⟩ != 0) = true →
        Instruction.first ⟨.call, operands⟩ ≠ 0 → L.Ready [] 1 o) := by
  have hready : L.Ready [] (Instruction.takes ⟨.call, operands⟩ o.size) o := ho
  refine ⟨⟨hready.weaken, fun hn => .of_takes hready hn⟩, fun hspread h0 => ?_⟩
  refine ⟨fun i hi => ?_, by simp⟩
  have hclear := hready.clear i hi
  have htakes : 1 ≤ Instruction.takes ⟨.call, operands⟩ o.size := by
    simp only [Instruction.takes, Instruction.demand, hspread, Bool.true_and]
    split
    · omega
    · simp [h0]
  omega

/-- The locals that a closure captures are locals of the activation that makes it. -/
theorem sim_closure {operands : List Nat} :
    Sim L ρ (L.Fits ⟨.closure, operands⟩) (l.makeClosure (Instruction.first ⟨.closure, operands⟩))
      (l'.makeClosure (Instruction.first ⟨.closure, operands⟩)) Value.Related (L.Ready [] 0) := by
  refine Sim.of_outline fun o ho => ?_
  have hmade : Sim L ρ (fun o' => o' = o)
      (l.makeClosure (Instruction.first ⟨.closure, operands⟩))
      (l'.makeClosure (Instruction.first ⟨.closure, operands⟩)) Value.Related
      (L.Ready (Instruction.locals ⟨.closure, operands⟩ o.constants) 0) := by
    refine sim_makeClosure hL fun o' ho' => ?_
    subst ho'
    refine ⟨ho, fun f hf slot hslot => ?_⟩
    simp only [Instruction.locals, hf]
    exact List.mem_filterMap.2 ⟨_, hslot, rfl⟩
  exact hmade.weaken

/-- An instruction does alike on related machines if what it concerns agrees or is a local. -/
theorem sim_execute {ρ₀ : Renaming} {host : Host}
    (hhost : HeapM.UniformIn (World.Above ρ₀) host) (hρ : ρ₀ ≤ ρ) (i : Instruction) :
    Sim L ρ (L.Fits i) (l.execute host i) (l'.execute host i)
      (fun ρ => Option.Rel (Value.Related ρ)) (fun _ => True) := by
  obtain ⟨op, operands⟩ := i
  cases op with
  | constant => exact Sim.goOn (Sim.bindPush hL (sim_constant _))
  | null => exact Sim.goOn (sim_pushReady hL.stable .undefined).weaken
  | true | false => exact Sim.goOn (sim_pushReady hL.stable (.bool _)).weaken
  | pop => exact Sim.goOn (sim_popReady hL.stable).discard.weaken
  | equal | notEqual =>
    refine Sim.goOn <| (sim_popEqual hL).bind fun ρ₁ b b' _ heq => ?_
    exact heq ▸ (sim_pushReady hL.stable (.bool _)).weaken
  | lnot =>
    refine Sim.goOn <| (sim_popReady hL.stable).bind fun ρ₁ v v' _ hv => ?_
    refine (sim_isFalsy hv).bind fun ρ₂ b b' _ heq => ?_
    exact heq ▸ (sim_pushReady hL.stable (.bool b)).weaken
  | add | sub | mul | div | rem | bitAnd | bitOr | bitXor | bitAndNot | shl | shr =>
    exact Sim.goOn (sim_applyBinary hL _).weaken
  | less | lessEq | greater | greaterEq => exact Sim.goOn (sim_applyOrder hL _).weaken
  | minus | bComplement => exact Sim.goOn (sim_applyUnary hL _).weaken
  | array =>
    exact Sim.goOn (sim_makeArray hL fun _ ho hn => Linkage.Ready.of_takes ho hn).weaken
  | map => exact Sim.goOn (sim_makeMap hL fun _ ho hn => Linkage.Ready.of_takes ho hn).weaken
  | error => exact Sim.goOn (sim_makeError hL).weaken
  | index => exact Sim.goOn (sim_readIndex hL).weaken
  | sliceIndex => exact Sim.goOn (sim_readSlice hL).weaken
  | setIndex => exact Sim.goOn (sim_writeIndex hL).weaken
  | jump => exact Sim.goOn (sim_jump hL.stable _).weaken
  | jumpFalsy => exact Sim.goOn (sim_jumpFalsy hL _).weaken
  | andJump => exact Sim.goOn (sim_andJump hL _)
  | orJump => exact Sim.goOn (sim_orJump hL _)
  | call => exact Sim.goOn (sim_call hL hhost hρ fun _ ho => supplied_of_fits ho)
  | getGlobal => exact Sim.goOn (Sim.bindPush hL (sim_global _))
  | setGlobal =>
    exact Sim.goOn <| (sim_popReady hL.stable).bind fun ρ₁ v v' _ hv =>
      (sim_setGlobal hL.stable _ hv).weaken
  | getLocal => exact Sim.goOn (Sim.bindPush hL (hL.get (.head _)))
  | setLocal =>
    exact Sim.goOn <| (sim_popReady hL.stable).bind fun ρ₁ v v' _ hv =>
      (hL.set (.head _) hv).weaken
  | defineLocal =>
    exact Sim.goOn <| (sim_popReady hL.stable).bind fun ρ₁ v v' _ hv =>
      (hL.define (.head _) hv).weaken
  | getFree => exact Sim.goOn (Sim.bindPush hL (sim_getFree _))
  | setFree =>
    exact Sim.goOn <| (sim_popReady hL.stable).bind fun ρ₁ v v' _ hv =>
      (sim_setFree hL _ hv).weaken
  | getBuiltin => exact Sim.goOn (Sim.bindPush hL (sim_coreBuiltin _))
  | closure => exact Sim.goOn (Sim.bindPush hL (sim_closure hL))
  | ret => exact (sim_returnValue hL _).bind fun ρ₁ v v' _ hv => hL.leave hv
  | halt =>
    exact (sim_haltResult hL).bind fun ρ₁ v v' _ hv =>
      sim_pure (fun _ h => .some (hv.mono h)) fun _ _ => trivial

/-! ## Steps and runs

A step fetches the same instruction on both sides, since related activations execute the same code
at the same offset. A run is then compared step by step.
-/

/-- A machine that is begun with what its next instruction takes in agreement takes a step as the
related one does. -/
theorem sim_step {ρ₀ : Renaming} {host : Host}
    (hhost : HeapM.UniformIn (World.Above ρ₀) host) (hρ : ρ₀ ≤ ρ) {m m' : Machine}
    (hr : L.Related ρ m m')
    (hfits : ∀ f rest i next, m.frames = f :: rest → f.function.fetch f.ip = .instruction i next →
      L.Fits i m.outline) :
    (∃ a b ρ₁ m₁ m₁', l.step host m = .ok a m₁ ∧ l'.step host m' = .ok b m₁' ∧ ρ ≤ ρ₁ ∧
        L.Related ρ₁ m₁ m₁' ∧ Option.Rel (Value.Related ρ₁) a b) ∨
      ∃ e ρ₁ m₁ m₁', l.step host m = .error e m₁ ∧ l'.step host m' = .error e m₁' ∧ ρ ≤ ρ₁ ∧
        L.Related ρ₁ m₁ m₁' := by
  have hframes := hr.frames
  cases hf : m.frames with
  | nil =>
    rw [hf] at hframes
    have hf' : m'.frames = [] := List.forall₂_nil_left_iff.1 hframes
    rw [l.step_of_no_frame host hf, l'.step_of_no_frame host hf']
    exact .inr ⟨_, ρ, m, m', rfl, rfl, le_refl _, hr⟩
  | cons f rest =>
    rw [hf] at hframes
    obtain ⟨f', rest', hrel, -, hf'⟩ := List.forall₂_cons_left_iff.1 hframes
    rw [l.step_eq host hf, l'.step_eq host hf', hrel.fetch_eq]
    cases hfetch : f.function.fetch f.ip with
    | fault e ip =>
      exact .inr ⟨e, ρ, _, _, rfl, rfl, le_refl _, hr.goTo hL.stable hf hf' ip⟩
    | instruction i next =>
      have hready := hfits f rest i next hf hfetch
      rw [← m.outline_goTo next] at hready
      obtain ⟨a, b, ρ₁, m₁, m₁', hx, hy, hle, hr₁, hab, -⟩ | hfault :=
        (sim_execute hL hhost hρ i).cases (le_refl ρ) (hr.goTo hL.stable hf hf' next) hready
      · exact .inl ⟨a, b, ρ₁, m₁, m₁', hx, hy, hle, hr₁, hab⟩
      · exact .inr hfault

end Exec

/-- Two runs that end alike. -/
def Linkage.Agrees (L : Linkage) (ρ : Renaming) (r r' : EStateM.Result Stop Machine Value) : Prop :=
  match r, r' with
  | .ok v m, .ok v' m' => ∃ ρ', ρ ≤ ρ' ∧ L.Related ρ' m m' ∧ v.Related ρ' v'
  | .error s m, .error s' m' => s = s' ∧ ∃ ρ', ρ ≤ ρ' ∧ L.Related ρ' m m'
  | _, _ => False

/-- Both runs have a value, or both have none for the same reason. -/
theorem Linkage.Agrees.cases {L : Linkage} {ρ : Renaming}
    {r r' : EStateM.Result Stop Machine Value} (h : L.Agrees ρ r r') :
    (∃ v v' ρ₁ m m', r = .ok v m ∧ r' = .ok v' m' ∧ ρ ≤ ρ₁ ∧ L.Related ρ₁ m m' ∧
        v.Related ρ₁ v') ∨
      ∃ s ρ₁ m m', r = .error s m ∧ r' = .error s m' ∧ ρ ≤ ρ₁ ∧ L.Related ρ₁ m m' := by
  cases r with
  | ok v m =>
    cases r' with
    | ok v' m' =>
      obtain ⟨ρ₁, hend⟩ := h
      exact .inl ⟨v, v', ρ₁, m, m', rfl, rfl, hend⟩
    | error s' m' => exact h.elim
  | error s m =>
    cases r' with
    | ok v' m' => exact h.elim
    | error s' m' =>
      obtain ⟨rfl, ρ₁, hend⟩ := h
      exact .inr ⟨s, ρ₁, m, m', rfl, rfl, hend⟩

/-- What agrees in a renaming that has grown agrees from the first one on. -/
theorem Linkage.Agrees.of_le {L : Linkage} {ρ ρ₁ : Renaming}
    {r r' : EStateM.Result Stop Machine Value} (hle : ρ ≤ ρ₁) (h : L.Agrees ρ₁ r r') :
    L.Agrees ρ r r' := by
  obtain ⟨v, v', ρ₂, m, m', rfl, rfl, hle₁, hend⟩ | ⟨s, ρ₂, m, m', rfl, rfl, hle₁, hr⟩ := h.cases
  · exact ⟨ρ₂, hle.trans hle₁, hend⟩
  · exact ⟨rfl, ρ₂, hle.trans hle₁, hr⟩

/-- Related machines run alike, as long as in every state that the first one comes to its next
instruction finds what it takes in agreement. -/
theorem Linkage.Lawful.run {L : Linkage} {l l' : Locals} (hL : L.Lawful l l') {ρ₀ : Renaming}
    {host : Host} (hhost : HeapM.UniformIn (World.Above ρ₀) host) {T : Machine → Prop}
    (hT : ∀ m m₁, T m → l.step host m = .ok none m₁ → T m₁)
    (hfits : ∀ {ρ m m'}, T m → L.Related ρ m m' → ∀ f rest i next, m.frames = f :: rest →
      f.function.fetch f.ip = .instruction i next → L.Fits i m.outline)
    {ρ : Renaming} (hρ : ρ₀ ≤ ρ) {m m' : Machine} (hm : T m) (hr : L.Related ρ m m')
    (steps : Nat) :
    L.Agrees ρ (l.run host steps m) (l'.run host steps m') := by
  induction steps generalizing ρ m m' with
  | zero => exact ⟨rfl, ρ, le_refl _, hr⟩
  | succ steps ih =>
    rw [Locals.run, Locals.run]
    obtain ⟨a, b, ρ₁, m₁, m₁', hx, hy, hle, hr₁, hab⟩ | ⟨e, ρ₁, m₁, m₁', hx, hy, hend⟩ :=
      Exec.sim_step hL hhost hρ hr (hfits hm hr)
    · rw [hx, hy]
      cases hab with
      | some hv => exact ⟨ρ₁, hle, hr₁, hv⟩
      | none => exact (ih (hρ.trans hle) (hT m m₁ hm hx) hr₁).of_le hle
    · rw [hx, hy]
      exact ⟨rfl, ρ₁, hend⟩

end ScriptVM
