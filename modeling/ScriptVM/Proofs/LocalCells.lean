import ScriptVM.Proofs.Activation
import ScriptVM.Proofs.Quiet

/-!
# The cells of locals

An activation keeps a table of the cells of its captured locals. Only three kinds of instructions
touch a table: making a closure adds to it, binding a local afresh takes the local from it, and an
activation begins with an empty one. `Machine.captured` lists what the next instruction captures, so
that captures of different instructions can be compared.
-/

namespace ScriptVM

variable {host : Host}

/-! ## Captures

A closure instruction may fail after some of its captures. Those that have been carried out by then
are captures all the same.
-/

/-- The captures that are carried out one after the other, with their cells, up to one that
fails. -/
def Exec.capturing : List Capture → Machine → List (Capture × CellRef)
  | [], _ => []
  | c :: cs, m =>
    match Exec.capture c m with
    | .ok cell m => (c, cell) :: capturing cs m
    | .error _ _ => []

def Machine.instruction? (m : Machine) : Option Instruction :=
  match m.frames with
  | [] => none
  | f :: _ =>
    match f.function.fetch f.ip with
    | .instruction i _ => some i
    | .fault _ _ => none

/-- The instruction that is fetched is the next one. -/
theorem Machine.instruction?_eq {m : Machine} {f : Frame} {rest : List Frame} {i : Instruction}
    {next : Nat} (hf : m.frames = f :: rest)
    (hfetch : f.function.fetch f.ip = .instruction i next) : m.instruction? = some i := by
  rw [instruction?, hf]
  dsimp only
  rw [hfetch]

/-- The captures that the next instruction carries out, with their cells. -/
def Machine.captured (m : Machine) : List (Capture × CellRef) :=
  match m.frames with
  | [] => []
  | f :: _ =>
    match f.function.fetch f.ip with
    | .instruction i next =>
      match i.op, m.constants[i.first]? with
      | .closure, some (.function prototype) =>
        Exec.capturing prototype.function.captures (m.goTo next)
      | _, _ => []
    | .fault _ _ => []

/-! ## Tables that grow

While a closure is being made, its captures add cells one by one, and each new cell has the next
number of the heap. That a cell is new is therefore said by numbers.
-/

/-- Locals of `f` have been captured, where the heap had `n` cells before and has `n'` now. A local
that had a cell keeps it. Any other may have been given one that is new, and that no other local has
been given. -/
structure Frame.Promotes (f f' : Frame) (n n' : Nat) : Prop where
  function : f'.function = f.function
  keeps : ∀ slot c, f.cell? slot = some c → f'.cell? slot = some c
  new : ∀ slot c, f'.cell? slot = some c → f.cell? slot = none → n ≤ c.index ∧ c.index < n'
  apart : ∀ slot slot' c, f.cell? slot = none → f.cell? slot' = none →
    f'.cell? slot = some c → f'.cell? slot' = some c → slot = slot'

namespace Frame.Promotes

variable {f f' f'' : Frame} {n n' n'' : Nat}

theorem refl (f : Frame) (n n' : Nat) : f.Promotes f n n' where
  function := rfl
  keeps _ _ h := h
  new _ _ h h0 := by
    rw [h0] at h
    cases h
  apart _ _ _ h0 _ h _ := by
    rw [h0] at h
    cases h

/-- A local without a cell is given the next one. -/
theorem insert {slot : Nat} (h0 : f.cell? slot = none) (n : Nat) :
    f.Promotes { f with promoted := (slot, ⟨n⟩) :: f.promoted } n (n + 1) := by
  have hcell (t : Nat) := f.cell?_cons slot t ⟨n⟩ f.promoted
  have hnew {t : Nat} (ht : f.cell? t = none) {c : CellRef}
      (hc : ({ f with promoted := (slot, ⟨n⟩) :: f.promoted } : Frame).cell? t = some c) :
      t = slot ∧ c = ⟨n⟩ := by
    rw [hcell] at hc
    by_cases heq : t = slot
    · rw [if_pos heq] at hc
      cases hc
      exact ⟨heq, rfl⟩
    · rw [if_neg heq] at hc
      exact absurd (ht.symm.trans hc) (by simp)
  constructor
  · rfl
  · intro t c hc
    have hne : t ≠ slot := by
      rintro rfl
      rw [h0] at hc
      cases hc
    rw [hcell, if_neg hne]
    exact hc
  · intro t c hc ht
    obtain ⟨-, rfl⟩ := hnew ht hc
    exact ⟨Nat.le_refl n, Nat.lt_succ_self n⟩
  · intro t t' c ht ht' hc hc'
    rw [(hnew ht hc).1, (hnew ht' hc').1]

/-- A local with a cell has had it before, or it has had none. -/
theorem some_or_none (h : f.Promotes f' n n') {slot : Nat} {c : CellRef}
    (hc : f'.cell? slot = some c) : f.cell? slot = some c ∨ f.cell? slot = none := by
  cases h0 : f.cell? slot with
  | none => exact .inr rfl
  | some d =>
    rw [h.keeps slot d h0] at hc
    exact .inl hc

/-- A cell that is new at one of two times is new over both. -/
theorem trans (h : f.Promotes f' n n') (h' : f'.Promotes f'' n' n'') (hle : n ≤ n')
    (hle' : n' ≤ n'') : f.Promotes f'' n n'' := by
  constructor
  · exact h'.function.trans h.function
  · intro slot c hc
    exact h'.keeps slot c (h.keeps slot c hc)
  · intro slot c hc h0
    rcases h'.some_or_none hc with hm | hm
    · have := h.new slot c hm h0
      omega
    · have := h'.new slot c hc hm
      omega
  · intro slot slot' c h0 h0' hc hc'
    rcases h'.some_or_none hc with hm | hm
    · rcases h'.some_or_none hc' with hm' | hm'
      · exact h.apart slot slot' c h0 h0' hm hm'
      · have := h.new slot c hm h0
        have := h'.new slot' c hc' hm'
        omega
    · rcases h'.some_or_none hc' with hm' | hm'
      · have := h'.new slot c hc hm
        have := h.new slot' c hm' h0'
        omega
      · exact h'.apart slot slot' c hm hm' hc hc'

end Frame.Promotes

/-- Locals of the executing activation `f` have been captured, and it has become `f'`. -/
structure Machine.Promoted (m : Machine) (f : Frame) (rest : List Frame) (m' : Machine)
    (f' : Frame) : Prop where
  frames : m'.frames = f' :: rest
  table : f.Promotes f' m.heap.cells.size m'.heap.cells.size
  heap : ∀ k, m.heap.count k ≤ m'.heap.count k
  identities : m'.heap.identities = m.heap.identities
  stack : m'.stack = m.stack
  constants : m'.constants = m.constants

theorem Machine.Promoted.refl {m : Machine} {f : Frame} {rest : List Frame}
    (hf : m.frames = f :: rest) : m.Promoted f rest m f :=
  ⟨hf, .refl .., fun _ => Nat.le_refl _, rfl, rfl, rfl⟩

/-- Captures of one instruction are taken together. -/
theorem Machine.Promoted.trans {m m' m'' : Machine} {f f' f'' : Frame} {rest : List Frame}
    (h : m.Promoted f rest m' f') (h' : m'.Promoted f' rest m'' f'') :
    m.Promoted f rest m'' f'' where
  frames := h'.frames
  table := h.table.trans h'.table (h.heap .cell) (h'.heap .cell)
  heap k := Nat.le_trans (h.heap k) (h'.heap k)
  identities := h'.identities.trans h.identities
  stack := h'.stack.trans h.stack
  constants := h'.constants.trans h.constants

namespace Exec

variable {m : Machine} {f : Frame} {rest : List Frame}

/-- The local has its cell in the table afterwards, be it new or not. -/
theorem promoted_captureLocal (hf : m.frames = f :: rest) (slot : Nat) :
    match captureLocal slot m with
    | .ok c m' => ∃ f', m.Promoted f rest m' f' ∧ f'.cell? slot = some c
    | .error e _ => ¬ e.OfNoFrame := by
  unfold captureLocal
  rw [bind_eq, frame_eq hf]
  dsimp only
  rw [bind_eq, onStack_eq, Stack.get]
  cases m.stack.values[f.base + slot]? with
  | none => exact id
  | some v =>
    dsimp only
    rw [bind_eq, onHeap_eq, Frame.promote]
    cases hc : f.cell? slot with
    | some c =>
      refine ⟨f, ⟨?_, .refl .., fun _ => Nat.le_refl _, rfl, rfl, rfl⟩, hc⟩
      rw [hf]
      rfl
    | none =>
      -- The cell is in the table before it is charged for.
      let f' : Frame := { f with promoted := (slot, ⟨m.heap.cells.size⟩) :: f.promoted }
      have hadd := m.heap.adds_addCell v
      have hcells : (m.heap.addCell v).2.cells.size = m.heap.cells.size + 1 := hadd.count .cell
      have hcell : f'.cell? slot = some ⟨m.heap.cells.size⟩ := by
        rw [f.cell?_cons slot slot ⟨m.heap.cells.size⟩ f.promoted, if_pos rfl]
      have hpromoted (budget : Option Nat) : m.Promoted f rest
          { m with frames := f' :: rest, budget := budget, heap := (m.heap.addCell v).2 } f' := by
        refine ⟨rfl, ?_, hadd.le, rfl, rfl, rfl⟩
        show f.Promotes f' m.heap.cells.size (m.heap.addCell v).2.cells.size
        rw [hcells]
        exact .insert hc _
      show match (setFrame f' >>= fun _ => charge >>= fun _ =>
          pure (⟨m.heap.cells.size⟩ : CellRef)) { m with heap := (m.heap.addCell v).2 } with
        | .ok c m' => ∃ f', m.Promoted f rest m' f' ∧ f'.cell? slot = some c
        | .error e _ => ¬ e.OfNoFrame
      rw [bind_eq, setFrame_eq, hf, List.tail_cons]
      dsimp only
      rw [bind_eq, charge_eq]
      dsimp only
      rcases m.budget with _ | _ | n
      · exact ⟨f', hpromoted none, hcell⟩
      · exact id
      · exact ⟨f', hpromoted (some n), hcell⟩

/-- A captured variable of the function has a cell without the table being touched. -/
theorem promoted_capture (hf : m.frames = f :: rest) (c : Capture) :
    match capture c m with
    | .ok cell m' => ∃ f', m.Promoted f rest m' f' ∧
        match c with
        | .ofLocal slot => f'.cell? slot = some cell
        | .ofFree k => f.function.cells[k]? = some cell
    | .error e _ => ¬ e.OfNoFrame := by
  cases c with
  | ofLocal slot => exact promoted_captureLocal hf slot
  | ofFree k =>
    show match freeCell k m with
      | .ok cell m' => ∃ f', m.Promoted f rest m' f' ∧ f.function.cells[k]? = some cell
      | .error e _ => ¬ e.OfNoFrame
    unfold freeCell
    rw [bind_eq, frame_eq hf]
    dsimp only
    rw [ofExcept_eq, Function.free?]
    cases hk : f.function.cells[k]? with
    | some cell => exact ⟨f, .refl hf, rfl⟩
    | none => exact id

/-- What has been captured is in the table in the end. If nothing fails, there is a cell for each
variable, in their order. -/
theorem promoted_captureAll (cs : List Capture) (hf : m.frames = f :: rest) :
    ∃ m' f', m.Promoted f rest m' f' ∧
      (∀ slot c, (.ofLocal slot, c) ∈ capturing cs m → f'.cell? slot = some c) ∧
      (∀ k c, (.ofFree k, c) ∈ capturing cs m → f.function.cells[k]? = some c) ∧
      ((∃ e m'', captureAll cs m = .error e m'' ∧ ¬ e.OfNoFrame) ∨
        captureAll cs m = .ok ((capturing cs m).map Prod.snd) m' ∧
          (capturing cs m).map Prod.fst = cs) := by
  induction cs generalizing m f with
  | nil => exact ⟨m, f, .refl hf, by simp [capturing], by simp [capturing], .inr ⟨rfl, rfl⟩⟩
  | cons c cs ih =>
    have hfirst := promoted_capture hf c
    rw [captureAll, capturing, bind_eq]
    cases hr : capture c m with
    | error e m' =>
      rw [hr] at hfirst
      exact ⟨m, f, .refl hf, by simp, by simp, .inl ⟨e, m', rfl, hfirst⟩⟩
    | ok cell m₁ =>
      rw [hr] at hfirst
      obtain ⟨f₁, hpromoted, hcell⟩ := hfirst
      obtain ⟨m', f', hlater, hlocal, hfree, hend⟩ := ih hpromoted.frames
      refine ⟨m', f', hpromoted.trans hlater, ?_, ?_, ?_⟩
      · intro slot d hd
        rcases List.mem_cons.1 hd with heq | hd
        · cases heq
          exact hlater.table.keeps slot _ hcell
        · exact hlocal slot d hd
      · intro k d hd
        rcases List.mem_cons.1 hd with heq | hd
        · cases heq
          exact hcell
        · rw [← hpromoted.table.function]
          exact hfree k d hd
      · dsimp only
        rw [bind_eq]
        rcases hend with ⟨e, m'', he, hfault⟩ | ⟨hok, hcs⟩
        · rw [he]
          exact .inl ⟨e, m'', rfl, hfault⟩
        · rw [hok]
          refine .inr ⟨rfl, ?_⟩
          rw [List.map_cons, hcs]

/-- A closure is a new object that has the code of its prototype and the captured cells. -/
theorem promoted_makeClosure (hf : m.frames = f :: rest) (index : Nat) :
    match makeClosure index m with
    | .ok v m' => ∃ (prototype : FunctionObject) (m₁ : Machine) (f' : Frame) (budget : Option Nat),
        m.constants[index]? = some (.function prototype) ∧ m.Promoted f rest m₁ f' ∧
          let captured := capturing prototype.function.captures m
          (∀ slot c, (.ofLocal slot, c) ∈ captured → f'.cell? slot = some c) ∧
          (∀ k c, (.ofFree k, c) ∈ captured → f.function.cells[k]? = some c) ∧
          captured.map Prod.fst = prototype.function.captures ∧
          v = .function ⟨m.heap.identities,
            { prototype.function with cells := captured.map Prod.snd }⟩ ∧
          m' = { m₁ with budget := budget, heap := m₁.heap.addIdentity.2 }
    | .error e _ => ¬ e.OfNoFrame := by
  unfold makeClosure
  rw [bind_eq, constant_eq]
  cases hconstant : m.constants[index]? with
  | none => exact id
  | some v =>
    cases v
    case function prototype =>
      obtain ⟨m₁, f', hpromoted, hlocal, hfree, hend⟩ :=
        promoted_captureAll prototype.function.captures hf
      dsimp only
      rw [bind_eq]
      rcases hend with ⟨e, m'', he, hfault⟩ | ⟨hok, hcs⟩
      · rw [he]
        exact hfault
      rw [hok]
      dsimp only
      rw [bind_eq, charge_eq]
      have hid : m₁.heap.identities = m.heap.identities := hpromoted.identities
      rcases m₁.budget with _ | _ | n
      · refine ⟨prototype, m₁, f', m₁.budget, rfl, hpromoted, hlocal, hfree, hcs, ?_, rfl⟩
        rw [← hid]
      · exact id
      · refine ⟨prototype, m₁, f', some n, rfl, hpromoted, hlocal, hfree, hcs, ?_, rfl⟩
        rw [← hid]
    all_goals exact id

/-! ## What an instruction does to the tables -/

/-- What an instruction executed by `f` on top of `rest` does to the tables of the machine, when it
succeeds. -/
inductive Touched (i : Instruction) (f : Frame) (rest : List Frame) (m m' : Machine) : Prop where
  /-- The executing activation goes on with its table. -/
  | keeps {f' : Frame} (hd : i.op ≠ .defineLocal) (hc : i.op ≠ .closure)
    (hframes : m'.frames = f' :: rest) (htable : f'.promoted = f.promoted)
  /-- A local is parted from its cell. -/
  | defines (hop : i.op = .defineLocal) (hframes : m'.frames = f.unbind i.first :: rest)
  /-- Locals have been captured. -/
  | captures {f' : Frame} (hop : i.op = .closure) (hframes : m'.frames = f' :: rest)
    (htable : f.Promotes f' m.heap.cells.size m'.heap.cells.size)
    (hlocal : ∀ prototype : FunctionObject, m.constants[i.first]? = some (.function prototype) →
      ∀ slot c, (.ofLocal slot, c) ∈ capturing prototype.function.captures m →
        f'.cell? slot = some c)
  /-- Another activation begins. -/
  | enters {g : Frame} (hop : i.op = .call) (hframes : m'.frames = g :: f :: rest)
    (htable : g.promoted = [])
  /-- The executing activation is over. -/
  | leaves (hop : i.op = .ret) (hframes : m'.frames = rest)

/-- Executed by an activation, the computation touches the tables as the instruction does, or it
ends in a fault of another kind than that there is no activation. -/
def Acts {α : Type} (host : Host) (i : Instruction) (x : Exec α) : Prop :=
  ∀ (m : Machine) (f : Frame) (rest : List Frame), m.frames = f :: rest →
    match x m with
    | .ok _ m' => m.heap.Becomes host m'.heap ∧ Touched i f rest m m'
    | .error e _ => e.Framed host

variable {α β : Type} {i : Instruction}

/-- A quiet computation leaves the tables alone, which all but two kinds of instructions do. -/
theorem Quiet.acts {x : Exec α} (hx : Quiet host x) (hd : i.op ≠ .defineLocal)
    (hc : i.op ≠ .closure) : Acts host i x := by
  intro m f rest hf
  have h := hx m (by simp [hf])
  cases hr : x m with
  | error e m' =>
    rw [hr] at h
    exact h
  | ok a m' =>
    rw [hr] at h
    exact ⟨h.heap, .keeps hd hc (h.frames.trans hf) rfl⟩

/-- Only captures depend on the machine that they begin with. -/
theorem Touched.after {m m₁ m' : Machine} (hop : i.op ≠ .closure)
    (h : Touched i f rest m₁ m') : Touched i f rest m m' := by
  cases h with
  | keeps hd hc hframes htable => exact .keeps hd hc hframes htable
  | defines hop hframes => exact .defines hop hframes
  | captures hclosure => exact absurd hclosure hop
  | enters hop hframes htable => exact .enters hop hframes htable
  | leaves hop hframes => exact .leaves hop hframes

/-- What is quiet may come before what touches the tables. -/
theorem Quiet.first {x : Exec α} {k : α → Exec β} (hx : Quiet host x) (hop : i.op ≠ .closure)
    (hk : ∀ a, Acts host i (k a)) : Acts host i (x >>= k) := by
  intro m f rest hf
  have hfirst := hx m (by simp [hf])
  rw [bind_eq]
  cases hr : x m with
  | error e m' =>
    rw [hr] at hfirst
    exact hfirst
  | ok a m₁ =>
    rw [hr] at hfirst
    have hsecond := hk a m₁ f rest (hfirst.frames.trans hf)
    dsimp only
    cases hr' : k a m₁ with
    | error e m' =>
      rw [hr'] at hsecond
      exact hsecond
    | ok b m' =>
      rw [hr'] at hsecond
      exact ⟨hfirst.heap.trans hsecond.1, hsecond.2.after hop⟩

theorem Acts.goOn {x : Exec Unit} (hx : Acts host i x) : Acts host i (goOn x) := by
  intro m f rest hf
  have h := hx m f rest hf
  unfold Exec.goOn
  rw [bind_eq]
  cases hr : x m with
  | error e m' =>
    rw [hr] at h
    exact h
  | ok _ m' =>
    rw [hr] at h
    exact h

/-! ### Jumps -/

theorem acts_jump (hd : i.op ≠ .defineLocal) (hc : i.op ≠ .closure) (target : Nat) :
    Acts host i (jump target) := by
  intro m f rest hf
  rw [jump_eq hf]
  by_cases ht : target ≤ f.function.code.size
  · rw [if_pos ht]
    exact ⟨.refl _, .keeps hd hc rfl rfl⟩
  · rw [if_neg ht]
    exact fun he => he.elim

/-! ### Entering and leaving -/

/-- The new activation has an empty table. -/
theorem acts_pushFrame (hop : i.op = .call) (function : Function) (base : Nat) :
    Acts host i (pushFrame (.start function base)) := by
  intro m f rest hf
  rw [pushFrame_eq]
  by_cases hlt : m.frames.length < m.maxFrames
  · rw [if_pos hlt]
    have hframes : Frame.start function base :: m.frames = .start function base :: f :: rest := by
      rw [hf]
    exact ⟨.refl _, .enters hop hframes rfl⟩
  · rw [if_neg hlt]
    exact fun he => he.elim

/-- The table goes with its activation. -/
theorem acts_leave (hop : i.op = .ret) (result : Value) : Acts host i (leave result) := by
  intro m f rest hf
  rw [leave_eq hf]
  by_cases hr : rest.isEmpty = true
  · rw [if_pos hr]
    exact ⟨.refl _, .leaves hop rfl⟩
  rw [if_neg hr]
  by_cases hb : f.base = 0
  · rw [if_pos hb]
    exact fun he => he.elim
  rw [if_neg hb, bind_eq, onStack_eq, Stack.truncate]
  dsimp only
  rw [bind_eq, push_eq]
  by_cases hlt : (m.stack.values.shrink (f.base - 1)).size < m.stack.capacity
  · rw [if_pos hlt]
    exact ⟨.refl _, .leaves hop rfl⟩
  · rw [if_neg hlt]
    exact fun he => he.elim

/-! ### Locals -/

/-- The local is parted from its cell, and the closures that have captured it keep the cell. -/
theorem acts_defineLocal (hop : i.op = .defineLocal) (v : Value) :
    Acts host i (defineLocal i.first v) := by
  intro m f rest hf
  unfold defineLocal
  rw [bind_eq, frame_eq hf]
  dsimp only
  rw [bind_eq, setFrame_eq, hf, List.tail_cons]
  dsimp only
  rw [onStack_eq]
  dsimp only
  cases hr : Stack.set (f.base + i.first) v m.stack with
  | ok _ s => exact ⟨.refl _, .defines hop rfl⟩
  | error e s =>
    intro he
    rcases OfStack.of_uses (.set (E := [.store]) _ v (by decide)) _ _ _ hr with rfl | rfl
    · exact he.elim
    · exact he.elim

/-- Only here are locals given cells. -/
theorem acts_closure (hop : i.op = .closure) :
    Acts host i (do push (← makeClosure i.first)) := by
  intro m f rest hf
  have h := promoted_makeClosure hf i.first
  rw [bind_eq]
  cases hr : makeClosure i.first m with
  | error e m' =>
    rw [hr] at h
    exact fun he => absurd he h
  | ok v m' =>
    rw [hr] at h
    obtain ⟨prototype, m₁, f', budget, hconstant, hpromoted, hlocal, -, -, -, rfl⟩ := h
    dsimp only
    rw [push_eq]
    by_cases hlt : m₁.stack.values.size < m₁.stack.capacity
    · rw [if_pos hlt]
      refine ⟨.grows fun k => ?_, .captures hop ?_ hpromoted.table ?_⟩
      · exact Nat.le_trans (hpromoted.heap k) (m₁.heap.adds_addIdentity.le k)
      · exact hpromoted.frames
      · intro prototype' hconstant'
        rw [hconstant] at hconstant'
        cases hconstant'
        exact hlocal
    · rw [if_neg hlt]
      exact fun he => he.elim

/-! ### All instructions -/

/-- Apart from the two kinds of instructions that change a table, only a jump, a call or a return is
more than quiet. -/
theorem Performs.acts {x : Exec α} (h : Performs host i.op i.first x) (hd : i.op ≠ .defineLocal)
    (hc : i.op ≠ .closure) : Acts host i x := by
  have hE : .rebind ∉ i.op.effects := by
    rw [Opcode.rebind_mem_effects]
    exact fun h => h.elim hd hc
  induction h with
  | uses h => exact (h.quiet hE).acts hd hc
  | first hx _ ih => exact (hx.quiet hE).first hc ih
  | goOn _ ih => exact ih.goOn
  | jump => exact acts_jump hd hc _
  | enter hop f callee => exact acts_pushFrame hop f _
  | builtin _ b callee => exact (quiet_callBuiltin b callee).acts hd hc
  | leave hop result => exact acts_leave hop result

/-- Every instruction touches the tables as its kind does. -/
theorem acts_execute (host : Host) (i : Instruction) : Acts host i (execute host i) := by
  by_cases hd : i.op = .defineLocal
  · rw [execute, hd]
    exact (((uses_pop (by decide)).quiet (E := [.take]) (by decide)).first (by simp [hd])
      fun v => acts_defineLocal hd v).goOn
  by_cases hc : i.op = .closure
  · rw [execute, hc]
    exact (acts_closure hc).goOn
  exact (performs_execute host i).acts hd hc

/-- With an activation to execute, a step does not fail for want of one. -/
theorem framed_step (hm : m.frames ≠ []) {e : Fault} {m' : Machine}
    (hs : step host m = .error e m') : e.Framed host := by
  obtain ⟨f, rest, hf⟩ := List.exists_cons_of_ne_nil hm
  rw [step_eq host hf] at hs
  cases hfetch : f.function.fetch f.ip with
  | fault e' ip =>
    rw [hfetch] at hs
    cases hs
    unfold Function.fetch at hfetch
    split at hfetch
    · cases hfetch
      exact fun he => he.elim
    split at hfetch
    · cases hfetch
      exact fun he => he.elim
    split at hfetch
    · cases hfetch
    · cases hfetch
      exact fun he => he.elim
  | instruction i next =>
    rw [hfetch] at hs
    have h := acts_execute host i (m.goTo next) _ rest (Machine.frames_goTo hf next)
    dsimp only at hs
    rw [hs] at h
    exact h

/-- A step that succeeds touches the tables as its instruction does. -/
theorem touched_of_step (hf : m.frames = f :: rest) {r : Option Value} {m' : Machine}
    (hs : step host m = .ok r m') :
    ∃ i next, f.function.fetch f.ip = .instruction i next ∧ m.heap.Becomes host m'.heap ∧
      Touched i { f with ip := next } rest (m.goTo next) m' := by
  rw [step_eq host hf] at hs
  cases hfetch : f.function.fetch f.ip with
  | fault e ip =>
    rw [hfetch] at hs
    cases hs
  | instruction i next =>
    rw [hfetch] at hs
    have h := acts_execute host i (m.goTo next) _ rest (Machine.frames_goTo hf next)
    dsimp only at hs
    rw [hs] at h
    rw [Machine.heap_goTo] at h
    exact ⟨i, next, rfl, h⟩

end Exec
end ScriptVM
