import ScriptVM.Proofs.Launch
import ScriptVM.Proofs.LocalCells
import ScriptVM.Proofs.Spared

/-!
# What instructions write to

Three kinds of instructions write to an object that is there already: writing an element or a field,
and writing a local or a captured variable that is in a cell. `Machine.target?` is what the next
instruction writes to. Any other object is after a step, a run or a call as it was before, unless a
function of the host writes to it.
-/

namespace ScriptVM

variable {α β : Type} {host : Host} {K : Objects} {m m' : Machine}

/-- The object that the next instruction writes to, if it comes to that: the container that stands
on the stack beneath a key and a value, or the cell of a variable. -/
def Machine.target? (m : Machine) : Option (Kind × Nat) := do
  let f ← m.frames.head?
  let i ← m.instruction?
  match i.op with
  | .setIndex => (← m.stack.values.pop.pop.back?).object?
  | .setLocal => return (.cell, (← f.cell? i.first).index)
  | .setFree => return (.cell, (← f.function.cells[i.first]?).index)
  | _ => none

/-- The next instruction writes to none of the objects. -/
def Machine.Spares (K : Objects) (m : Machine) : Prop :=
  ∀ k i, m.target? = some (k, i) → ¬ K k i

namespace Exec

/-- Whatever machine the computation begins with, it takes nothing from the heap and leaves the
objects of `K` as they are. -/
def Spares (K : Objects) (x : Exec α) : Prop := ∀ m : Machine, m.heap.Kept K (left (x m)).heap

/-! ## Sequencing -/

/-- The second part begins with the machine that the first one has left. -/
theorem kept_bind {x : Exec α} {k : α → Exec β} (hx : m.heap.Kept K (left (x m)).heap)
    (hk : ∀ a m', x m = .ok a m' → m'.heap.Kept K (left (k a m')).heap) :
    m.heap.Kept K (left ((x >>= k) m)).heap := by
  rw [bind_eq]
  cases hr : x m with
  | ok a m' =>
    rw [hr] at hx
    exact hx.trans (hk a m' hr)
  | error e m' =>
    rw [hr] at hx
    exact hx

/-- Neither part writes to the objects. -/
theorem Spares.bind {x : Exec α} {k : α → Exec β} (hx : Spares K x) (hk : ∀ a, Spares K (k a)) :
    Spares K (x >>= k) := fun m => kept_bind (hx m) fun a m' _ => hk a m'

/-- A computation that does not touch the heap. -/
theorem spares_of_heap_eq {x : Exec α} (h : ∀ m, (left (x m)).heap = m.heap) : Spares K x := by
  intro m
  rw [h m]
  exact .refl m.heap

theorem spares_pure (a : α) : Spares K (pure a) := fun m => .refl m.heap

theorem spares_throw (e : Fault) : Spares K (throw e : Exec α) := fun m => .refl m.heap

theorem spares_get : Spares K get := fun m => .refl m.heap

/-! ## Parts of the machine

The heap is touched by computations of the heap and by nothing else of the machine.
-/

theorem spares_onStack (x : StackM α) : Spares K (onStack x) := by
  apply spares_of_heap_eq
  intro m
  rw [onStack_eq]
  cases x m.stack <;> rfl

/-- What spares the objects of a heap spares them on a machine. -/
theorem spares_onHeap {x : HeapM α} (hx : HeapM.Spares K x) : Spares K (onHeap x) := by
  intro m
  have h := hx m.heap
  rw [HeapM.after] at h
  rw [onHeap_eq]
  cases hr : x m.heap with
  | ok a h' =>
    rw [hr] at h
    exact h
  | error e h' =>
    rw [hr] at h
    exact h

theorem spares_ofExcept (r : Except Fault α) : Spares K (ofExcept r) := by
  cases r with
  | ok a => exact spares_pure a
  | error e => exact spares_throw e

theorem spares_pop : Spares K pop := spares_onStack _

theorem spares_frame : Spares K frame := by
  apply spares_get.bind
  intro m
  split
  · exact spares_pure _
  · exact spares_throw _

/-- A change of the machine that leaves the heap spares everything on it. -/
theorem spares_modify {f : Machine → Machine} (h : ∀ m, (f m).heap = m.heap) :
    Spares K (modify f) := spares_of_heap_eq h

theorem spares_setFrame (f : Frame) : Spares K (setFrame f) := spares_modify fun _ => rfl

theorem spares_pushFrame (f : Frame) : Spares K (pushFrame f) := by
  apply spares_get.bind
  intro m
  apply spares_get.bind
  intro m
  split
  · exact spares_modify fun _ => rfl
  · exact spares_throw _

theorem spares_jump (target : Nat) : Spares K (jump target) := by
  apply spares_frame.bind
  intro f
  split
  · exact spares_setFrame _
  · exact spares_throw _

theorem spares_constant (index : Nat) : Spares K (constant index) := by
  apply spares_get.bind
  intro m
  dsimp only
  split
  · exact spares_pure _
  · exact spares_throw _

theorem spares_global (index : Nat) : Spares K (global index) := by
  apply spares_get.bind
  intro m
  dsimp only
  split
  · exact spares_pure _
  · exact spares_throw _

theorem spares_setGlobal (index : Nat) (v : Value) : Spares K (setGlobal index v) := by
  apply spares_get.bind
  intro m
  dsimp only
  split
  · exact spares_modify fun _ => rfl
  · exact spares_throw _

theorem spares_charge : Spares K charge := by
  apply spares_get.bind
  intro m
  split
  · exact spares_pure _
  · exact spares_throw _
  · exact spares_modify fun _ => rfl

/-! ## Locals with and without cells -/

theorem spares_defineLocal (slot : Nat) (v : Value) : Spares K (defineLocal slot v) := by
  apply spares_frame.bind
  intro f
  exact (spares_setFrame _).bind fun _ => spares_onStack _

/-- The cell that is added is a new one. -/
theorem spares_captureLocal (slot : Nat) : Spares K (captureLocal slot) := by
  apply spares_frame.bind
  intro f
  apply (spares_onStack _).bind
  intro current
  have hpromote : HeapM.Spares K (f.promote slot current) := by
    unfold Frame.promote
    split
    · exact HeapM.spares_pure _
    · exact (HeapM.spares_newCell _).bind fun _ => HeapM.spares_pure _
  apply (spares_onHeap hpromote).bind
  rintro ⟨cell, created, f'⟩
  apply (spares_setFrame f').bind
  intro _
  cases created with
  | true => exact spares_charge.bind fun _ => spares_pure cell
  | false => exact spares_pure cell

/-! ## Whatever does not write -/

/-- Of all effects, only one is a write to an object that is there. -/
theorem Uses.spares {E : List Effect} {x : Exec α} (h : Uses E x) (hE : .write ∉ E) :
    Spares K x := by
  induction h with
  | pure a => exact spares_pure a
  | bind _ _ hx hk => exact hx.bind hk
  | throw _ => exact spares_throw _
  | withHeap _ ih => exact spares_get.bind fun m => ih m.heap
  | stackSize => exact spares_get.bind fun _ => spares_pure _
  | frame => exact spares_frame
  | constant index => exact spares_constant index
  | global index => exact spares_global index
  | ofExcept _ => exact spares_ofExcept _
  | onStack _ => exact spares_onStack _
  | onHeap h => exact spares_onHeap (h.spares fun hw => absurd hw hE)
  | setGlobal index v => exact spares_setGlobal index v
  | charge => exact spares_charge
  | defineLocal slot v => exact spares_defineLocal slot v
  | captureLocal slot => exact spares_captureLocal slot

/-- A builtin of the host may write, so the host has to spare the objects. -/
theorem spares_callBuiltin (hhost : host.Spares K) (b : Builtin) (callee : Nat) :
    Spares K (callBuiltin host b callee) :=
  (spares_onStack _).bind fun args => (spares_onHeap (HeapM.spares_call hhost b args)).bind
    fun result => (uses_replaceCallee callee result).spares (by decide)

theorem spares_leave (result : Value) : Spares K (leave result) := by
  apply spares_get.bind
  intro m
  split
  · exact spares_throw _
  refine Spares.bind (spares_modify fun _ => rfl) ?_
  intro _
  split
  · exact spares_pure _
  split
  · exact spares_throw _
  · exact (spares_onStack _).bind fun _ => (spares_onStack _).bind fun _ => spares_pure _

/-- An instruction without that effect spares the objects, if the host that it may call does. -/
theorem Performs.spares {op : Opcode} {target : Nat} {x : Exec α}
    (h : Performs host op target x) (hE : .write ∉ op.effects)
    (hhost : op = .call → host.Spares K) : Spares K x := by
  induction h with
  | uses h => exact h.spares hE
  | first hx _ ih => exact (hx.spares hE).bind ih
  | goOn _ ih => exact ih.bind fun _ => spares_pure none
  | jump => exact spares_jump target
  | enter _ f callee => exact spares_pushFrame _
  | builtin hop b callee => exact spares_callBuiltin (hhost hop) b callee
  | leave _ result => exact spares_leave result

/-- An instruction that is none of the three kinds writes to nothing. -/
theorem spares_execute (hhost : host.Spares K) {i : Instruction} (hindex : i.op ≠ .setIndex)
    (hlocal : i.op ≠ .setLocal) (hfree : i.op ≠ .setFree) : Spares K (execute host i) := by
  refine (performs_execute host i).spares ?_ fun _ => hhost
  rw [Opcode.write_mem_effects]
  rintro (h | h | h)
  · exact hindex h
  · exact hlocal h
  · exact hfree h

/-! ## The three kinds of instructions that write

What each of them writes to is known before it is executed: it is on the stack, in the table of the
activation or among the cells of the function.
-/

variable {f : Frame} {rest : List Frame}

theorem values_of_pop {v : Value} (h : pop m = .ok v m') :
    m.stack.values.back? = some v ∧ m'.stack.values = m.stack.values.pop := by
  rw [pop_eq] at h
  cases hb : m.stack.values.back? with
  | none =>
    rw [hb] at h
    cases h
  | some w =>
    rw [hb] at h
    cases h
    exact ⟨rfl, rfl⟩

/-- The receiver is beneath the key and the value. -/
theorem kept_writeIndex
    (h : ∀ receiver, m.stack.values.pop.pop.back? = some receiver →
      ∀ k i, receiver.object? = some (k, i) → ¬ K k i) :
    m.heap.Kept K (left (writeIndex m)).heap := by
  unfold writeIndex
  apply kept_bind (spares_pop m)
  intro v m₁ hv
  apply kept_bind (spares_pop m₁)
  intro key m₂ hkey
  apply kept_bind (spares_pop m₂)
  intro receiver m₃ hreceiver
  have hstack : m.stack.values.pop.pop.back? = some receiver := by
    rw [← (values_of_pop hv).2, ← (values_of_pop hkey).2]
    exact (values_of_pop hreceiver).1
  exact spares_onHeap (HeapM.spares_assign (h receiver hstack) key v) m₃

/-- A local without a cell is on the stack, and no object is written to. -/
theorem kept_setLocal (hf : m.frames = f :: rest) {slot : Nat}
    (hc : ∀ c, f.cell? slot = some c → ¬ K .cell c.index) (v : Value) :
    m.heap.Kept K (left (setLocal slot v m)).heap := by
  unfold setLocal
  rw [bind_eq, frame_eq hf]
  dsimp only
  cases hcell : f.cell? slot with
  | some c => exact spares_onHeap (HeapM.spares_setCell (hc c hcell) v) m
  | none => exact spares_onStack _ m

/-- The cell is the one that the function has captured. -/
theorem kept_setFree (hf : m.frames = f :: rest) {index : Nat}
    (hc : ∀ c, f.function.cells[index]? = some c → ¬ K .cell c.index) (v : Value) :
    m.heap.Kept K (left (setFree index v m)).heap := by
  have hfree : freeCell index m = ofExcept (f.function.free? index) m := by
    rw [freeCell, bind_eq, frame_eq hf]
  apply kept_bind ((uses_freeCell (E := []) index).spares (by decide) m)
  intro c m' hr
  rw [hfree, ofExcept_eq, Function.free?] at hr
  cases hcell : f.function.cells[index]? with
  | none =>
    rw [hcell] at hr
    cases hr
  | some c' =>
    rw [hcell] at hr
    cases hr
    exact spares_onHeap (HeapM.spares_setCell (hc c hcell) v) m

/-- What begins with taking a value from the stack, for the same activations. -/
theorem kept_pop (hf : m.frames = f :: rest) {k : Value → Exec Unit}
    (hk : ∀ v (m' : Machine), m'.frames = f :: rest → m'.heap.Kept K (left (k v m')).heap) :
    m.heap.Kept K (left (goOn (pop >>= k) m)).heap := by
  apply kept_bind
  · apply kept_bind (spares_pop m)
    intro v m' hr
    exact hk v m' ((frames_of_pop hr).trans hf)
  · intro _ m' _
    exact .refl m'.heap

end Exec

/-! ## Steps and runs -/

variable {f : Frame} {rest : List Frame}

/-- The object that is written to is told by the instruction that is fetched. -/
theorem Machine.target?_eq {i : Instruction} {next : Nat} (hf : m.frames = f :: rest)
    (hfetch : f.function.fetch f.ip = .instruction i next) :
    m.target? = match i.op with
      | .setIndex => m.stack.values.pop.pop.back?.bind Value.object?
      | .setLocal => (f.cell? i.first).map fun c => (.cell, c.index)
      | .setFree => f.function.cells[i.first]?.map fun c => (.cell, c.index)
      | _ => none := by
  unfold target?
  rw [hf, instruction?_eq hf hfetch]
  dsimp only [List.head?_cons, Option.bind_eq_bind, Option.bind_some]
  cases i.op <;> try rfl
  · cases f.cell? i.first <;> rfl
  · cases f.function.cells[i.first]? <;> rfl

/-- A step whose instruction spares the objects leaves them as they are, if the host does. -/
theorem Machine.Spares.step (hhost : host.Spares K) (hm : m.Spares K) :
    m.heap.Kept K (Exec.left (Exec.step host m)).heap := by
  cases hf : m.frames with
  | nil =>
    rw [Exec.step_of_no_frame host hf]
    exact .refl m.heap
  | cons f rest =>
    rw [Exec.step_eq host hf]
    cases hfetch : f.function.fetch f.ip with
    | fault e ip =>
      dsimp only [Exec.left]
      rw [heap_goTo]
      exact .refl m.heap
    | instruction i next =>
      have htarget := target?_eq hf hfetch
      have hframes := frames_goTo hf next
      have hheap : (m.goTo next).heap = m.heap := heap_goTo m next
      dsimp only
      rw [← hheap]
      unfold Spares at hm
      rw [htarget] at hm
      -- Three instructions write to objects, the others spare all of them.
      by_cases hindex : i.op = .setIndex
      · rw [hindex] at hm
        rw [Exec.execute, hindex]
        refine Exec.kept_bind (Exec.kept_writeIndex ?_) fun _ m' _ => .refl m'.heap
        intro receiver hreceiver k j hobject
        rw [stack_goTo] at hreceiver
        exact hm k j (by rw [hreceiver]; exact hobject)
      by_cases hlocal : i.op = .setLocal
      · rw [hlocal] at hm
        rw [Exec.execute, hlocal]
        apply Exec.kept_pop hframes
        intro v m' hf'
        apply Exec.kept_setLocal hf'
        intro c hc
        exact hm _ _ (by rw [show f.cell? i.first = some c from hc]; rfl)
      by_cases hfree : i.op = .setFree
      · rw [hfree] at hm
        rw [Exec.execute, hfree]
        apply Exec.kept_pop hframes
        intro v m' hf'
        apply Exec.kept_setFree hf'
        intro c hc
        exact hm _ _ (by rw [show f.function.cells[i.first]? = some c from hc]; rfl)
      exact Exec.spares_execute hhost hindex hlocal hfree _

/-- As long as no instruction of a run writes to them, the objects stay as they are. -/
theorem Machine.kept_of_run (hhost : host.Spares K) (steps : Nat)
    (hm : ∀ r, m.Reaches host r → r.Spares K) :
    m.heap.Kept K (Exec.left (m.run host steps)).heap := by
  induction steps generalizing m with
  | zero => exact .refl m.heap
  | succ steps ih =>
    have hstep := (hm m .start).step hhost
    rw [run]
    cases hs : Exec.step host m with
    | error e m' =>
      rw [hs] at hstep
      exact hstep
    | ok r m' =>
      rw [hs] at hstep
      cases r with
      | some v => exact hstep
      | none => exact hstep.trans (ih fun r hr => hm r (hr.cons hs))

/-! ## Runs of units and calls from outside -/

namespace Launch

/-- No instruction of the run writes to one of the objects. -/
def Spares (host : Host) (K : Objects) (l : Launch) (m : Machine) : Prop :=
  ∀ start r, l.enter m = .ok () start → start.Reaches host r → r.Spares K

theorem spares_enter (hhost : host.Spares K) (l : Launch) : Exec.Spares K l.enter := by
  cases l with
  | main f =>
    have hundefined : Exec.Uses [.put] (Exec.pushUndefined f.numLocals) :=
      Exec.uses_pushUndefined _ (by decide)
    exact (Exec.spares_pure ()).bind fun _ => (hundefined.spares (by decide)).bind fun _ =>
      Exec.spares_pushFrame _
  | call f args =>
    have hargs : Exec.Uses [.put] (do Exec.push (.function f); Exec.pushAll args) :=
      (Exec.uses_push _ (by decide)).bind fun _ => Exec.uses_pushAll args (by decide)
    have hsupply : Exec.Spares K (call f args).supply :=
      Exec.spares_get.bind fun _ => (Exec.spares_ofExcept _).bind fun _ =>
        (Exec.spares_ofExcept _).bind fun _ => (Exec.spares_pushFrame _).bind fun _ =>
          hargs.spares (by decide)
    have hstart : Exec.Performs host .call 0 (call f args).start :=
      Exec.performs_enterFunction f.function 0 args.length
    exact hsupply.bind fun _ => hstart.spares (by decide) fun _ => hhost

/-- A run or a call whose instructions spare the objects leaves them as they are, however it
ends. -/
theorem Spares.outcome (hhost : host.Spares K) {l : Launch} (hl : l.Spares host K m)
    (steps : Nat) : m.heap.Kept K (l.outcome host steps m).heap := by
  have henter := spares_enter hhost l m
  rw [Launch.outcome]
  cases hr : l.enter m with
  | error e m' =>
    rw [hr] at henter
    exact henter
  | ok _ start =>
    rw [hr] at henter
    have hrun := Machine.kept_of_run hhost steps fun r => hl start r hr
    have hheap : (Outcome.ofRun (start.run host steps)).heap =
        (Exec.left (start.run host steps)).heap := by
      cases start.run host steps <;> rfl
    dsimp only
    rw [hheap]
    exact henter.trans hrun

end Launch
end ScriptVM
