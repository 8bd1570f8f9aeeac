import ScriptVM.Proofs.Launch
import ScriptVM.Proofs.Promotion

/-!
# Runs that keep locals apart

A unit comes to the same whether its locals move into cells on demand or are in cells of their own
from the beginning: to the same result or fault, and in either case to the same globals. It has to
stay away from the stack slots of its locals except by naming them, as compiled code does.
-/

namespace ScriptVM

open Exec (left)

/-! ## Outcomes

A machine with other locals is started and run as the machine itself is, and what that comes to is
an outcome of the same kind. Two outcomes are compared with everything that they tell, so that a
fault is compared together with the globals that it has left.
-/

/-- What the run of a top-level function comes to, with locals kept in this way. -/
def Locals.outcome (l : Locals) (host : Host) (steps : Nat) (main : Function) (m : Machine) :
    Outcome :=
  match l.enterMain main m with
  | .ok _ m => .ofRun (l.run host steps m)
  | .error e m => ⟨.error (.fault e), m.globals, m.heap⟩

/-- The locals of the machine make no difference to its outcome. -/
theorem Locals.outcome_onDemand (host : Host) (steps : Nat) (main : Function) (m : Machine) :
    onDemand.outcome host steps main m = (Launch.main main).outcome host steps m := by
  unfold Locals.outcome Launch.outcome
  simp only [run_onDemand]
  rfl

/-- Two outcomes that differ in the numbering of objects only: related values or the same reason
that there is none, related globals, and related heaps. -/
structure Outcome.Related (ρ : Renaming) (o o' : Outcome) : Prop where
  result : Alike (Value.Related ρ) o.result o'.result
  globals : Values.Related ρ o.globals.toList o'.globals.toList
  heap : Heap.Related ρ o.heap o'.heap

/-- Machines that are related and run alike come to related outcomes. -/
theorem Outcome.related_ofRun {L : Linkage} {ρ : Renaming}
    {r r' : EStateM.Result Stop Machine Value} (h : L.Agrees ρ r r') :
    ∃ ρ', ρ ≤ ρ' ∧ Outcome.Related ρ' (.ofRun r) (.ofRun r') := by
  obtain ⟨v, v', ρ₁, m, m', rfl, rfl, hle, hr, hv⟩ | ⟨s, ρ₁, m, m', rfl, rfl, hle, hr⟩ := h.cases
  · exact ⟨ρ₁, hle, .ok hv, hr.globals, hr.heap⟩
  · exact ⟨ρ₁, hle, .error s, hr.globals, hr.heap⟩

/-! ## What is asked of a run

Compiled code keeps its locals at the bottom of an activation's part of the stack, and works above
them. Nothing else is needed for the two ways to keep locals to come to the same.
-/

/-- The executing activation and its next instruction. -/
def Machine.next? (m : Machine) : Option (Frame × Instruction) :=
  match m.frames with
  | [] => none
  | f :: _ =>
    match f.function.fetch f.ip with
    | .instruction i _ => some (f, i)
    | .fault .. => none

/-- The next instruction names locals of the executing activation only, and takes nothing from where
these are or from below. -/
def Machine.Tidy (m : Machine) : Prop :=
  ∀ p ∈ m.next?, (∀ slot ∈ p.2.locals m.constants, slot < p.1.function.numLocals) ∧
    ∀ j < m.stack.size, m.stack.size - p.2.takes m.stack.size ≤ j →
      p.1.base + p.1.function.numLocals ≤ j

instance (m : Machine) : Decidable m.Tidy :=
  inferInstanceAs <| Decidable <| ∀ p ∈ m.next?,
    (∀ slot ∈ p.2.locals m.constants, slot < p.1.function.numLocals) ∧
      ∀ j < m.stack.size, m.stack.size - p.2.takes m.stack.size ≤ j →
        p.1.base + p.1.function.numLocals ≤ j

/-- A unit and globals on a heap, where nothing refers to an object that is not there. -/
structure CompiledUnit.Placed (u : CompiledUnit) (globals : Array Value) (h : Heap) : Prop where
  main : u.main.Related (.same h) u.main
  constants : Values.Related (.same h) u.constants.toList u.constants.toList
  globals : Values.Related (.same h) globals.toList globals.toList
  heap : Heap.Related (.same h) h h

/-- What a tidy machine's next instruction takes is not a local. -/
theorem Machine.Tidy.fits {ρ : Renaming} {m m' : Machine} (ht : m.Tidy)
    (hr : promotion.Related ρ m m') {f : Frame} {rest : List Frame} {i : Instruction} {next : Nat}
    (hf : m.frames = f :: rest) (hfetch : f.function.fetch f.ip = .instruction i next) :
    promotion.Fits i m.outline := by
  obtain ⟨owner, f', rest', he⟩ := hr.executing hf
  have hnext : m.next? = some (f, i) := by
    unfold Machine.next?
    rw [hf]
    dsimp only
    rw [hfetch]
  obtain ⟨hlocals, htakes⟩ := ht (f, i) hnext
  refine ⟨fun j hj => ?_, fun slot hslot => ⟨f.place, ?_, hlocals slot hslot⟩⟩
  · rw [he.shape_eq] at hj
    rcases hj with hnil | hj
    · cases hnil
    · have hinside := hr.link.inside j (he.shape_eq ▸ hj)
      -- Were the slot among those taken, it would be above the locals.
      by_contra hlt
      have htaken : m.stack.size - i.takes m.stack.size ≤ j := by
        have hlt' : ¬ j + i.takes m.stack.size < m.stack.size := hlt
        omega
      have habove : f.base + f.function.numLocals ≤ j := htakes j hinside htaken
      rcases LocalOf.cons_iff.1 hj with ⟨-, hlow⟩ | hrest
      · exact Nat.not_lt.2 habove hlow
      · have := he.apart j hrest
        omega
  · rw [he.shape_eq]
    rfl

/-! ## Starting

Before the first step the locals of the top-level function are made: as elements of the stack on one
machine, and in new cells as well on the other.
-/

/-- Making room for locals changes nothing but the stack. -/
theorem Exec.left_pushUndefined (n : Nat) (m : Machine) :
    ∃ s, left (pushUndefined n m) = { m with stack := s } := by
  induction n generalizing m with
  | zero => exact ⟨m.stack, rfl⟩
  | succ n ih =>
    rw [pushUndefined, bind_eq, push_eq]
    by_cases hlt : m.stack.values.size < m.stack.capacity <;> simp only [hlt, if_true, if_false]
    · exact ih _
    · exact ⟨m.stack, rfl⟩

/-- Where there is room for them, so many values are appended to the stack. -/
theorem Exec.pushUndefined_ok {n : Nat} {m m₁ : Machine} {u : Unit}
    (h : pushUndefined n m = .ok u m₁) :
    m₁ = { m with
      stack := ⟨m.stack.values ++ Array.replicate n .undefined, m.stack.capacity⟩ } := by
  induction n generalizing m with
  | zero =>
    cases h
    simp
  | succ n ih =>
    obtain ⟨_, m₂, hpush, hrest⟩ := bind_eq_ok.1 h
    rw [push_eq] at hpush
    split at hpush
    · cases hpush
      rw [ih hrest, Array.replicate_succ']
      simp
    · cases hpush

/-- A machine without activations is related to itself. -/
theorem CompiledUnit.Placed.related {u : CompiledUnit} {globals : Array Value} {limits : Limits}
    {h : Heap} (hu : u.Placed globals h) (hallocs : limits.maxAllocs = none) (s : Stack) :
    promotion.Related (.same h) { Machine.idle u.constants globals limits h with stack := s }
      { Machine.idle u.constants globals limits h with stack := s } where
  constants := hu.constants
  stack := ⟨rfl, rfl, fun hi => absurd (.inl rfl) hi⟩
  frames := .nil
  maxFrames := rfl
  globals := hu.globals
  budget := rfl
  heap := hu.heap
  link := by
    refine ⟨hallocs, .nil, ?_, fun i => i, .nil⟩
    rintro i ⟨p, hp, -⟩
    cases hp

/-- The two machines start alike, or there is no room for the locals on either. -/
theorem related_enterMain {u : CompiledUnit} {globals : Array Value} {limits : Limits} {h : Heap}
    (hu : u.Placed globals h) (hallocs : limits.maxAllocs = none) :
    (∃ m m', Locals.onDemand.enterMain u.main (.idle u.constants globals limits h) = .ok () m ∧
        Locals.inCells.enterMain u.main (.idle u.constants globals limits h) = .ok () m' ∧
        promotion.Related (.same h) m m') ∨
      ∃ e m m', Locals.onDemand.enterMain u.main (.idle u.constants globals limits h) =
          .error e m ∧
        Locals.inCells.enterMain u.main (.idle u.constants globals limits h) = .error e m' ∧
        promotion.Related (.same h) m m' := by
  unfold Locals.enterMain
  rw [Exec.bind_eq, Exec.bind_eq]
  cases hpush : Exec.pushUndefined u.main.numLocals (.idle u.constants globals limits h) with
  | error e m =>
    obtain ⟨s, hs⟩ := Exec.left_pushUndefined u.main.numLocals
      (.idle u.constants globals limits h)
    rw [hpush] at hs
    have hm : m = { Machine.idle u.constants globals limits h with stack := s } := hs
    exact .inr ⟨e, m, m, rfl, rfl, hm ▸ hu.related hallocs s⟩
  | ok _ m =>
    have hm := Exec.pushUndefined_ok hpush
    have hr : promotion.Related (.same h) m m := hm ▸ hu.related hallocs _
    have hshape : m.outline.shape = [] := hm ▸ rfl
    have hvalues : m.stack.values = Array.replicate u.main.numLocals .undefined := by
      rw [hm]
      exact Array.empty_append
    have hundefined {i : Nat} {v : Value} (hv : m.stack.values[i]? = some v) : v = .undefined := by
      rw [hvalues, Array.getElem?_replicate] at hv
      split at hv
      · exact (Option.some.inj hv).symm
      · cases hv
    -- No value is on the stack yet but `undefined`, so that no renaming can tell the stacks apart.
    have hstack : m.stack.Related (LocalOf m.outline.shape) (.same h) m.stack := by
      refine ⟨rfl, rfl, fun _ hv hv' => ?_⟩
      rw [hundefined hv, hundefined hv']
      exact .undefined
    have hapart (p : Function × Nat) (hp : p ∈ m.outline.shape) : Apart (u.main, 0) p := by
      rw [hshape] at hp
      cases hp
    have hsize : 0 + u.main.numLocals ≤ m.stack.size := by
      simp [Stack.size, hvalues]
    dsimp only
    obtain ⟨m₁, m₁', hx, hy, hr₁, -⟩ | ⟨e, m₁, m₁', hx, hy, hr₁⟩ :=
      Locals.enter_alike hr hu.main hstack hapart hsize
    · exact .inl ⟨m₁, m₁', hx, hy, hr₁⟩
    · exact .inr ⟨e, m₁, m₁', hx, hy, hr₁⟩

/-- Locals that move into cells when they are captured cannot be told from locals that are in cells
of their own from the beginning: a unit that is run without an allocation limit, and that stays away
from its local slots but for naming them, comes to the same result or fault and to the same globals,
up to the numbering of new objects. The functions of the host may keep state on the heap, as long as
they do not look at the numbers of objects that are made after the beginning of the run. -/
theorem CompiledUnit.outcome_related_inCells {host : Host} {u : CompiledUnit}
    {globals : Array Value} {limits : Limits} {h : Heap}
    (hhost : HeapM.UniformIn (World.Grows ⟨.same h, h, h⟩) host)
    (hallocs : limits.maxAllocs = none) (hu : u.Placed globals h)
    (htidy : ∀ start m, Machine.ofUnit u globals limits h = .ok start → start.Reaches host m →
      m.Tidy) (steps : Nat) :
    ∃ ρ, .same h ≤ ρ ∧
      Outcome.Related ρ
        ((Launch.main u.main).outcome host steps (.idle u.constants globals limits h))
        (Locals.inCells.outcome host steps u.main (.idle u.constants globals limits h)) := by
  rw [← Locals.outcome_onDemand]
  unfold Locals.outcome
  obtain ⟨m, m', hx, hy, hstart⟩ | ⟨e, m, m', hx, hy, hend⟩ := related_enterMain hu hallocs
  · rw [hx, hy]
    dsimp only
    have hof : Machine.ofUnit u globals limits h = .ok m := by
      unfold Machine.ofUnit
      rw [show Exec.enterMain u.main = Locals.onDemand.enterMain u.main from rfl, hx]
    have hrun := Locals.lawful.run hhost.above
      (T := fun m₁ => m.Reaches host m₁)
      (fun m₁ m₂ hr hs => hr.step (Locals.step_onDemand host ▸ hs))
      (fun hr hrel f rest i next hf hfetch => (htidy m _ hof hr).fits hrel hf hfetch)
      (le_refl _) .start hstart steps
    exact Outcome.related_ofRun hrun
  · rw [hx, hy]
    exact ⟨.same h, le_refl _, .error _, hend.globals, hend.heap⟩

/-! ### A local that is written after it has been captured

The closure reads what the top-level function has written to its local in the meantime: the slot of
the local on the stack is out of date by then. What is written comes from a function of the host
that counts its calls, in a cell that was on the heap before the run.
-/

/-- The next number; what is not a number stays as it is. -/
def Value.countedUp : Value → Value
  | .int n => .int (n + 1)
  | v => v

/-- A host whose functions count their calls in the first cell of the heap, and answer with the
count so far. -/
def countingHost : Host := fun _ _ => do
  let count := (← get).cellAt ⟨0⟩
  modify fun h => h.setCell ⟨0⟩ count.countedUp
  return count

/-- Numbers refer to nothing, so the next one is the same on both sides. -/
theorem Value.countedUp_related {ρ : Renaming} {v v' : Value} (hv : v.Related ρ v') :
    v.countedUp.Related ρ v'.countedUp := by
  cases hv with
  | int n => exact .int (n + 1)
  | undefined => exact .undefined
  | bool b => exact .bool b
  | float x => exact .float x
  | string s => exact .string s
  | array hrel => exact .array hrel
  | map hrel => exact .map hrel
  | error hv => exact .error hv
  | function hid hf => exact .function hid hf
  | builtin b => exact .builtin b

/-- Counting is uniform where the cell of the count stands for itself, as it does in all worlds that
have grown from a heap with the cell. -/
theorem uniformIn_countingHost {h : Heap} (hcell : 0 < h.cells.size) :
    HeapM.UniformIn (World.Grows ⟨.same h, h, h⟩) countingHost := by
  intro f w args args' hg _
  have hrel : w.ρ.rel .cell 0 0 := hg.le _ _ _ ⟨rfl, hcell⟩
  refine HeapM.sim_get.bind fun w₁ h₁ h₁' hg₁ hget => ?_
  obtain ⟨hv, rfl, rfl⟩ := hget
  have hrel₁ : w₁.ρ.rel .cell 0 0 := hg₁.le _ _ _ hrel
  have hcount : (w₁.left.cellAt ⟨0⟩).Related w₁.ρ (w₁.right.cellAt ⟨0⟩) := hv.contents hrel₁
  have hset := HeapM.sim_setCell (w := w₁) (c := ⟨0⟩) (d := ⟨0⟩) hrel₁
    (Value.countedUp_related hcount)
  refine hset.bind fun w₂ _ _ hg₂ _ => HeapM.sim_pure fun w₃ hg₃ => ?_
  exact hcount.mono (hg₂.le.trans hg₃.le)

def writesCaptured : CompiledUnit where
  id := 0
  main := .ofCode #[Opcode.closure.byte, 0, 0, Opcode.constant.byte, 0, 1, Opcode.call.byte, 0, 0,
    Opcode.setLocal.byte, 0, Opcode.call.byte, 0, 0, Opcode.halt.byte] 1 0
  constants := #[.function ⟨0, .readsCaptured⟩, .builtin (.host ⟨1, "count"⟩)]

/-- The heap that the constants are on, with the cell of the count. -/
def heapOfCount : Heap := { cells := #[.int 7], identities := 2 }

def startOfWritesCaptured : Machine :=
  { Machine.idle writesCaptured.constants #[.bool true] {} heapOfCount with
    stack := ⟨#[.undefined], 2048⟩
    frames := [.start writesCaptured.main 0] }

/-- Nothing in the constants or the globals refers to an object that is not there. -/
theorem placed_writesCaptured : writesCaptured.Placed #[.bool true] heapOfCount where
  main := ⟨rfl, .nil⟩
  constants := .cons (.function ⟨rfl, by decide⟩ ⟨rfl, .nil⟩) (.cons (.builtin _) .nil)
  globals := .cons (.bool true) .nil
  heap := by
    refine ⟨fun hrel => ?_, fun {k a b} hrel => ?_⟩
    · obtain ⟨rfl, hlt⟩ := hrel
      exact ⟨hlt, hlt⟩
    · obtain ⟨rfl, hlt⟩ := hrel
      cases k with
      | identity => trivial
      | cell =>
        obtain rfl : a = 0 := Nat.lt_one_iff.1 hlt
        exact .int 7
      | _ => exact absurd hlt (Nat.not_lt_zero _)

/-- The machine is followed step by step, and each instruction on the way is tidy. -/
theorem tidy_writesCaptured {m : Machine} (h : startOfWritesCaptured.Reaches countingHost m) :
    m.Tidy := by
  have hover : startOfWritesCaptured.isOver countingHost 8 = true := by decide +kernel
  have hall : ∀ m ∈ startOfWritesCaptured.trail countingHost 8, m.Tidy := by decide +kernel
  exact hall m (h.mem_trail hover)

/-- Both machines run the unit to the same, with a host that keeps state. -/
theorem outcome_writesCaptured :
    ∃ ρ, .same heapOfCount ≤ ρ ∧
      Outcome.Related ρ
        ((Launch.main writesCaptured.main).outcome countingHost 8
          (.idle writesCaptured.constants #[.bool true] {} heapOfCount))
        (Locals.inCells.outcome countingHost 8 writesCaptured.main
          (.idle writesCaptured.constants #[.bool true] {} heapOfCount)) := by
  have hstart : Machine.ofUnit writesCaptured #[.bool true] {} heapOfCount =
      .ok startOfWritesCaptured := rfl
  refine CompiledUnit.outcome_related_inCells (uniformIn_countingHost (by decide)) rfl
    placed_writesCaptured (fun start m hs hr => ?_) 8
  rw [hstart] at hs
  cases hs
  exact tidy_writesCaptured hr

end ScriptVM
