import ScriptVM.Proofs.Handles
import ScriptVM.Proofs.Rerun
import ScriptVM.Proofs.View

/-!
# What a failure leaves

A run or a call works on a snapshot of the globals, which is given up if it fails. The vector of the
handle is then what it was. Its values refer to the same containers as those of the snapshot,
though, and a container that an instruction has written to before the failure stays written.
`Heap.view` is what is seen of a value through arrays, maps and errors. After a failure it is the
same, at any depth, for every global in which no container has been written to.
-/

namespace ScriptVM

/-! ## What operations write to

A store is a heap with the vectors of the handles. What is said here is about the heap: which of its
objects have been written to when an operation is over.
-/

namespace StoreM

variable {α β : Type} {K : Objects}

/-- Whatever store the computation begins with, it leaves the objects of `K` as they are. -/
def Spares (K : Objects) (x : StoreM α) : Prop := ∀ s : Store, s.heap.Kept K (x.after s).heap

/-- What neither part writes to is not written to. -/
theorem Spares.bind {x : StoreM α} {k : α → StoreM β} (hx : Spares K x)
    (hk : ∀ a, Spares K (k a)) : Spares K (x >>= k) := by
  intro s
  have hfirst := hx s
  unfold after at hfirst ⊢
  rw [bind_eq]
  cases hr : x s with
  | ok a t =>
    rw [hr] at hfirst
    exact hfirst.trans (hk a t)
  | error e t =>
    rw [hr] at hfirst
    exact hfirst

theorem spares_pure (a : α) : Spares K (pure a : StoreM α) := fun s : Store => .refl s.heap

theorem spares_throw (e : Refusal) : Spares K (throw e : StoreM α) := fun s : Store => .refl s.heap

theorem spares_snapshot (g : Globals) : Spares K g.snapshot := fun s : Store => .refl s.heap

theorem spares_replace (g : Globals) (values : Array Value) : Spares K (g.replace values) :=
  fun s : Store => .refl s.heap

/-- The vectors are not on the heap, so overwriting one of their slots leaves all objects as they
are. -/
theorem spares_set (g : Globals) (slot : Nat) (v : Value) : Spares K (g.set slot v) := by
  apply (spares_snapshot g).bind
  intro values
  split
  · exact (spares_replace g _).bind fun _ => spares_pure true
  · exact spares_pure false

/-- Working on the heap of a store is working on a heap. -/
theorem spares_onHeap {x : HeapM α} (hx : HeapM.Spares K x) : Spares K (onHeap x) := by
  intro s
  have h := hx s.heap
  unfold HeapM.after at h
  unfold after onHeap
  rw [onRun_eq, RunM.onHeap]
  cases hr : x s.heap with
  | ok a h' =>
    rw [hr] at h
    exact h
  | error e h' =>
    rw [hr] at h
    exact h

/-- A call of what is no compiled function. -/
theorem spares_callWithGlobals {host : Host} (hhost : host.Spares K) {c : Context} {steps : Nat}
    {callee : Value} {args : List Value} (h : ∀ f, callee ≠ .function f) :
    Spares K (c.callWithGlobals host steps callee args) := by
  cases callee with
  | function f => exact absurd rfl (h f)
  | builtin b =>
    apply (spares_onHeap (HeapM.spares_call hhost b args)).bind
    intro result
    exact (spares_snapshot _).bind fun _ => spares_pure _
  | _ => exact spares_throw _

end StoreM

namespace Operation

variable {host : Host} {op : Operation} {s t : Store} {e : Refusal} {K : Objects}

/-- An operation that executes nothing. -/
theorem spares_perform (hhost : host.Spares K) (hjob : op.job? = none) :
    StoreM.Spares K (op.perform host) := by
  cases op with
  | run p steps => cases hjob
  | call c steps callee args =>
    have hcall : StoreM.Spares K (c.callWithGlobals host steps callee args) := by
      apply StoreM.spares_callWithGlobals hhost
      rintro f rfl
      cases hjob
    exact (hcall.bind fun _ => StoreM.spares_pure _).bind fun _ => StoreM.spares_pure _
  | callWithGlobals c steps callee args =>
    have hcall : StoreM.Spares K (c.callWithGlobals host steps callee args) := by
      apply StoreM.spares_callWithGlobals hhost
      rintro f rfl
      cases hjob
    exact hcall.bind fun _ => StoreM.spares_pure _
  | set p name v =>
    have hset : StoreM.Spares K (p.set name v) := by
      unfold Program.set
      split
      · exact (StoreM.spares_set _ _ v).bind fun _ => StoreM.spares_pure ()
      · exact StoreM.spares_throw _
    exact hset.bind fun _ => StoreM.spares_pure _
  | replaceGlobals p values =>
    have hreplace : StoreM.Spares K (p.replaceGlobals values) := by
      unfold Program.replaceGlobals
      split
      · exact StoreM.spares_replace _ values
      · exact StoreM.spares_throw _
    exact hreplace.bind fun _ => StoreM.spares_pure _
  | setSlot g slot v => exact (StoreM.spares_set g slot v).bind fun _ => StoreM.spares_pure _
  | replace g values => exact (StoreM.spares_replace g values).bind fun _ => StoreM.spares_pure _

/-- If the operation executes something, no instruction of it writes to one of the objects. -/
def Spares (host : Host) (K : Objects) (op : Operation) (s : Store) : Prop :=
  ∀ job, op.job? = some job →
    job.launch.Spares host K (.idle job.constants (s.vector op.handle) job.limits s.heap)

/-- Objects that no instruction writes to, and no function of the host either, stay as they
are. -/
theorem Spares.kept (hop : op.Spares host K s) (hhost : host.Spares K) :
    s.heap.Kept K ((op.perform host).after s).heap := by
  cases hjob : op.job? with
  | none => exact spares_perform hhost hjob s
  | some job =>
    have hkept := (hop job hjob).outcome hhost job.steps
    rcases ends_of_job host hjob s with ⟨v, -, hperform⟩ | ⟨e, -, hperform⟩
    · rw [StoreM.after_of_ok hperform]
      exact hkept
    · rw [StoreM.after_of_error hperform]
      exact hkept

/-! ## Operations that fail -/

/-- An operation that fails leaves all vectors alone. -/
theorem vectors_of_error (h : op.perform host s = .error e t) : t.vectors = s.vectors := by
  cases hjob : op.job? with
  | none =>
    rcases writesOrReads host hjob s with ⟨vs, r, -, hperform, -⟩ | ⟨-, hvectors⟩
    · rw [h] at hperform
      cases hperform
    · rwa [StoreM.after_of_error h] at hvectors
  | some job =>
    rcases ends_of_job host hjob s with ⟨v, -, hperform⟩ | ⟨e', -, hperform⟩
    · rw [h] at hperform
      cases hperform
    · rw [h] at hperform
      cases hperform
      rfl

/-- If an operation fails, its handle has the vector that it had. What is seen of a global is the
same at any depth, if no instruction has written to a container in it, and no function of the host
either. -/
theorem failure_leaves (h : op.perform host s = .error e t) :
    t.vector op.handle = s.vector op.handle ∧
      ∀ v ∈ s.vector op.handle, (∀ k i, s.heap.inside v k i → i < s.heap.count k) →
        host.Spares (s.heap.inside v) → op.Spares host (s.heap.inside v) s →
        ∀ depth, t.heap.view depth v = s.heap.view depth v := by
  refine ⟨Store.vector_congr (vectors_of_error h) _, ?_⟩
  intro v _ hbears hhost hop depth
  have hkept := hop.kept hhost
  rw [StoreM.after_of_error h] at hkept
  exact Heap.view_eq (fun k i hi => hkept.same k i hi (hbears k i hi)) depth

end Operation

/-! ### A write that outlasts the failure

The program overwrites the element of the array in its global, and then divides by zero. So does the
function among its constants, called through a context.
-/

def writesAndFails : Function :=
  .ofCode #[Opcode.getGlobal.byte, 0, 0, Opcode.constant.byte, 0, 0, Opcode.constant.byte, 0, 1,
    Opcode.setIndex.byte, Opcode.constant.byte, 0, 1, Opcode.constant.byte, 0, 0,
    Opcode.div.byte, Opcode.ret.byte, 1] 0 0

def unitOfLastingWrite : CompiledUnit where
  id := 0
  main := writesAndFails
  constants := #[.int 0, .int 9, .function ⟨1, writesAndFails⟩]

def programOfLastingWrite : Program := ⟨unitOfLastingWrite, ["a"], ⟨0⟩, {}⟩

def contextOfLastingWrite : Context := ⟨unitOfLastingWrite.constants, ⟨0⟩, unitOfLastingWrite, {}⟩

def heapOfLastingWrite (n : Int64) : Heap := { arrays := #[#[.int n]], identities := 2 }

/-- The vector refers to the same array as before, and the array holds the nine. -/
theorem failure_leavesWrite :
    programOfLastingWrite.run sampleHost 8 ⟨heapOfLastingWrite 1, #[#[.array ⟨0⟩]]⟩ =
      .error (.stop (.fault .divisionByZero)) ⟨heapOfLastingWrite 9, #[#[.array ⟨0⟩]]⟩ ∧
    contextOfLastingWrite.callWithGlobals sampleHost 8 (.function ⟨1, writesAndFails⟩) []
        ⟨heapOfLastingWrite 1, #[#[.array ⟨0⟩]]⟩ =
      .error (.stop (.fault .divisionByZero)) ⟨heapOfLastingWrite 9, #[#[.array ⟨0⟩]]⟩ ∧
    ∀ n, (heapOfLastingWrite n).view 2 (.array ⟨0⟩) = .array [.plain (.int n)] := by
  refine ⟨by decide +kernel, by decide +kernel, fun n => ?_⟩
  simp [Heap.view, Heap.arrayAt, heapOfLastingWrite]

/-! ### A write that does not matter

The program overwrites its second global and the element of an array that it has made itself, and
then divides by zero. In its first global, an error, are a map and an array.
-/

def unitOfOwnWrite : CompiledUnit where
  id := 0
  main := .ofCode #[Opcode.constant.byte, 0, 1, Opcode.setGlobal.byte, 0, 1,
    Opcode.constant.byte, 0, 1, Opcode.array.byte, 0, 1, Opcode.constant.byte, 0, 0,
    Opcode.constant.byte, 0, 0, Opcode.setIndex.byte, Opcode.constant.byte, 0, 1,
    Opcode.constant.byte, 0, 0, Opcode.div.byte, Opcode.halt.byte] 0 0
  constants := #[.int 0, .int 9]

def programOfOwnWrite : Program := ⟨unitOfOwnWrite, ["a", "b"], ⟨0⟩, {}⟩

def storeOfOwnWrite : Store where
  heap :=
    { arrays := #[#[.int 1]], maps := #[FieldMap.empty.insert "k" (.array ⟨0⟩)], identities := 1 }
  vectors := #[#[.error (.map ⟨0⟩), .int 3]]

/-- In the first global are the map and the array. -/
theorem inside_ownWrite {k : Kind} {i : Nat}
    (hi : storeOfOwnWrite.heap.inside (.error (.map ⟨0⟩)) k i) :
    (k = .map ∨ k = .array) ∧ i = 0 := by
  obtain ⟨w, hw, hobject⟩ := hi
  cases hw with
  | refl => cases hobject
  | payload hw =>
    cases hw with
    | refl =>
      cases hobject
      exact ⟨.inl rfl, rfl⟩
    | @field _ key v _ hv hw =>
      have hv : (key, v) ∈ [("k", Value.array ⟨0⟩)] := hv
      cases List.mem_singleton.1 hv
      cases hw with
      | refl =>
        cases hobject
        exact ⟨.inr rfl, rfl⟩
      | @element _ v _ hv hw =>
        have hv : v ∈ [Value.int 1] := Array.mem_toList_iff.2 hv
        cases List.mem_singleton.1 hv
        cases hw
        cases hobject

/-- The program writes to the array that it has made, and to no other object. -/
theorem Operation.spares_ownWrite :
    (run programOfOwnWrite 11).Spares sampleHost
      (storeOfOwnWrite.heap.inside (.error (.map ⟨0⟩))) storeOfOwnWrite := by
  intro job hjob start r hstart hr k i hi hinside
  cases hjob
  have hall : ∀ m ∈ (Launch.main unitOfOwnWrite.main).trail sampleHost 11
      (.idle unitOfOwnWrite.constants #[.error (.map ⟨0⟩), .int 3] {} storeOfOwnWrite.heap),
      m.target? = none ∨ m.target? = some (.array, 1) := by decide +kernel
  have hover : ((Launch.main unitOfOwnWrite.main).outcome sampleHost 11
      (.idle unitOfOwnWrite.constants #[.error (.map ⟨0⟩), .int 3] {}
        storeOfOwnWrite.heap)).result = .error (.fault .divisionByZero) := by decide +kernel
  rcases hall r (Launch.mem_trail hstart hr (by rw [hover]; nofun)) with hnone | hsome
  · rw [hnone] at hi
    cases hi
  · rw [hsome] at hi
    cases hi
    cases (inside_ownWrite hinside).2

/-- The second global has its value back, and the first one looks as it did at any depth. -/
theorem Operation.failure_leavesOwn :
    ∃ t, (run programOfOwnWrite 11).perform sampleHost storeOfOwnWrite =
        .error (.stop (.fault .divisionByZero)) t ∧
      t.heap.arrays = #[#[.int 1], #[.int 0]] ∧
      t.vector ⟨0⟩ = #[.error (.map ⟨0⟩), .int 3] ∧
      ∀ depth, t.heap.view depth (.error (.map ⟨0⟩)) =
        storeOfOwnWrite.heap.view depth (.error (.map ⟨0⟩)) := by
  have hrun : programOfOwnWrite.run sampleHost 11 storeOfOwnWrite =
      .error (.stop (.fault .divisionByZero)) { storeOfOwnWrite with
        heap := { storeOfOwnWrite.heap with arrays := #[#[.int 1], #[.int 0]] } } := by
    decide +kernel
  have hperform : (run programOfOwnWrite 11).perform sampleHost storeOfOwnWrite =
      .error (.stop (.fault .divisionByZero)) { storeOfOwnWrite with
        heap := { storeOfOwnWrite.heap with arrays := #[#[.int 1], #[.int 0]] } } := by
    show (programOfOwnWrite.run sampleHost 11 >>= fun v => pure (Response.result ⟨v, none⟩))
      storeOfOwnWrite = _
    rw [StoreM.bind_eq, hrun]
  have hplaced : ∀ k i, storeOfOwnWrite.heap.inside (.error (.map ⟨0⟩)) k i →
      i < storeOfOwnWrite.heap.count k := by
    intro k i hi
    obtain ⟨rfl | rfl, rfl⟩ := inside_ownWrite hi
    · decide
    · decide
  obtain ⟨hvector, hviews⟩ := failure_leaves hperform
  exact ⟨_, hperform, rfl, hvector,
    hviews _ (Array.mem_toList_iff.1 (.head _)) hplaced (spares_sampleHost _) spares_ownWrite⟩

end ScriptVM
