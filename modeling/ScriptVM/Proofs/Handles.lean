import ScriptVM.Builtin.Sample
import ScriptVM.Proofs.NoPanic
import ScriptVM.Proofs.Session

/-!
# Handles are independent stores

A handle refers to one vector of globals. Whatever is done through it begins with the vector that
was left there the last time, and gets at no other vector. A run works on a snapshot: what it has
made of the globals is written back as a whole if it ends with a value, and is lost otherwise.
-/

namespace ScriptVM

variable {host : Host}

/-! ## Globals at the end of a run

What is written back has as many globals as the vector had, since no instruction adds or removes
any.
-/

/-- A run keeps what each of its steps keeps. -/
theorem Machine.kept_run {m m' : Machine} {steps : Nat} {v : Value}
    (h : m.run host steps = .ok v m') : m.Kept m' := by
  induction steps generalizing m with
  | zero => cases h
  | succ steps ih =>
    have hkept := Exec.kept_step host m
    rw [run] at h
    cases hs : Exec.step host m with
    | error e m₁ =>
      rw [hs] at h
      cases h
    | ok r m₁ =>
      rw [hs] at h hkept
      cases r with
      | none => exact hkept.trans (ih h)
      | some w =>
        cases h
        exact hkept

theorem Launch.kept_enter {l : Launch} {pool globals : Array Value} {limits : Limits} {heap : Heap}
    {start : Machine} (h : l.enter (.idle pool globals limits heap) = .ok () start) :
    (Machine.idle pool globals limits heap).Kept start := by
  cases l with
  | main f =>
    have hraised : Exec.Ensures ((Machine.idle pool globals limits heap).Holds [] 0) (main f).enter
        (fun _ => (Machine.idle pool globals limits heap).Holds [.start f 0] (0 + f.numLocals))
        fun _ _ => True :=
      (Exec.raises_pushUndefined _).anyFault.bind fun _ => (Exec.holds_pushFrame _).anyFault
    exact (hraised.ok holds_idle h).kept
  | call f args =>
    obtain ⟨_, m, hsupply, hstart⟩ := Exec.bind_eq_ok.1 h
    have hm := (holds_supply f args).ok holds_idle hsupply
    exact ((Exec.room_of_enterFunction f.function 0 args.length).ok hm hstart).1

/-- A run that ends with a value leaves as many globals as it has begun with. -/
theorem Job.size_globals {job : Job} {globals : Array Value} {heap : Heap} {v : Value}
    (h : (job.outcome host globals heap).result = .ok v) :
    (job.outcome host globals heap).globals.size = globals.size := by
  unfold outcome Launch.outcome at h ⊢
  cases hstart : job.launch.enter (.idle job.constants globals job.limits heap) with
  | error e m =>
    rw [hstart] at h
    cases h
  | ok _ start =>
    rw [hstart] at h
    dsimp only at h ⊢
    cases hrun : start.run host job.steps with
    | error e m =>
      rw [hrun] at h
      cases h
    | ok w m => exact (Machine.kept_run hrun).globals.trans (Launch.kept_enter hstart).globals

/-! ## What the operations do to the store

Each operation is a short program over the store. Said as an equation, it is a look at a vector, or
the overwriting of one as a whole.
-/

def Store.put (s : Store) (g : Globals) (vs : Array Value) : Store :=
  ⟨s.heap, s.vectors.setIfInBounds g.index vs⟩

theorem Globals.snapshot_eq (g : Globals) (s : Store) : g.snapshot s = .ok (s.vector g) s := rfl

theorem Globals.set_eq (g : Globals) (slot : Nat) (v : Value) (s : Store) :
    g.set slot v s = match Operation.withSlot? (s.vector g) slot v with
      | some vs => .ok true (s.put g vs)
      | none => .ok false s := by
  unfold set Operation.withSlot?
  rw [StoreM.bind_eq, snapshot_eq]
  dsimp only
  by_cases hlt : slot < (s.vector g).size <;> simp only [hlt, if_true, if_false]
  · rfl
  · rfl

/-- A name that the program does not have is refused. One that it has may still be beyond the end of
its vector, and then nothing is written. -/
theorem Program.set_eq (p : Program) (name : String) (v : Value) (s : Store) :
    p.set name v s = match p.slotOf? name with
      | some slot =>
        match Operation.withSlot? (s.vector p.globals) slot v with
        | some vs => .ok () (s.put p.globals vs)
        | none => .ok () s
      | none => .error (.unknownGlobal name) s := by
  unfold set
  cases p.slotOf? name with
  | none => rfl
  | some slot =>
    show (p.globals.set slot v >>= fun _ => pure ()) s = _
    rw [StoreM.bind_eq, Globals.set_eq]
    dsimp only
    cases Operation.withSlot? (s.vector p.globals) slot v with
    | some vs => rfl
    | none => rfl

theorem Program.replaceGlobals_eq (p : Program) (values : Array Value) (s : Store) :
    p.replaceGlobals values s =
      if values.size = p.names.length then .ok () (s.put p.globals values)
      else StoreM.fault (.invalidGlobalsArray ("expected " ++ toString p.names.length ++
        " globals, got " ++ toString values.size) none) s := by
  unfold replaceGlobals
  split
  · rfl
  · rfl

/-- Executes something on the vector of a handle. What has become of the globals is written back if
there is a value. -/
def Job.perform (host : Host) (job : Job) (g : Globals) : StoreM (Value × Array Value) := fun s =>
  let o := job.outcome host (s.vector g) s.heap
  match o.result with
  | .ok v => .ok (v, o.globals) (Store.put ⟨o.heap, s.vectors⟩ g o.globals)
  | .error e => .error (.stop e) ⟨o.heap, s.vectors⟩

theorem Program.run_eq (p : Program) (steps : Nat) :
    p.run host steps = return (← (p.job steps).perform host p.globals).1 := by
  funext s
  show (p.globals.snapshot >>= fun before => _) s = _
  rw [StoreM.bind_eq, StoreM.bind_eq, Globals.snapshot_eq]
  dsimp only
  rw [StoreM.bind_eq, StoreM.onRun_eq, Launch.run_eq_outcome]
  unfold Job.perform Job.outcome job
  dsimp only
  generalize Launch.outcome host steps _ _ = o
  obtain ⟨_ | v, globals, heap⟩ := o
  · rfl
  · rfl

/-- A compiled function is called on a snapshot of the context's globals. -/
theorem Context.callWithGlobals_function (c : Context) (steps : Nat) (f : FunctionObject)
    (args : List Value) :
    c.callWithGlobals host steps (.function f) args =
      (c.job steps f args).perform host c.globals := by
  funext s
  show (c.globals.snapshot >>= fun before => _) s = _
  rw [StoreM.bind_eq, Globals.snapshot_eq]
  dsimp only
  rw [StoreM.bind_eq, StoreM.onRun_eq, Launch.invoke_eq_outcome]
  unfold Job.perform Job.outcome job
  dsimp only
  generalize Launch.outcome host steps _ _ = o
  obtain ⟨_ | v, globals, heap⟩ := o
  · rfl
  · rfl

/-- Only the vectors of a store are handed out. -/
theorem Store.vector_congr {s t : Store} (h : t.vectors = s.vectors) (g : Globals) :
    t.vector g = s.vector g := by
  rw [vector, vector, h]

/-! ## What an operation does to the vectors -/

namespace StoreM

variable {α β : Type}

/-- The computation leaves all vectors alone. -/
def Reads (x : StoreM α) : Prop := ∀ s, (x.after s).vectors = s.vectors

/-- Looking twice changes nothing either. -/
theorem Reads.bind {x : StoreM α} {k : α → StoreM β} (hx : Reads x) (hk : ∀ a, Reads (k a)) :
    Reads (x >>= k) := by
  intro s
  have hfirst := hx s
  unfold after at hfirst ⊢
  rw [bind_eq]
  cases hr : x s with
  | ok a t =>
    rw [hr] at hfirst
    exact (hk a t).trans hfirst
  | error e t =>
    rw [hr] at hfirst
    exact hfirst

theorem reads_pure (a : α) : Reads (pure a : StoreM α) := fun _ => rfl

theorem reads_fault (f : Fault) : Reads (fault f : StoreM α) := fun _ => rfl

/-- The heap is not where the vectors are. -/
theorem reads_onHeap (x : HeapM α) : Reads (onHeap x) := by
  intro s
  unfold after onHeap
  rw [onRun_eq]
  cases RunM.onHeap x s.heap with
  | ok a h => rfl
  | error e h => rfl

theorem reads_snapshot (g : Globals) : Reads g.snapshot := fun _ => rfl

end StoreM

namespace Operation

variable {op : Operation} {s : Store}

/-- An operation that executes something is answered with what comes of it. -/
theorem perform_of_job {job : Job} (hjob : op.job? = some job) :
    op.perform host = do
      let (v, globals) ← job.perform host op.handle
      return .result ⟨v, op.answered? globals⟩ := by
  cases op with
  | run p steps =>
    cases hjob
    show (p.run host steps >>= fun v => pure (Response.result ⟨v, none⟩)) = _
    rw [Program.run_eq, bind_assoc]
    rfl
  | call c steps callee args =>
    cases callee with
    | function f =>
      cases hjob
      show (do return (← c.callWithGlobals host steps (.function f) args).1) >>=
        (fun v => pure (Response.result ⟨v, none⟩)) = _
      rw [Context.callWithGlobals_function, bind_assoc]
      rfl
    | _ => cases hjob
  | callWithGlobals c steps callee args =>
    cases callee with
    | function f =>
      cases hjob
      show c.callWithGlobals host steps (.function f) args >>=
        (fun r => pure (Response.result ⟨r.1, some r.2⟩)) = _
      rw [Context.callWithGlobals_function]
      rfl
    | _ => cases hjob
  | set p name v => cases hjob
  | replaceGlobals p values => cases hjob
  | setSlot g slot v => cases hjob
  | replace g values => cases hjob

/-- A call of what is no compiled function leaves all vectors alone. -/
theorem reads_callWithGlobals {c : Context} {steps : Nat} {callee : Value} {args : List Value}
    (h : ∀ f, callee ≠ .function f) : StoreM.Reads (c.callWithGlobals host steps callee args) := by
  cases callee with
  | function f => exact absurd rfl (h f)
  | builtin b =>
    apply (StoreM.reads_onHeap _).bind
    intro result
    exact (StoreM.reads_snapshot _).bind fun _ => StoreM.reads_pure _
  | _ => exact StoreM.reads_fault _

/-- The operation overwrites the vector, and then it is not refused, or leaves all vectors alone. -/
def WritesOrReads (host : Host) (op : Operation) (s : Store) : Prop :=
  (∃ vs r, op.written? (s.vector op.handle) = some vs ∧
    op.perform host s = .ok r (s.put op.handle vs) ∧ r ≠ .isThere false) ∨
  op.written? (s.vector op.handle) = none ∧ ((op.perform host).after s).vectors = s.vectors

/-- An unknown name is refused before anything is written. -/
theorem writesOrReads_set (p : Program) (name : String) (v : Value) (s : Store) :
    (set p name v).WritesOrReads host s := by
  have hwritten : (set p name v).written? (s.vector p.globals) =
      (p.slotOf? name).bind fun slot => withSlot? (s.vector p.globals) slot v := rfl
  have hperform := StoreM.bind_eq (p.set name v) (fun _ => pure Response.done) s
  rw [Program.set_eq] at hperform
  cases hslot : p.slotOf? name with
  | none =>
    rw [hslot] at hwritten hperform
    exact .inr ⟨hwritten, congrArg Store.vectors (StoreM.after_of_error hperform)⟩
  | some slot =>
    rw [hslot] at hwritten hperform
    dsimp only at hperform
    cases hvs : withSlot? (s.vector p.globals) slot v with
    | none =>
      rw [hvs] at hperform
      exact .inr ⟨hwritten.trans hvs, congrArg Store.vectors (StoreM.after_of_ok hperform)⟩
    | some vs =>
      rw [hvs] at hperform
      exact .inl ⟨vs, .done, hwritten.trans hvs, hperform, nofun⟩

theorem writesOrReads_replaceGlobals (p : Program) (values : Array Value) (s : Store) :
    (replaceGlobals p values).WritesOrReads host s := by
  have hwritten : (replaceGlobals p values).written? (s.vector p.globals) =
      if values.size = p.names.length then some values else none := rfl
  have hperform := StoreM.bind_eq (p.replaceGlobals values) (fun _ => pure Response.done) s
  rw [Program.replaceGlobals_eq] at hperform
  by_cases hsize : values.size = p.names.length
  · rw [if_pos hsize] at hwritten hperform
    exact .inl ⟨values, .done, hwritten, hperform, nofun⟩
  · rw [if_neg hsize] at hwritten hperform
    exact .inr ⟨hwritten, congrArg Store.vectors (StoreM.after_of_error hperform)⟩

theorem writesOrReads_setSlot (g : Globals) (slot : Nat) (v : Value) (s : Store) :
    (setSlot g slot v).WritesOrReads host s := by
  have hperform := StoreM.bind_eq (g.set slot v) (fun there => pure (Response.isThere there)) s
  rw [Globals.set_eq] at hperform
  cases hvs : withSlot? (s.vector g) slot v with
  | none =>
    rw [hvs] at hperform
    exact .inr ⟨hvs, congrArg Store.vectors (StoreM.after_of_ok hperform)⟩
  | some vs =>
    rw [hvs] at hperform
    exact .inl ⟨vs, .isThere true, hvs, hperform, nofun⟩

/-- What executes nothing writes or reads. -/
theorem writesOrReads (host : Host) (hjob : op.job? = none) (s : Store) :
    op.WritesOrReads host s := by
  cases op with
  | run p steps => cases hjob
  | call c steps callee args =>
    have hread : StoreM.Reads (c.callWithGlobals host steps callee args) := by
      apply reads_callWithGlobals
      rintro f rfl
      cases hjob
    have hcall := (hread.bind fun r => StoreM.reads_pure r.1).bind fun v =>
      StoreM.reads_pure (Response.result ⟨v, none⟩)
    exact .inr ⟨rfl, hcall s⟩
  | callWithGlobals c steps callee args =>
    have hread : StoreM.Reads (c.callWithGlobals host steps callee args) := by
      apply reads_callWithGlobals
      rintro f rfl
      cases hjob
    have hcall := hread.bind fun r => StoreM.reads_pure (Response.result ⟨r.1, some r.2⟩)
    exact .inr ⟨rfl, hcall s⟩
  | set p name v => exact writesOrReads_set p name v s
  | replaceGlobals p values => exact writesOrReads_replaceGlobals p values s
  | setSlot g slot v => exact writesOrReads_setSlot g slot v s
  | replace g values => exact .inl ⟨values, .done, rfl, rfl, nofun⟩

/-- It has written the globals back if there is a value. -/
theorem ends_of_job (host : Host) {job : Job} (hjob : op.job? = some job) (s : Store) :
    let o := job.outcome host (s.vector op.handle) s.heap
    (∃ v, o.result = .ok v ∧ op.perform host s = .ok (.result ⟨v, op.answered? o.globals⟩)
      (Store.put ⟨o.heap, s.vectors⟩ op.handle o.globals)) ∨
    ∃ e, o.result = .error e ∧ op.perform host s = .error (.stop e) ⟨o.heap, s.vectors⟩ := by
  rw [perform_of_job hjob, StoreM.bind_eq]
  unfold Job.perform
  dsimp only
  cases (job.outcome host (s.vector op.handle) s.heap).result with
  | ok v => exact .inl ⟨v, rfl, rfl⟩
  | error e => exact .inr ⟨e, rfl, rfl⟩

/-- An operation overwrites the vector of its handle or none. -/
theorem vectors_after (host : Host) (op : Operation) (s : Store) :
    (∃ vs, ((op.perform host).after s).vectors = s.vectors.setIfInBounds op.handle.index vs) ∨
      ((op.perform host).after s).vectors = s.vectors := by
  cases hjob : op.job? with
  | none =>
    rcases writesOrReads host hjob s with ⟨vs, r, -, hperform, -⟩ | ⟨-, hvectors⟩
    · exact .inl ⟨vs, congrArg Store.vectors (StoreM.after_of_ok hperform)⟩
    · exact .inr hvectors
  | some job =>
    rcases ends_of_job host hjob s with ⟨v, -, hperform⟩ | ⟨e, -, hperform⟩
    · exact .inl ⟨_, congrArg Store.vectors (StoreM.after_of_ok hperform)⟩
    · rw [StoreM.after_of_error hperform]
      exact .inr rfl

/-- Operations add no vectors. That is left to makings. -/
theorem size_after (host : Host) (op : Operation) (s : Store) :
    ((op.perform host).after s).vectors.size = s.vectors.size := by
  rcases op.vectors_after host s with ⟨vs, h⟩ | h
  · rw [h, Array.size_setIfInBounds]
  · rw [h]

/-- No other handle gets to know of an operation. -/
theorem vector_after_of_ne (op : Operation) (s : Store) {g : Globals} (hne : g ≠ op.handle) :
    ((op.perform host).after s).vector g = s.vector g := by
  rcases op.vectors_after host s with ⟨vs, h⟩ | h
  · rw [Store.vector, h]
    exact Store.vector_overwritten_of_ne s.heap vs hne
  · exact Store.vector_congr h g

end Operation

/-- What an operation is in a store: it begins with the vector of its handle, and overwrites this
one or none. -/
structure Operation.Behaves (host : Host) (op : Operation) (s : Store) : Prop where
  /-- A run or a call of a compiled function. The globals are written back if there is a value. -/
  executes : ∀ job, op.job? = some job →
    let o := job.outcome host (s.vector op.handle) s.heap
    match o.result with
    | .ok v => ∃ t, op.perform host s = .ok (.result ⟨v, op.answered? o.globals⟩) t ∧
        t.heap = o.heap ∧ t.vector op.handle = o.globals ∧
        o.globals.size = (s.vector op.handle).size
    | .error e => ∃ t, op.perform host s = .error (.stop e) t ∧ t.heap = o.heap ∧
        t.vector op.handle = s.vector op.handle
  writes : op.job? = none → ((op.perform host).after s).vector op.handle =
    (op.written? (s.vector op.handle)).getD (s.vector op.handle)
  builtin : ∀ b, op.callee? = some (.builtin b) →
    ((op.perform host).after s).vector op.handle = s.vector op.handle
  refused : op.Refused host s →
    ((op.perform host).after s).vector op.handle = s.vector op.handle
  others : ∀ g, g ≠ op.handle → ((op.perform host).after s).vector g = s.vector g

/-- Whether something is executed or not, the operation is one of its handle. -/
theorem Operation.behaves (op : Operation) {s : Store}
    (hplace : op.handle.index < s.vectors.size) : op.Behaves host s where
  executes job hjob := by
    dsimp only
    rcases ends_of_job host hjob s with ⟨v, hv, hperform⟩ | ⟨e, he, hperform⟩
    · have hvector := Store.vector_overwritten
        (job.outcome host (s.vector op.handle) s.heap).heap
        (job.outcome host (s.vector op.handle) s.heap).globals hplace
      rw [hv]
      exact ⟨_, hperform, rfl, hvector, job.size_globals hv⟩
    · rw [he]
      exact ⟨_, hperform, rfl, rfl⟩
  writes hjob := by
    rcases writesOrReads host hjob s with ⟨vs, r, hvs, hperform, -⟩ | ⟨hvs, hvectors⟩
    · rw [hvs, StoreM.after_of_ok hperform]
      exact Store.vector_overwritten s.heap vs hplace
    · rw [hvs]
      exact Store.vector_congr hvectors _
  builtin b hb := by
    have hjob : op.job? = none ∧ op.written? (s.vector op.handle) = none := by
      cases op <;> cases hb <;> exact ⟨rfl, rfl⟩
    rcases writesOrReads host hjob.1 s with ⟨vs, r, hvs, -⟩ | ⟨-, hvectors⟩
    · rw [hjob.2] at hvs
      cases hvs
    · exact Store.vector_congr hvectors _
  refused href := by
    unfold Refused at href
    cases hjob : op.job? with
    | none =>
      rcases writesOrReads host hjob s with ⟨vs, r, -, hperform, hr⟩ | ⟨-, hvectors⟩
      · rw [hperform] at href
        exact absurd href hr
      · exact Store.vector_congr hvectors _
    | some job =>
      rcases ends_of_job host hjob s with ⟨v, -, hperform⟩ | ⟨e, -, hperform⟩
      · rw [hperform] at href
        cases href
      · rw [StoreM.after_of_error hperform]
        rfl
  others g hne := op.vector_after_of_ne s hne

/-! ## What is made

A program, a context or a handle is made with a handle that there is, or with one to a new vector.
Which of the two is settled by the making, not by its arguments.
-/

namespace StoreM

variable {α β : Type} {handle : α → Globals} {handle' : β → Globals}

/-- The computation makes something with a given handle, and leaves all vectors alone. -/
def Hands (x : StoreM α) (handle : α → Globals) (g : Globals) : Prop :=
  ∀ s, match x s with
    | .ok a t => handle a = g ∧ t.vectors = s.vectors
    | .error _ t => t.vectors = s.vectors

theorem hands_pure {a : α} {g : Globals} (h : handle a = g) : Hands (pure a) handle g :=
  fun _ => ⟨h, rfl⟩

theorem hands_ofExcept {r : Except Fault α} {g : Globals} (h : ∀ a, r = .ok a → handle a = g) :
    Hands (ofExcept r) handle g := by
  cases r with
  | ok a => exact hands_pure (h a rfl)
  | error e => exact fun _ => rfl

/-- The computation makes something on a vector of its own, which is added to those there are. -/
def Opens (x : StoreM α) (handle : α → Globals) : Prop :=
  ∀ s, match x s with
    | .ok a t => handle a = ⟨s.vectors.size⟩ ∧ ∃ vs, t.vectors = s.vectors.push vs
    | .error _ t => t.vectors = s.vectors

/-- The new vector comes after all others, so no handle to it has been there. -/
theorem opens_new (values : Array Value) : Opens (Globals.new values) id :=
  fun _ => ⟨rfl, values, rfl⟩

/-- What only looks may come before what makes. -/
theorem Reads.opens {x : StoreM β} {k : β → StoreM α} (hx : Reads x)
    (hk : ∀ b, Opens (k b) handle) : Opens (x >>= k) handle := by
  intro s
  have hfirst := hx s
  rw [bind_eq]
  cases hr : x s with
  | error e t =>
    rw [after_of_error hr] at hfirst
    exact hfirst
  | ok b t =>
    rw [after_of_ok hr] at hfirst
    have hlast := hk b t
    rw [hfirst] at hlast
    exact hlast

theorem Opens.then {x : StoreM α} {k : α → β} (hx : Opens x handle)
    (hk : ∀ a, handle' (k a) = handle a) : Opens (x >>= fun a => pure (k a)) handle' := by
  intro s
  have hfirst := hx s
  rw [bind_eq]
  cases hr : x s with
  | error e t =>
    rw [hr] at hfirst
    exact hfirst
  | ok a t =>
    rw [hr] at hfirst
    exact ⟨(hk a).trans hfirst.1, hfirst.2⟩

theorem Hands.then {x : StoreM α} {k : α → β} {g : Globals} (hx : Hands x handle g)
    (hk : ∀ a, handle' (k a) = handle a) : Hands (x >>= fun a => pure (k a)) handle' g := by
  intro s
  have hfirst := hx s
  rw [bind_eq]
  cases hr : x s with
  | error e t =>
    rw [hr] at hfirst
    exact hfirst
  | ok a t =>
    rw [hr] at hfirst
    exact ⟨(hk a).trans hfirst.1, hfirst.2⟩

/-- The values are copied before the vector for them is added. -/
theorem opens_deepCopy (g : Globals) : Opens g.deepCopy id := by
  apply (reads_snapshot g).opens
  intro values
  apply (reads_onHeap _).opens
  intro copies
  exact opens_new _

end StoreM

theorem Context.globals_of_new {constants : Option (Array Value)} {g : Globals}
    {source : Option CompiledUnit} {c : Context} (h : new constants g source = .ok c) :
    c.globals = g := by
  cases source with
  | none => cases h
  | some source =>
    cases constants with
    | none => cases h
    | some constants =>
      replace h : (validateConstants constants >>= fun _ => .ok ⟨constants, g, source, {}⟩) =
        Except.ok c := h
      cases hpool : validateConstants constants with
      | error e =>
        rw [hpool] at h
        cases h
      | ok _ =>
        rw [hpool] at h
        cases h
        rfl

/-- The context of a program has the handle of the program. -/
theorem Program.globals_of_context {p : Program} {c : Context} (h : p.context = .ok c) :
    c.globals = p.globals := by
  replace h : (Context.new (some p.code.constants) p.globals (some p.code) >>= fun c =>
    .ok (c.withLimits p.limits)) = Except.ok c := h
  cases hnew : Context.new (some p.code.constants) p.globals (some p.code) with
  | error e =>
    rw [hnew] at h
    cases h
  | ok c' =>
    rw [hnew] at h
    cases h
    have hglobals := Context.globals_of_new hnew
    exact hglobals

namespace Making

/-- What is made has the handle that is handed on, or one to a new vector. -/
theorem hands_or_opens (m : Making) :
    match m.shared? with
    | some g => StoreM.Hands m.perform Holder.handle g
    | none => StoreM.Opens m.perform Holder.handle := by
  cases m with
  | globals values => exact (StoreM.opens_new values).then fun _ => rfl
  | program code names =>
    have hnew : StoreM.Opens (Program.new code names) Program.globals :=
      (StoreM.opens_new _).then fun _ => rfl
    exact hnew.then fun _ => rfl
  | context constants g source =>
    have hnew : StoreM.Hands (StoreM.ofExcept (Context.new constants g source)) Context.globals g :=
      StoreM.hands_ofExcept fun _ => Context.globals_of_new
    exact hnew.then fun _ => rfl
  | clone a => exact StoreM.hands_pure rfl
  | handle a => exact StoreM.hands_pure rfl
  | limitedProgram p limits => exact StoreM.hands_pure rfl
  | limitedContext c limits => exact StoreM.hands_pure rfl
  | contextOf p =>
    have hnew : StoreM.Hands (StoreM.ofExcept p.context) Context.globals p.globals :=
      StoreM.hands_ofExcept fun _ => Program.globals_of_context
    exact hnew.then fun _ => rfl
  | withGlobals c g => exact StoreM.hands_pure rfl
  | withIsolatedGlobals c =>
    have hcopy : StoreM.Opens c.withIsolatedGlobals Context.globals :=
      (StoreM.opens_deepCopy c.globals).then fun _ => rfl
    exact hcopy.then fun _ => rfl
  | deepCopy g => exact (StoreM.opens_deepCopy g).then fun _ => rfl

/-- If nothing is made, no vector has changed. -/
theorem vectors_of_error (m : Making) {s t : Store} {e : Refusal} (h : m.perform s = .error e t) :
    t.vectors = s.vectors := by
  have hm := m.hands_or_opens
  cases hshared : m.shared? with
  | some g =>
    rw [hshared] at hm
    have hm := hm s
    rw [h] at hm
    exact hm
  | none =>
    rw [hshared] at hm
    have hm := hm s
    rw [h] at hm
    exact hm

/-- If something is made, a vector may have been added. -/
theorem vectors_of_ok (m : Making) {s t : Store} {a : Holder} (h : m.perform s = .ok a t) :
    (m.shared? = some a.handle ∧ t.vectors = s.vectors) ∨
      m.shared? = none ∧ a.handle = ⟨s.vectors.size⟩ ∧ ∃ vs, t.vectors = s.vectors.push vs := by
  have hm := m.hands_or_opens
  cases hshared : m.shared? with
  | some g =>
    rw [hshared] at hm
    have hm := hm s
    rw [h] at hm
    exact .inl ⟨congrArg some hm.1.symm, hm.2⟩
  | none =>
    rw [hshared] at hm
    have hm := hm s
    rw [h] at hm
    exact .inr ⟨rfl, hm⟩

end Making

/-! ## Sessions

By induction on the session: each deed overwrites the vector of one handle at most, and adds at most
one vector.
-/

namespace Deed

variable (host : Host) (deed : Deed) {d : Desk} {g : Globals}

/-- Vectors are only added. -/
theorem size_le_after (d : Desk) :
    d.store.vectors.size ≤ (deed.after host d).store.vectors.size := by
  cases deed with
  | work change => exact Nat.le_refl _
  | operate op => exact Nat.le_of_eq (op.size_after host d.store).symm
  | make m =>
    cases hm : m.perform d.store with
    | error e t =>
      rw [after_make_of_error hm, m.vectors_of_error hm]
    | ok a t =>
      rw [after_make_of_ok hm]
      rcases m.vectors_of_ok hm with ⟨-, hvectors⟩ | ⟨-, -, vs, hvectors⟩
      · rw [hvectors]
      · rw [hvectors, Array.size_push]
        exact Nat.le_succ _

/-- A vector stays as it is unless it is operated on. -/
theorem vector_after (hplace : g.index < d.store.vectors.size) (hother : deed.handle? ≠ some g) :
    (deed.after host d).store.vector g = d.store.vector g := by
  cases deed with
  | work change => rfl
  | operate op => exact op.vector_after_of_ne d.store fun heq => hother (congrArg some heq.symm)
  | make m =>
    cases hm : m.perform d.store with
    | error e t =>
      rw [after_make_of_error hm]
      exact Store.vector_congr (m.vectors_of_error hm) g
    | ok a t =>
      rw [after_make_of_ok hm]
      rcases m.vectors_of_ok hm with ⟨-, hvectors⟩ | ⟨-, -, vs, hvectors⟩
      · exact Store.vector_congr hvectors g
      · rw [Store.vector, hvectors]
        exact Store.vector_pushed_of_lt d.store.heap vs hplace

/-- What is at hand stays at hand, and only a making adds to it. -/
theorem holders_after (d : Desk) :
    (deed.after host d).holders = d.holders ∨
      ∃ m a t, deed = .make m ∧ m.perform d.store = .ok a t ∧
        (deed.after host d).holders = a :: d.holders ∧ (deed.after host d).store = t := by
  cases deed with
  | work change => exact .inl rfl
  | operate op => exact .inl rfl
  | make m =>
    cases hm : m.perform d.store with
    | error e t =>
      rw [after_make_of_error hm]
      exact .inl rfl
    | ok a t =>
      rw [after_make_of_ok hm]
      exact .inr ⟨m, a, t, rfl, hm, rfl, rfl⟩

/-- A handle that is at hand is not given away. -/
theorem has_after (h : d.Has g) : (deed.after host d).Has g := by
  obtain ⟨a, ha, rfl⟩ := h
  rcases deed.holders_after host d with heq | ⟨_, b, _, -, -, heq, -⟩
  · exact ⟨a, heq ▸ ha, rfl⟩
  · exact ⟨a, heq ▸ List.mem_cons_of_mem b ha, rfl⟩

end Deed

/-- The handle that is handed on is at hand. -/
theorem Making.has_shared {m : Making} {d : Desk} {g : Globals} (h : m.shared? = some g)
    (huses : ∀ a ∈ m.uses, a ∈ d.holders) : d.Has g := by
  cases m with
  | globals _ | program _ _ | withIsolatedGlobals _ | deepCopy _ => cases h
  | withGlobals c g' =>
    cases h
    exact ⟨_, huses (.globals g) (by simp [uses]), rfl⟩
  | _ =>
    cases h
    exact ⟨_, huses _ (.head _), rfl⟩

/-- All handles at hand are to vectors of the store, also when something has been made. -/
theorem Deed.sound_after (host : Host) {deed : Deed} {d : Desk} (hd : d.Sound)
    (huses : ∀ a ∈ deed.uses, a ∈ d.holders) : (deed.after host d).Sound := by
  rintro g ⟨a, ha, rfl⟩
  have hle := deed.size_le_after host d
  rcases deed.holders_after host d with heq | ⟨m, b, t, rfl, hm, heq, ht⟩
  · rw [heq] at ha
    exact Nat.lt_of_lt_of_le (hd _ ⟨a, ha, rfl⟩) hle
  · rw [heq] at ha
    rcases List.mem_cons.1 ha with rfl | ha
    · rcases m.vectors_of_ok hm with ⟨hshared, -⟩ | ⟨-, hhandle, vs, hvectors⟩
      · exact Nat.lt_of_lt_of_le (hd _ (Making.has_shared hshared huses)) hle
      · rw [ht, hvectors, hhandle, Array.size_push]
        exact Nat.lt_succ_self _
    · exact Nat.lt_of_lt_of_le (hd _ ⟨a, ha, rfl⟩) hle

namespace Session

variable (host : Host) {d : Desk} {before between session rest : Session} {g : Globals}

theorem after_append (before session : Session) (d : Desk) :
    (before ++ session).after host d = session.after host (before.after host d) := by
  induction before generalizing d with
  | nil => rfl
  | cons deed before ih => exact ih _

theorem possible_append (h : (before ++ session).Possible host d) :
    before.Possible host d ∧ session.Possible host (before.after host d) := by
  induction before generalizing d with
  | nil => exact ⟨trivial, h⟩
  | cons deed before ih =>
    obtain ⟨hbefore, hsession⟩ := ih h.2
    exact ⟨⟨h.1, hbefore⟩, hsession⟩

/-- By induction on the session. -/
theorem sound_after (hd : d.Sound) (h : session.Possible host d) :
    (session.after host d).Sound := by
  induction session generalizing d with
  | nil => exact hd
  | cons deed session ih => exact ih (Deed.sound_after host hd h.1) h.2

/-- A vector stays as it is until it is operated on. -/
theorem vector_after (hplace : g.index < d.store.vectors.size)
    (hother : ∀ deed ∈ between, deed.handle? ≠ some g) :
    (between.after host d).store.vector g = d.store.vector g := by
  induction between generalizing d with
  | nil => rfl
  | cons deed between ih =>
    have hdeed := deed.vector_after host hplace (hother deed (.head _))
    have hle := deed.size_le_after host d
    rw [after, ih (Nat.lt_of_lt_of_le hplace hle) fun e he => hother e (.tail _ he), hdeed]

/-- The handles are independent stores. -/
structure Independent (d : Desk) (session : Session) : Prop where
  /-- An operation finds the vector that the last one on its handle has left. -/
  finds : ∀ (before : Session) (last : Operation) (between : Session) (op : Operation)
    (rest : Session), session = before ++ .operate last :: between ++ .operate op :: rest →
    last.handle = op.handle → (∀ deed ∈ between, deed.handle? ≠ some op.handle) →
    (after host (before ++ .operate last :: between) d).store.vector op.handle =
      ((last.perform host).after (before.after host d).store).vector op.handle
  /-- From when there is a handle, its vector stays as it is until there is an operation on it. -/
  stays : ∀ (before between rest : Session) (g : Globals), session = before ++ between ++ rest →
    (before.after host d).Has g → (∀ deed ∈ between, deed.handle? ≠ some g) →
    (after host (before ++ between) d).store.vector g = (before.after host d).store.vector g
  operates : ∀ (before : Session) (op : Operation) (rest : Session),
    session = before ++ .operate op :: rest → op.Behaves host (before.after host d).store
  /-- What is made has the handle of what it is made from, or a new one, and changes no vector. -/
  makes : ∀ (before : Session) (m : Making) (rest : Session), session = before ++ .make m :: rest →
    let s := before.after host d
    ∀ a t, m.perform s.store = .ok a t →
      (match m.shared? with
        | some g => a.handle = g
        | none => ¬ s.Has a.handle) ∧
      ∀ g, s.Has g → t.vector g = s.store.vector g

/-- Handles to globals are independent stores. A host may have any programs, contexts and handles,
and may make more of them at any time. An operation on one of them begins with the vector that the
last operation on the same handle has left, and no operation changes the vector of another handle.
If a run or a call of a compiled function ends with a value, the vector is replaced by the globals
that there are then, which are as many as before. Otherwise, or if a write is refused or a builtin
is called, the vector stays as it is. -/
theorem handles_independent (hd : d.Sound) (hsession : session.Possible host d) :
    session.Independent host d := by
  have hstays (before between rest : Session) (g : Globals)
      (hsplit : session = before ++ between ++ rest) (hhas : (before.after host d).Has g)
      (hother : ∀ deed ∈ between, deed.handle? ≠ some g) :
      (after host (before ++ between) d).store.vector g =
        (before.after host d).store.vector g := by
    rw [hsplit, List.append_assoc] at hsession
    have hsound := sound_after host hd (possible_append host hsession).1
    rw [after_append]
    exact vector_after host (hsound g hhas) hother
  have hhas {before rest : Session} {op : Operation}
      (hsplit : session = before ++ .operate op :: rest) : (before.after host d).Has op.handle := by
    rw [hsplit] at hsession
    have huses := (possible_append host hsession).2.1
    exact ⟨op.holder, huses _ (.head _), rfl⟩
  refine ⟨?_, hstays, ?_, ?_⟩
  · intro before last between op rest hsplit heq hother
    -- The vector stays from just after the last operation on.
    have hlast : (before.after host d).Has last.handle := by
      apply hhas
      rw [hsplit, List.append_assoc]
      rfl
    have hjust : after host (before ++ [.operate last]) d =
        Deed.after host (before.after host d) (.operate last) := after_append host _ _ d
    have hvector := hstays (before ++ [.operate last]) between (.operate op :: rest) op.handle
      (by simpa using hsplit) (by rw [hjust, ← heq]; exact Deed.has_after host _ hlast) hother
    rw [hjust, List.append_assoc] at hvector
    exact hvector
  · intro before op rest hsplit
    have hop := hhas hsplit
    rw [hsplit] at hsession
    exact op.behaves (sound_after host hd (possible_append host hsession).1 _ hop)
  · intro before m rest hsplit s a t hm
    rw [hsplit] at hsession
    have hsound : s.Sound := sound_after host hd (possible_append host hsession).1
    rcases m.vectors_of_ok hm with ⟨hshared, hvectors⟩ | ⟨hshared, hhandle, vs, hvectors⟩
    · rw [hshared]
      exact ⟨rfl, fun g _ => Store.vector_congr hvectors g⟩
    · rw [hshared]
      refine ⟨fun hhas => ?_, fun g hg => ?_⟩
      · have hlt := hsound _ hhas
        rw [hhandle] at hlt
        exact Nat.lt_irrefl _ hlt
      · rw [Store.vector, hvectors]
        exact Store.vector_pushed_of_lt s.store.heap vs (hsound g hg)

end Session

/-! ### A program and an isolated context

The program counts up when it is run, and so does a function that is called through its context and
through one with isolated globals. One of the calls has an argument too many.
-/

def countsGlobal : FunctionObject :=
  ⟨0, .ofCode #[Opcode.getGlobal.byte, 0, 0, Opcode.constant.byte, 0, 0, Opcode.add.byte,
    Opcode.setGlobal.byte, 0, 0, Opcode.getGlobal.byte, 0, 0, Opcode.ret.byte, 1] 0 0⟩

def unitOfCounts : CompiledUnit where
  id := 1
  main := .ofCode #[Opcode.getGlobal.byte, 0, 0, Opcode.constant.byte, 0, 0, Opcode.add.byte,
    Opcode.setGlobal.byte, 0, 0, Opcode.halt.byte] 0 0
  constants := #[.int 1, .function countsGlobal]

def programOfCounts : Program := ⟨unitOfCounts, ["n"], ⟨0⟩, {}⟩

def contextOfCounts : Context := ⟨unitOfCounts.constants, ⟨0⟩, unitOfCounts, {}⟩

/-- A host that has nothing but the identities of function and unit. -/
def emptyDesk : Desk := ⟨{ heap := { identities := 2 } }, []⟩

def sessionOfCounts : Session :=
  [.make (.program unitOfCounts ["n"]), .operate (.replaceGlobals programOfCounts #[.int 3]),
    .make (.contextOf programOfCounts), .make (.withIsolatedGlobals contextOfCounts),
    .operate (.run programOfCounts 9),
    .operate (.callWithGlobals (contextOfCounts.withGlobals ⟨1⟩) 9 (.function countsGlobal) []),
    .operate (.call contextOfCounts 9 (.function countsGlobal) [.int 1]),
    .operate (.call contextOfCounts 9 (.function countsGlobal) []),
    .operate (.set programOfCounts "m" (.int 0))]

theorem handles_sessionOfCounts :
    sessionOfCounts.Independent sampleHost emptyDesk ∧
      (sessionOfCounts.after sampleHost emptyDesk).store.vectors = #[#[.int 5], #[.int 4]] := by
  have hsound : emptyDesk.Sound := by
    rintro g ⟨a, ha, -⟩
    cases ha
  have hone {b : Holder} {holders : List Holder} (h : b ∈ holders) : ∀ a ∈ [b], a ∈ holders := by
    intro a ha
    rwa [List.mem_singleton.1 ha]
  have hcontext (d : Desk) : Deed.after sampleHost d (.make (.contextOf programOfCounts)) =
      ⟨d.store, .context contextOfCounts :: d.holders⟩ := by
    have hpool : validateConstants unitOfCounts.constants = .ok () := by
      simp [validateConstants, unitOfCounts, Value.isUndefined, List.findIdx?_cons]
    apply Deed.after_make_of_ok
    simp only [Making.perform, Program.context, Context.new, programOfCounts, hpool]
    rfl
  have hpossible : sessionOfCounts.Possible sampleHost emptyDesk := by
    have hnothing : ∀ a ∈ ([] : List Holder), a ∈ emptyDesk.holders := by
      intro a ha
      cases ha
    refine ⟨hnothing, hone ?_, hone ?_, hone ?_, hone ?_, hone ?_, hone ?_, hone ?_, hone ?_,
      trivial⟩
    · exact .head _
    · exact .head _
    all_goals rw [hcontext]
    · exact .head _
    · exact .tail _ (.tail _ (.head _))
    · exact .head _
    · exact .tail _ (.head _)
    · exact .tail _ (.head _)
    · exact .tail _ (.tail _ (.head _))
  exact ⟨Session.handles_independent sampleHost hsound hpossible, by decide +kernel⟩

end ScriptVM
