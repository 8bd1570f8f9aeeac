import ScriptVM.Builtin.Sample
import ScriptVM.Proofs.Height
import ScriptVM.Proofs.OutsideCall

/-!
# Code without backward jumps ends

Nothing bounds how often functions call each other, but an activation of code whose jumps all go
forward has fewer bytes ahead of it with every instruction, and there is only room for so many
activations. So an activation comes to its end if every activation above it does: by induction on
the room that is left, and for an activation on the bytes that are left. What an activation goes on
with when the ones above it are over is in its own frame, which they do not touch.
-/

namespace ScriptVM

/-! ## Forward code -/

/-- Every jump that can be decoded in the code, at whatever offset, goes forward. -/
def Function.Forward (f : Function) : Prop :=
  ∀ ip i next, f.fetch ip = .instruction i next → i.op.isJump = true → ip < i.first

/-- Only the offsets in the code need to be looked at. -/
theorem Function.forward_iff (f : Function) :
    f.Forward ↔ ∀ ip < f.code.size, match f.fetch ip with
      | .instruction i _ => i.op.isJump = true → ip < i.first
      | .fault _ _ => True := by
  constructor
  · intro h ip _
    cases hf : f.fetch ip with
    | fault e ip' => trivial
    | instruction i next => exact h ip i next hf
  · intro h ip i next hf
    have := h ip (lt_size_of_fetch hf)
    rwa [hf] at this

instance (f : Function) : Decidable f.Forward :=
  have (ip : Nat) : Decidable (match f.fetch ip with
      | .instruction i _ => i.op.isJump = true → ip < i.first
      | .fault _ _ => True) := by
    cases f.fetch ip <;> infer_instance
  decidable_of_iff' _ f.forward_iff

/-- An instruction takes at least one byte. -/
theorem Function.lt_next_of_fetch {f : Function} {ip next : Nat} {i : Instruction}
    (h : f.fetch ip = .instruction i next) : ip < next := by
  unfold fetch at h
  split at h
  · cases h
  split at h
  · cases h
  split at h
  · cases h
    rw [Opcode.width]
    omega
  · cases h

/-! ## Ending -/

/-- The result of a run that has ended, with a value or a fault; its steps have not run out. -/
def HasEnded {σ α : Type} : EStateM.Result Stop σ α → Prop
  | .error .outOfSteps _ => False
  | _ => True

namespace Machine

variable {host : Host} {m m' : Machine}

def Ends (host : Host) (m : Machine) : Prop := ∃ n, HasEnded (m.run host n)

/-- A step more does not keep a run from ending. -/
theorem Ends.of_step (hs : Exec.step host m = .ok none m') (h : m'.Ends host) : m.Ends host := by
  obtain ⟨n, hn⟩ := h
  refine ⟨n + 1, ?_⟩
  rw [run, hs]
  exact hn

/-- A run that has ended has the same result if it is given more steps. -/
theorem run_of_hasEnded {n : Nat} (h : HasEnded (m.run host n)) (k : Nat) :
    m.run host (n + k) = m.run host n := by
  induction n generalizing m with
  | zero => exact h.elim
  | succ n ih =>
    rw [Nat.add_right_comm]
    rw [run] at h ⊢
    rw [run]
    cases hs : Exec.step host m with
    | error e m' => rfl
    | ok r m' =>
      cases r with
      | some v => rfl
      | none =>
        rw [hs] at h
        exact ih h

/-! ## Machines that execute forward code

The measure of an activation is the number of bytes that it has ahead. It gets smaller with every
instruction, also over a call, since the activation goes on past the call when that is over.
-/

/-- All functions within reach are forward, and there are no more than so many activations. -/
structure Forward (constants : Array Value) (before : Heap) (limit : Nat) (m : Machine) : Prop where
  confined : m.Confined (before.regionOf Function.Forward) before
  constants : m.constants = constants
  maxFrames : m.maxFrames = limit
  depth : m.depth ≤ limit

variable {constants : Array Value} {before : Heap} {limit : Nat}

/-- A function stays forward when it is made a closure. -/
theorem allowed_of_forward (hconstants : ∀ v ∈ constants, before.Only Function.Forward v)
    (i : Instruction) : i.Allowed (before.regionOf Function.Forward) constants := by
  unfold Instruction.Allowed
  split
  · intro v hv
    exact (hconstants v (Array.mem_of_getElem? hv)).within
  · intro f hf cells _
    have hforward : f.function.Forward :=
      hconstants _ (Array.mem_of_getElem? hf) f (.refl _)
    exact hforward
  · trivial

/-- A step stays among forward functions, since what it calls is within reach. -/
theorem Forward.step (hhost : HeapM.HostKeeps (before.regionOf Function.Forward) host)
    (hconstants : ∀ v ∈ constants, before.Only Function.Forward v)
    (h : m.Forward constants before limit) {r : Option Value}
    (hs : Exec.step host m = .ok r m') : m'.Forward constants before limit := by
  have hconfined := h.confined.step hhost fun _ _ i _ _ _ =>
    h.constants ▸ allowed_of_forward hconstants i
  have hkept := Exec.kept_step host m
  rw [hs] at hconfined hkept
  obtain ⟨-, hconfined, hsame⟩ := hconfined
  have hdepth : m'.depth ≤ m'.maxFrames := by
    apply hkept.frames
    rw [h.maxFrames]
    exact h.depth
  refine ⟨hconfined, hsame.trans h.constants, hkept.maxFrames.trans h.maxFrames, ?_⟩
  rwa [hkept.maxFrames, h.maxFrames] at hdepth

/-- An activation comes to its end: the run ends if it ends whenever the activation is over. -/
theorem Forward.ends_of_rest (hhost : HeapM.HostKeeps (before.regionOf Function.Forward) host)
    (hconstants : ∀ v ∈ constants, before.Only Function.Forward v) (room : Nat) {f : Frame}
    {rest : List Frame} (h : m.Forward constants before limit) (hf : m.frames = f :: rest)
    (hroom : limit - m.depth = room)
    (hrest : ∀ m' : Machine, m'.Forward constants before limit → m'.frames = rest → m'.Ends host) :
    m.Ends host := by
  induction room using Nat.strongRecOn generalizing m f rest with
  | ind room ihRoom =>
  -- the activation goes on in the same room with fewer bytes ahead
  induction hleft : f.function.code.size - f.ip using Nat.strongRecOn
    generalizing m f with
  | ind left ihLeft =>
  cases hs : Exec.step host m with
  | error e m' => exact ⟨1, by rw [run, hs]; trivial⟩
  | ok r m' =>
    cases r with
    | some v => exact ⟨1, by rw [run, hs]; trivial⟩
    | none =>
      apply Ends.of_step hs
      have h' : m'.Forward constants before limit := h.step hhost hconstants hs
      obtain ⟨i, next, hfetch, hmoved⟩ := Exec.moved_of_step hf hs
      have hsize : f.ip < f.function.code.size := Function.lt_size_of_fetch hfetch
      have hnext : f.ip < next := Function.lt_next_of_fetch hfetch
      have hgoOn {m' : Machine} {f' : Frame} (h' : m'.Forward constants before limit)
          (hf' : m'.frames = f' :: rest) (hfun : f'.function = f.function) (hip : f.ip < f'.ip) :
          m'.Ends host := by
        have hdepth : m'.depth = m.depth := by
          rw [Machine.depth, Machine.depth, hf', hf, List.length_cons, List.length_cons]
        exact ihLeft _ (by rw [← hleft, hfun]; omega) h' hf' (by rw [hdepth, hroom]) rfl
      cases hmoved with
      | stays he =>
        obtain ⟨f', hfun, -, hip, hf'⟩ := he.top
        exact hgoOn h' hf' hfun (by rw [hip]; exact hnext)
      | jumps hj he =>
        obtain ⟨f', hfun, -, hip, hf'⟩ := he.top
        have hforward : f.function.Forward := (h.confined.frames f (by simp [hf])).function
        have hlt : f.ip < i.first := hforward f.ip i next hfetch hj
        exact hgoOn h' hf' hfun (by rw [hip]; exact hlt)
      | enters _ function callee f' _ hfun _ hip hf' =>
        have hdepth : m'.depth = m.depth + 1 := by
          rw [Machine.depth, Machine.depth, hf', hf, List.length_cons, List.length_cons,
            List.length_cons]
        have hle := h'.depth
        apply ihRoom (limit - m'.depth) (by omega) h' hf' rfl
        intro m'' h'' hf''
        exact hgoOn h'' hf'' hfun (by rw [hip]; exact hnext)
      | leaves _ _ hf' => exact hrest m' h' hf'

/-- A run of forward code ends. -/
theorem Forward.ends (hhost : HeapM.HostKeeps (before.regionOf Function.Forward) host)
    (hconstants : ∀ v ∈ constants, before.Only Function.Forward v)
    (h : m.Forward constants before limit) : m.Ends host := by
  induction hf : m.frames generalizing m with
  | nil => exact ⟨1, by rw [run, Exec.step_of_no_frame host hf]; trivial⟩
  | cons f rest ih =>
    apply h.ends_of_rest hhost hconstants _ hf rfl
    intro m' h' hf'
    exact ih h' hf'

end Machine

/-! ## Starting -/

section

variable {host : Host} {h : Heap} {constants globals : Array Value}

/-- At first there are only constants and globals to reach anything from. -/
theorem Machine.confined_idle {P : Function → Prop} (limits : Limits)
    (hglobals : ∀ v ∈ globals, h.Only P v) :
    (Machine.idle constants globals limits h).Confined (h.regionOf P) h where
  heap := h.confined_regionOf P
  stack := by simp [idle, Stack.ofCapacity]
  globals v hv := (hglobals v hv).within
  frames := by simp [idle]

/-- The top-level function is one of those within reach. -/
theorem CompiledUnit.forward_ofUnit {u : CompiledUnit} {limits : Limits} {m : Machine}
    (hmain : h.Only Function.Forward (.function ⟨u.id, u.main⟩))
    (hglobals : ∀ v ∈ globals, h.Only Function.Forward v)
    (hm : Machine.ofUnit u globals limits h = .ok m) :
    m.Forward u.constants h limits.maxFrames := by
  have hframe : (Frame.start u.main 0).Within (h.regionOf Function.Forward) :=
    ⟨hmain.within.1, hmain.within.2, by simp [Frame.start]⟩
  have hconfined : Exec.Confines (h.regionOf Function.Forward) h u.constants
      (Exec.enterMain u.main) fun _ => True :=
    (Exec.confines_pushUndefined _).bind fun _ _ => Exec.confines_pushFrame hframe
  have hentered := (Exec.keepsFrames_pushUndefined u.main.numLocals
    (.idle u.constants globals limits h)).bind fun _ => Exec.ensures_pushFrame (.start u.main 0) _
  unfold Machine.ofUnit at hm
  cases hx : Exec.enterMain u.main (.idle u.constants globals limits h) with
  | error e m' =>
    rw [hx] at hm
    cases hm
  | ok _ m' =>
    rw [hx] at hm
    cases hm
    have hentered := hentered.ok ⟨rfl, rfl, rfl⟩ hx
    obtain ⟨-, hconfined, hconstants⟩ :=
      Exec.Ensures.ok hconfined ⟨Machine.confined_idle limits hglobals, rfl⟩ hx
    refine ⟨hconfined, hconstants, hentered.maxFrames, ?_⟩
    rw [Machine.depth, hentered.frames]
    exact hentered.room

theorem rootStub_forward : rootStub.Forward := by decide

/-- So are the target, with its cells, and the stub, which has no jump. -/
theorem FunctionObject.forward_enterCall {f : FunctionObject} {args : List Value} {limits : Limits}
    {m : Machine} (hf : h.Only Function.Forward (.function f))
    (hglobals : ∀ v ∈ globals, h.Only Function.Forward v)
    (hargs : ∀ v ∈ args, h.Only Function.Forward v)
    (hm : Exec.enterCall f args (.idle constants globals limits h) = .ok () m) :
    m.Forward constants h limits.maxFrames := by
  have hstub : (Frame.start rootStub 0).Within (h.regionOf Function.Forward) :=
    ⟨rootStub_forward, by simp [Frame.start, rootStub, Function.ofCode], by simp [Frame.start]⟩
  have hconfined : Exec.Confines (h.regionOf Function.Forward) h constants
      (Exec.enterCall f args) fun _ => True := by
    apply (Exec.confines_pushFrame hstub).bind
    intro _ _
    apply (Exec.confines_push hf.within).bind
    intro _ _
    apply (Exec.confines_pushAll fun v hv => (hargs v hv).within).bind
    intro _ _
    exact Exec.confines_enterFunction hf.within.1 hf.within.2 _ _
  obtain ⟨-, hconfined, hconstants⟩ :=
    Exec.Ensures.ok hconfined ⟨Machine.confined_idle limits hglobals, rfl⟩ hm
  obtain ⟨_, m₁, hstart, hm⟩ := Exec.bind_eq_ok.1 hm
  have hentered := (Exec.ensures_pushFrame _ _).ok ⟨rfl, rfl, rfl⟩ hstart
  have hcallee := (((Exec.keepsFrames_push (.function f) m₁).bind fun _ =>
    (Exec.keepsFrames_pushAll args m₁).bind fun _ =>
      Exec.ensures_enterFunction f.function 0 args.length m₁)).ok ⟨rfl, rfl, rfl⟩ hm
  have hmax : m₁.maxFrames = limits.maxFrames := hentered.maxFrames
  refine ⟨hconfined, hconstants, hcallee.maxFrames.trans hmax, ?_⟩
  have hroom := hcallee.room
  rw [Machine.depth, hcallee.frames, List.length_cons, ← hmax]
  exact hroom

/-! ## Whole runs -/

/-- What a run comes to is told once it has ended. -/
theorem RunM.hasEnded_finish {n : Nat} {m : Machine} (hm : HasEnded (m.run host n)) (h : Heap) :
    HasEnded (finish host n m h) := by
  unfold finish
  cases hr : m.run host n with
  | ok v m' => trivial
  | error s m' =>
    rw [hr] at hm
    cases s with
    | fault e => trivial
    | outOfSteps => exact hm.elim

/-- Code without backward jumps ends, whatever functions call each other or themselves. If all
functions that can be got at from the unit, the globals and the arguments jump forward only, and the
host answers with nothing else, then a run of the unit ends with a value or a fault after finitely
many steps, and so does a call from outside; with more steps it has the same outcome. -/
theorem Heap.forward_ends (hhost : HeapM.HostKeeps (h.regionOf Function.Forward) host)
    (hconstants : ∀ v ∈ constants, h.Only Function.Forward v)
    (hglobals : ∀ v ∈ globals, h.Only Function.Forward v) (limits : Limits) :
    (∀ u : CompiledUnit, u.constants = constants →
      h.Only Function.Forward (.function ⟨u.id, u.main⟩) →
      ∃ n, HasEnded (u.run host n globals limits h) ∧
        ∀ k, u.run host (n + k) globals limits h = u.run host n globals limits h) ∧
    ∀ (f : FunctionObject) (args : List Value), h.Only Function.Forward (.function f) →
      (∀ v ∈ args, h.Only Function.Forward v) →
      ∃ n, HasEnded (f.invoke host n (some constants) globals args limits h) ∧
        ∀ k, f.invoke host (n + k) (some constants) globals args limits h =
          f.invoke host n (some constants) globals args limits h := by
  have hfinish {m : Machine} {n : Nat} (hn : HasEnded (m.run host n)) (k : Nat) :
      RunM.finish host (n + k) m h = RunM.finish host n m h := by
    unfold RunM.finish
    rw [Machine.run_of_hasEnded hn k]
  constructor
  · rintro u rfl hmain
    simp only [CompiledUnit.run_eq]
    cases hm : Machine.ofUnit u globals limits h with
    | error e => exact ⟨0, trivial, fun _ => rfl⟩
    | ok m =>
      obtain ⟨n, hn⟩ := (CompiledUnit.forward_ofUnit hmain hglobals hm).ends hhost hconstants
      exact ⟨n, RunM.hasEnded_finish hn h, hfinish hn⟩
  · intro f args hf hargs
    simp only [FunctionObject.invoke_eq]
    cases validateConstants constants with
    | error e => exact ⟨0, trivial, fun _ => rfl⟩
    | ok _ =>
      cases f.function.checkArity args.length with
      | error e => exact ⟨0, trivial, fun _ => rfl⟩
      | ok _ =>
        cases hm : Exec.enterCall f args (.idle constants globals limits h) with
        | error e m => exact ⟨0, trivial, fun _ => rfl⟩
        | ok _ m =>
          have hforward := FunctionObject.forward_enterCall hf hglobals hargs hm
          obtain ⟨n, hn⟩ := hforward.ends hhost hconstants
          exact ⟨n, RunM.hasEnded_finish hn h, hfinish hn⟩

end

/-! ### A function that calls itself

The function calls the global that it is the value of, again and again.
-/

def callsItself : FunctionObject :=
  ⟨0, .ofCode #[Opcode.getGlobal.byte, 0, 0, Opcode.call.byte, 0, 0, Opcode.ret.byte, 1] 0 0⟩

/-- The function has captured nothing, so nothing else is within reach. -/
theorem only_callsItself : Heap.Only {} Function.Forward (.function callsItself) := by
  intro g hg
  cases hg with
  | refl => decide
  | cell hc _ => simp [callsItself, Function.ofCode] at hc

/-- The calls stop when there is no room for another activation. -/
theorem invoke_callsItself :
    ∃ n, HasEnded (callsItself.invoke sampleHost n (some #[]) #[.function callsItself] [] {} {}) ∧
      ∀ k, callsItself.invoke sampleHost (n + k) (some #[]) #[.function callsItself] [] {} {} =
        callsItself.invoke sampleHost n (some #[]) #[.function callsItself] [] {} {} := by
  have hglobals : ∀ v ∈ #[Value.function callsItself], Heap.Only {} Function.Forward v := by
    intro v hv
    rw [List.mem_toArray, List.mem_singleton] at hv
    subst hv
    exact only_callsItself
  have hconstants : ∀ v ∈ (#[] : Array Value), Heap.Only {} Function.Forward v := by simp
  have h := Heap.forward_ends (HeapM.hostKeeps_sampleHost _) hconstants hglobals {}
  exact h.2 callsItself [] only_callsItself (by simp)

end ScriptVM
