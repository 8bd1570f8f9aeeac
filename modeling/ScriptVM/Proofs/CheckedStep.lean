import ScriptVM.Proofs.CheckedParts
import ScriptVM.Proofs.Ground

/-!
# Instructions pass their checks

Some checks are passed only because of the state that the machine is in: where the slot of a local
is, how much a callee has on the stack, whether there is a callee to put a result in the place of.
What is asked of a machine for that is little, since arbitrary bytecode may take values from beneath
its activation.
-/

namespace ScriptVM

/-! ## What the invariant is made of

Two things about the state are needed: the local slots of the executing activation do not reach
beyond the capacity of the stack, and there is a callee beneath every activation that returns.
-/

/-- The executing activation has its local slots beneath the stack index `n`. -/
def Machine.Based (n : Nat) (m : Machine) : Prop :=
  ∃ f rest, m.frames = f :: rest ∧ f.base + f.function.numLocals ≤ n

/-- The slots that closures of the function capture fit in a byte each. -/
def Function.NarrowSlots (f : Function) : Prop := ∀ slot, .ofLocal slot ∈ f.captures → slot < 256

/-- What stays in the activation leaves its slots where they are. -/
theorem Machine.Based.of_stays {α : Type} {m m' : Machine} {n : Nat} {x : Exec α} {a : α}
    (hm : m.Based n) (hx : Exec.Stays x) (h : x m = .ok a m') : m'.Based n := by
  obtain ⟨f, rest, hf, hle⟩ := hm
  obtain ⟨f', hfun, hb, -, hf'⟩ := ((hx m f rest).ok (.self hf) h).top
  exact ⟨f', rest, hf', by rw [hb, hfun]; exact hle⟩

theorem Machine.Based.kept {α : Type} {m m' : Machine} {n : Nat} {x : Exec α} {a : α}
    (hm : m.Based n) (hx : Exec.Stays x) (h : x m = .ok a m') : m.Kept m' := by
  obtain ⟨f, rest, hf, -⟩ := hm
  exact ((hx m f rest).ok (.self hf) h).kept

/-- A computation of the heap does not move the stack. -/
theorem Exec.stack_of_onHeap {α : Type} {x : HeapM α} {a : α} {m m' : Machine}
    (h : onHeap x m = .ok a m') : m'.stack = m.stack := by
  rw [onHeap_eq] at h
  cases hx : x m.heap with
  | ok a' heap =>
    rw [hx] at h
    cases h
    rfl
  | error e heap =>
    rw [hx] at h
    cases h

namespace Checked

variable {α β : Type} {m : Machine} {n slot : Nat}

/-! ## Agreement on a machine

A checked computation is compared with the ordinary one on one machine only, since the machine is
what some checks depend on.
-/

def Agrees (cx : Checked α) (x : Exec α) (m : Machine) : Prop := cx m = lift x m

theorem agrees_lift (x : Exec α) (m : Machine) : Agrees (lift x) x m := rfl

theorem Agrees.of_eq {cx : Checked α} {x : Exec α} (h : cx = lift x) : Agrees cx x m := by
  rw [Agrees, h]

variable {cx : Checked α} {x : Exec α} {ck : α → Checked β} {k : α → Exec β}

/-- The second parts are compared where the first one ends. -/
theorem Agrees.bind (hx : Agrees cx x m)
    (hk : ∀ a m', x m = .ok a m' → Agrees (ck a) (k a) m') : Agrees (cx >>= ck) (x >>= k) m := by
  rw [Agrees, lift_bind, bind_eq, bind_eq, hx, lift]
  cases hr : x m with
  | ok a m' => exact hk a m' hr
  | error e m' => rfl

/-- An ordinary computation first. -/
theorem agrees_first (hk : ∀ a m', x m = .ok a m' → Agrees (ck a) (k a) m') :
    Agrees (lift x >>= ck) (x >>= k) m := (agrees_lift x m).bind hk

/-- An ordinary computation last. -/
theorem Agrees.last (hx : Agrees cx x m) : Agrees (cx >>= fun a => lift (k a)) (x >>= k) m :=
  hx.bind fun a m' _ => agrees_lift (k a) m'

theorem Agrees.goOn {cx : Checked Unit} {x : Exec Unit} (hx : Agrees cx x m) :
    Agrees (goOn cx) (Exec.goOn x) m := hx.last (k := fun _ => pure none)

/-! ## Locals and closures

The base and the slot are both far from the limit of 64 bits: the base lies within the stack, and a
slot has four bytes at most. So the place of the local is found without overflow.
-/

/-- There is an executing activation to be asked for, and its slots end beneath `n`. -/
theorem agrees_frame {ck : Frame → Checked β} {k : Frame → Exec β} (hm : m.Based n)
    (hk : ∀ f, f.base + f.function.numLocals ≤ n → Agrees (ck f) (k f) m) :
    Agrees (lift Exec.frame >>= ck) (Exec.frame >>= k) m := by
  obtain ⟨f, rest, hf, hle⟩ := hm
  refine agrees_first fun f' m' hframe => ?_
  rw [Exec.frame_eq hf] at hframe
  cases hframe
  exact hk f hle

/-- Base and slot add up to what fits 64 bits. -/
theorem agrees_getLocal (hm : m.Based n) (hn : n < 2 ^ 63) (hslot : slot < 2 ^ 32) :
    Agrees (getLocal slot) (Exec.getLocal slot) m := by
  refine agrees_frame hm fun f hf => ?_
  cases f.cell? slot with
  | some cell => rfl
  | none =>
    dsimp only
    rw [add_eq (by omega), pure_bind]
    exact agrees_lift _ m

theorem agrees_setLocal (hm : m.Based n) (hn : n < 2 ^ 63) (hslot : slot < 2 ^ 32) (v : Value) :
    Agrees (setLocal slot v) (Exec.setLocal slot v) m := by
  refine agrees_frame hm fun f hf => ?_
  cases f.cell? slot with
  | some cell => rfl
  | none =>
    dsimp only
    rw [add_eq (by omega), pure_bind]
    exact agrees_lift _ m

theorem agrees_defineLocal (hm : m.Based n) (hn : n < 2 ^ 63) (hslot : slot < 2 ^ 32) (v : Value) :
    Agrees (defineLocal slot v) (Exec.defineLocal slot v) m := by
  refine agrees_frame hm fun f hf => agrees_first fun _ m' _ => ?_
  rw [add_eq (by omega), pure_bind]
  exact agrees_lift _ m'

theorem agrees_captureLocal (hm : m.Based n) (hn : n < 2 ^ 63) (hslot : slot < 2 ^ 32) :
    Agrees (captureLocal slot) (Exec.captureLocal slot) m := by
  refine agrees_frame hm fun f hf => ?_
  rw [add_eq (by omega), pure_bind, add_eq (by omega)]
  refine agrees_first fun current m' _ => ?_
  rw [pure_bind]
  refine agrees_first fun p m₁ _ => agrees_first fun _ m₂ _ => ?_
  obtain ⟨cell, created, f'⟩ := p
  cases created with
  | true => exact agrees_first fun _ _ _ => rfl
  | false => rfl

/-- A capture names its slot by a byte. -/
theorem agrees_capture {c : Capture} (hm : m.Based n) (hn : n < 2 ^ 63)
    (hslot : ∀ slot, c = .ofLocal slot → slot < 256) : Agrees (capture c) (Exec.capture c) m := by
  cases c with
  | ofLocal slot =>
    have := hslot slot rfl
    exact agrees_captureLocal hm hn (by omega)
  | ofFree index => exact agrees_lift _ m

theorem agrees_captureAll {cs : List Capture} (hm : m.Based n) (hn : n < 2 ^ 63)
    (hslots : ∀ slot, .ofLocal slot ∈ cs → slot < 256) :
    Agrees (captureAll cs) (Exec.captureAll cs) m := by
  induction cs generalizing m with
  | nil => rfl
  | cons c cs ih =>
    refine (agrees_capture hm hn fun slot h => hslots slot (h ▸ .head _)).bind fun cell m' h => ?_
    have hm' := hm.of_stays (Exec.stays_capture c) h
    exact (ih hm' fun slot h => hslots slot (.tail _ h)).last (k := fun cells =>
      pure (cell :: cells))

/-- The captures are those of a constant, so it is enough that the constants have narrow slots. -/
theorem agrees_makeClosure (hm : m.Based n) (hn : n < 2 ^ 63)
    (hslots : ∀ f, .function f ∈ m.constants → f.function.NarrowSlots) (index : Nat) :
    Agrees (makeClosure index) (Exec.makeClosure index) m := by
  refine agrees_first fun v m' hv => ?_
  rw [Exec.constant_eq] at hv
  cases hc : m.constants[index]? with
  | none =>
    rw [hc] at hv
    cases hv
  | some v' =>
    rw [hc] at hv
    cases hv
    cases v with
    | function prototype =>
      have hnarrow := hslots prototype (Array.mem_of_getElem? hc)
      refine (agrees_captureAll hm hn hnarrow).bind fun cells m₁ _ => ?_
      exact agrees_first fun _ _ _ => agrees_first fun _ _ _ => rfl
    | _ => rfl

/-! ## Calls and returns

The height of the stack bounds all that is calculated here. When a callee has been found with its
arguments above, these make up a part of the stack.
-/

/-- The arguments are on the stack, so taking them away from the height leaves the callee. -/
theorem agrees_enterFunction {f : Function} {callee argc : Nat}
    (hsize : m.stack.size = callee + (argc + 1)) (hm : m.stack.size < 2 ^ 63) :
    Agrees (enterFunction f callee argc) (Exec.enterFunction f callee argc) m := by
  have hlast {m : Machine} (hle : callee + 1 ≤ m.stack.size) : Agrees (do
      lift (Exec.pushUndefined (f.numLocals - (← sub (← lift Exec.stackSize) (callee + 1))))
      lift (Exec.pushFrame (.start f (callee + 1))))
      (do
        Exec.pushUndefined (f.numLocals - ((← Exec.stackSize) - (callee + 1)))
        Exec.pushFrame (.start f (callee + 1))) m := by
    refine agrees_first fun size m' h => ?_
    cases h
    rw [sub_eq hle, pure_bind]
    exact agrees_first fun _ m' _ => agrees_lift _ m'
  refine agrees_first fun _ m' harity => ?_
  obtain ⟨rfl, hargs⟩ : m' = m ∧ (f.variadic = true → f.numParams - 1 ≤ argc) := by
    rw [Exec.ofExcept_eq] at harity
    unfold Function.checkArity at harity
    by_cases ha : f.arity.accepts argc = true
    · rw [if_pos ha] at harity
      cases harity
      refine ⟨rfl, fun hv => ?_⟩
      simpa [Function.arity, hv, Arity.accepts] using ha
    · rw [if_neg ha] at harity
      cases harity
  rw [add_eq (by omega), pure_bind]
  by_cases hv : f.variadic = true
  · simp only [hv, if_true]
    rw [sub_eq (hargs hv), pure_bind, popMany_eq]
    refine agrees_first fun rest m₁ hpop => agrees_first fun v m₂ hnew => ?_
    refine agrees_first fun _ m₃ hpush => hlast ?_
    have hpopped := Exec.size_of_popMany hpop
    have hpushed := Exec.size_of_push hpush
    rw [Exec.stack_of_onHeap hnew] at hpushed
    omega
  · simp only [hv]
    exact hlast (by omega)

theorem agrees_callBuiltin (host : Host) (b : Builtin) {callee : Nat} (h : callee + 1 < 2 ^ 64) :
    Agrees (callBuiltin host b callee) (Exec.callBuiltin host b callee) m := by
  unfold callBuiltin Exec.callBuiltin
  rw [add_eq h, pure_bind]
  refine agrees_first fun args m₁ _ => agrees_first fun result m₂ _ => ?_
  cases result.isUndefined with
  | true => exact agrees_first fun _ _ _ => rfl
  | false => exact agrees_first fun _ _ _ => agrees_first fun _ _ _ => rfl

/-- A call whose arguments are all on the stack. -/
theorem agrees_call (host : Host) {argc : Nat} (hm : m.stack.size < 2 ^ 63)
    (hargc : argc + 1 < 2 ^ 64) : Agrees (call host argc false) (Exec.call host argc false) m := by
  unfold call Exec.call
  simp only [Bool.false_eq_true, if_false, pure_bind]
  refine agrees_first fun size m' hsize => ?_
  cases hsize
  rw [add_eq hargc, pure_bind]
  by_cases hlt : m.stack.size < argc + 1
  · rw [if_pos hlt, if_pos hlt]
    rfl
  · rw [if_neg hlt, if_neg hlt]
    refine agrees_first fun v m' hget => ?_
    have hsame : m'.stack.size = m.stack.size := Exec.size_of_get hget
    cases v with
    | function f => exact agrees_enterFunction (by omega) (by omega)
    | builtin b => exact agrees_callBuiltin host b (by omega)
    | _ => rfl

theorem call_spread (host : Host) (argc : Nat) :
    call host argc true = spreadLast argc >>= fun argc => call host argc false := rfl

/-- A spread argument leaves no more on the stack than it can hold. -/
theorem agrees_spreadLast {argc : Nat} (hm : m.Based n) (hroom : m.stack.size ≤ m.stack.capacity)
    (hn : m.stack.capacity < 2 ^ 63) (hargc : argc < 2 ^ 32) :
    Agrees (spreadLast argc) (Exec.spreadLast argc) m := by
  unfold spreadLast Exec.spreadLast
  by_cases h0 : argc = 0
  · rw [if_pos h0, if_pos h0]
    rfl
  rw [if_neg h0, if_neg h0]
  refine agrees_first fun v m₁ hpop => ?_
  have hkept := hm.kept Exec.stays_pop hpop
  cases v with
  | array ref =>
    show Agrees (do
        lift (Exec.pushAll (m₁.heap.arrayAt ref).toList)
        add (← sub argc 1) (m₁.heap.arrayAt ref).size)
      (do
        Exec.pushAll (m₁.heap.arrayAt ref).toList
        return argc - 1 + (m₁.heap.arrayAt ref).size) m₁
    refine agrees_first fun _ m₂ hpush => ?_
    have hsize := Exec.size_of_pushAll hpush
    have hkept' := (hm.of_stays Exec.stays_pop hpop).kept (Exec.stays_pushAll _) hpush
    have hroom' := hkept'.stack (hkept.stack hroom)
    rw [hkept'.capacity, hkept.capacity] at hroom'
    rw [Array.length_toList] at hsize
    rw [sub_eq (by omega), pure_bind, add_eq (by omega)]
    rfl
  | _ => rfl

/-- Without a callee beneath, an activation that is not the outermost would have nowhere to return
to. -/
theorem leave_eq {f : Frame} {rest : List Frame} (hf : m.frames = f :: rest) (result : Value) :
    leave result m =
      if rest.isEmpty then .ok (some result) { m with frames := rest }
      else (do
        let callee ← sub f.base 1
        lift (Exec.onStack (Stack.truncate callee))
        lift (Exec.push result)
        return none : Checked (Option Value)) { m with frames := rest } := by
  unfold leave
  rw [bind_eq]
  simp only [Exec.get_eq, hf]
  rw [bind_eq]
  simp only [Exec.modify_eq, lift]
  by_cases hr : rest.isEmpty = true
  · simp only [hr, if_true]
    rfl
  · simp only [hr]
    rfl

/-- There is an activation to leave, and it has a callee unless it is the outermost one. -/
theorem agrees_leave {f : Frame} {rest : List Frame} (hf : m.frames = f :: rest)
    (hb : rest ≠ [] → 1 ≤ f.base) (result : Value) :
    Agrees (leave result) (Exec.leave result) m := by
  rw [Agrees, leave_eq hf, lift, Exec.leave_eq hf]
  by_cases hr : rest = []
  · rw [if_pos (by rw [hr]; rfl), if_pos (by rw [hr]; rfl)]
  · have hbase := hb hr
    have hr' : ¬ rest.isEmpty = true := by rwa [List.isEmpty_iff]
    have hlast : Agrees (do
        lift (Exec.onStack (Stack.truncate (f.base - 1)))
        lift (Exec.push result)
        return none) (do
        Exec.onStack (Stack.truncate (f.base - 1))
        Exec.push result
        return (none : Option Value)) { m with frames := rest } :=
      agrees_first fun _ _ _ => agrees_first fun _ _ _ => rfl
    rw [if_neg hr', if_neg hr', if_neg (by omega), sub_eq hbase, pure_bind]
    exact hlast

/-- The sum of base and slots fits 64 bits, as for a local. -/
theorem agrees_haltResult (hm : m.Based n) (hn : n < 2 ^ 63) :
    Agrees haltResult Exec.haltResult m := by
  refine agrees_frame hm fun f hf => ?_
  rw [add_eq (by omega), pure_bind]
  refine agrees_first fun size m' _ => ?_
  split
  · exact .of_eq (peek_eq 0)
  · rfl

end Checked

/-! ## Operands -/

/-- So many bytes make a number below so many powers of 256. -/
theorem bigEndianFrom_lt (acc : Nat) (bytes : List UInt8) :
    bigEndianFrom acc bytes < (acc + 1) * 256 ^ bytes.length := by
  induction bytes generalizing acc with
  | nil => simp [bigEndianFrom]
  | cons b bytes ih =>
    have hb : b.toNat < 256 := b.toNat_lt
    calc bigEndianFrom acc (b :: bytes)
        < (acc * 256 + b.toNat + 1) * 256 ^ bytes.length := ih _
      _ ≤ ((acc + 1) * 256) * 256 ^ bytes.length := Nat.mul_le_mul_right _ (by omega)
      _ = (acc + 1) * 256 ^ (b :: bytes).length := by
        rw [List.length_cons, Nat.pow_succ, Nat.mul_assoc, Nat.mul_comm 256]

/-- No operand has more than four bytes. -/
theorem lt_of_takeOperands {widths : List Nat} {code : List UInt8} {operands : List Nat}
    {rest : List UInt8} (hw : ∀ w ∈ widths, w ≤ 4)
    (h : takeOperands widths code = some (operands, rest)) : ∀ n ∈ operands, n < 2 ^ 32 := by
  induction widths generalizing code operands with
  | nil =>
    cases h
    simp
  | cons width widths ih =>
    simp only [takeOperands] at h
    split at h
    · cases h
    obtain ⟨⟨os, r⟩, hos, heq⟩ := Option.map_eq_some_iff.1 h
    cases heq
    intro n hn
    rcases List.mem_cons.1 hn with rfl | hn
    · have hlength : (code.take width).length ≤ 4 :=
        Nat.le_trans (List.length_take_le ..) (hw width (.head _))
      calc ofBigEndian (code.take width) < (0 + 1) * 256 ^ (code.take width).length :=
            bigEndianFrom_lt 0 _
        _ ≤ (0 + 1) * 256 ^ 4 := Nat.mul_le_mul_left _ (Nat.pow_le_pow_right (by decide) hlength)
        _ = 2 ^ 32 := by decide
    · exact ih (fun w hw' => hw w (.tail _ hw')) hos n hn

theorem Function.first_lt_of_fetch {f : Function} {ip next : Nat} {i : Instruction}
    (h : f.fetch ip = .instruction i next) : i.first < 2 ^ 32 := by
  have hwidths (op : Opcode) : ∀ w ∈ op.operandWidths, w ≤ 4 := by cases op <;> decide
  unfold fetch at h
  split at h
  · cases h
  split at h
  · cases h
  rename_i op _
  split at h
  · rename_i operands _ htake
    cases h
    cases operands with
    | nil => exact Nat.two_pow_pos 32
    | cons n operands => exact lt_of_takeOperands (hwidths op) htake n (.head _)
  · cases h

/-! ## Instructions -/

/-- The machine is within its limits, the local slots of its activations lie within the capacity of
the stack, and all but the outermost activation have a callee. -/
structure Machine.Safe (constants : Array Value) (limits : Limits) (m : Machine) : Prop where
  constants : m.constants = constants
  capacity : m.stack.capacity = limits.stackSize
  maxFrames : m.maxFrames = limits.maxFrames
  stack : m.stack.size ≤ limits.stackSize
  depth : m.depth ≤ limits.maxFrames
  locals : ∀ f ∈ m.frames, f.base + f.function.numLocals ≤ limits.stackSize
  callee : ∀ f ∈ m.frames.dropLast, 1 ≤ f.base

namespace Machine.Safe

variable {constants : Array Value} {limits : Limits} {m m' : Machine} {f : Frame}
  {rest : List Frame}

/-- The invariant holds of every activation, so of the one at the top. -/
theorem based (hm : m.Safe constants limits) (hf : m.frames = f :: rest) :
    m.Based limits.stackSize := ⟨f, rest, hf, hm.locals f (by simp [hf])⟩

theorem one_le_base (hm : m.Safe constants limits) (hf : m.frames = f :: rest) (hr : rest ≠ []) :
    1 ≤ f.base := hm.callee f (by simp [hf, List.dropLast_cons_of_ne_nil hr])

/-- What a run keeps has its share in the invariant, and the rest is about the activations. -/
theorem of_kept (hm : m.Safe constants limits) (hk : m.Kept m')
    (hlocals : ∀ f ∈ m'.frames, f.base + f.function.numLocals ≤ limits.stackSize)
    (hcallee : ∀ f ∈ m'.frames.dropLast, 1 ≤ f.base) : m'.Safe constants limits where
  constants := hk.constants.trans hm.constants
  capacity := hk.capacity.trans hm.capacity
  maxFrames := hk.maxFrames.trans hm.maxFrames
  stack := by
    have hstack := hk.stack (hm.capacity ▸ hm.stack)
    rwa [hk.capacity, hm.capacity] at hstack
  depth := by
    have hdepth := hk.frames (hm.maxFrames ▸ hm.depth)
    rwa [hk.maxFrames, hm.maxFrames] at hdepth
  locals := hlocals
  callee := hcallee

/-- What matters of an activation is its function and its base. -/
theorem of_top {f' : Frame} (hm : m.Safe constants limits) (hf : m.frames = f :: rest)
    (hk : m.Kept m') (hf' : m'.frames = f' :: rest) (hfun : f'.function = f.function)
    (hb : f'.base = f.base) : m'.Safe constants limits := by
  refine hm.of_kept hk (fun g hg => ?_) fun g hg => ?_
  · rw [hf'] at hg
    rcases List.mem_cons.1 hg with rfl | hg
    · rw [hb, hfun]
      exact hm.locals f (by simp [hf])
    · exact hm.locals g (by simp [hf, hg])
  · rw [hf'] at hg
    cases rest with
    | nil => simp at hg
    | cons f₁ rest =>
      rcases List.mem_cons.1 hg with rfl | hg
      · rw [hb]
        exact hm.one_le_base hf (by simp)
      · refine hm.callee g ?_
        rw [hf]
        exact .tail _ hg

theorem goTo (hm : m.Safe constants limits) (ip : Nat) : (m.goTo ip).Safe constants limits := by
  cases hf : m.frames with
  | nil => rwa [show m.goTo ip = m by simp [Machine.goTo, hf]]
  | cons f rest => exact hm.of_top hf (Exec.kept_goTo m ip) (Machine.frames_goTo hf ip) rfl rfl

end Machine.Safe

namespace Checked

variable {constants : Array Value} {limits : Limits} {m : Machine} {f : Frame} {rest : List Frame}

/-- A call passes its checks, whether it spreads its last argument or not. -/
theorem agrees_anyCall (host : Host) {argc : Nat} (hn : limits.stackSize < 2 ^ 63)
    (hm : m.Safe constants limits) (hf : m.frames = f :: rest) (hargc : argc < 2 ^ 32)
    (spread : Bool) : Agrees (call host argc spread) (Exec.call host argc spread) m := by
  have hsize := hm.stack
  have hcapacity := hm.capacity
  cases spread with
  | false => exact agrees_call host (by omega) (by omega)
  | true =>
    rw [call_spread, Exec.call_spread]
    refine (agrees_spreadLast (hm.based hf) (by omega) (by omega) hargc).bind fun argc' m' h => ?_
    have hkept := (hm.based hf).kept (Exec.stays_spreadLast argc) h
    have hsize' := Exec.size_of_spreadLast h
    have hroom := hkept.stack (by omega)
    rw [hkept.capacity] at hroom
    exact agrees_call host (by omega) (by omega)

/-- An instruction passes its checks. -/
theorem agrees_execute (host : Host) {i : Instruction} (hn : limits.stackSize < 2 ^ 63)
    (hslots : ∀ f, .function f ∈ constants → f.function.NarrowSlots)
    (hm : m.Safe constants limits) (hf : m.frames = f :: rest) (hi : i.first < 2 ^ 32) :
    Agrees (execute host i) (Exec.execute host i) m := by
  have hbased := hm.based hf
  have hpopped {v : Value} {m' : Machine} (h : Exec.pop m = .ok v m') :
      m'.Based limits.stackSize := hbased.of_stays Exec.stays_pop h
  obtain ⟨op, operands⟩ := i
  cases op
  case constant | null | true | false | pop | equal | notEqual | lnot => exact agrees_lift _ m
  case add | sub | mul | div | rem | bitAnd | bitOr | bitXor | bitAndNot | shl | shr =>
    exact (Agrees.of_eq (applyBinary_eq _)).goOn
  case less | lessEq | greater | greaterEq | minus | bComplement => exact (agrees_lift _ m).goOn
  -- variables
  case getGlobal => exact (agrees_first fun _ _ _ => rfl : Agrees _ _ m).goOn
  case setGlobal => exact (agrees_first fun _ _ _ => rfl : Agrees _ _ m).goOn
  case getLocal => exact (agrees_getLocal hbased hn hi).last.goOn
  case setLocal =>
    exact (agrees_first fun v _ h => agrees_setLocal (hpopped h) hn hi v : Agrees _ _ m).goOn
  case defineLocal =>
    exact (agrees_first fun v _ h => agrees_defineLocal (hpopped h) hn hi v : Agrees _ _ m).goOn
  case getFree => exact (agrees_first fun _ _ _ => rfl : Agrees _ _ m).goOn
  case setFree => exact (agrees_first fun _ _ _ => rfl : Agrees _ _ m).goOn
  case getBuiltin => exact (agrees_first fun _ _ _ => rfl : Agrees _ _ m).goOn
  -- containers and closures
  case array => exact (Agrees.of_eq (makeArray_eq _)).goOn
  case map => exact (Agrees.of_eq (makeMap_eq (by omega))).goOn
  case error | index => exact (agrees_lift _ m).goOn
  case sliceIndex => exact (Agrees.of_eq readSlice_eq).goOn
  case setIndex => exact (Agrees.of_eq writeIndex_eq).goOn
  case closure =>
    refine (agrees_makeClosure hbased hn (fun f hf => hslots f ?_) _).last.goOn
    rwa [← hm.constants]
  -- going elsewhere
  case jump | jumpFalsy => exact (agrees_lift _ m).goOn
  case andJump => exact (Agrees.of_eq (andJump_eq _)).goOn
  case orJump => exact (Agrees.of_eq (orJump_eq _)).goOn
  case call => exact (agrees_anyCall host hn hm hf hi _).goOn
  case ret =>
    refine agrees_first fun v m' h => ?_
    obtain ⟨f', -, hb, -, hf'⟩ := ((Exec.stays_returnValue _ m f rest).ok (.self hf) h).top
    exact agrees_leave hf' (fun hr => hb ▸ hm.one_le_base hf hr) v
  case halt => exact (agrees_haltResult hbased hn).last (k := fun v => pure (some v))

/-- A step fetches its instruction, passing the checks of the pointer, and executes it. -/
theorem agrees_step (host : Host) (hn : limits.stackSize < 2 ^ 63)
    (hslots : ∀ f, .function f ∈ constants → f.function.NarrowSlots)
    (hm : m.Safe constants limits) : Agrees (step host) (Exec.step host) m := by
  refine (Agrees.of_eq instruction_eq).bind fun i m' hi => ?_
  cases hf : m.frames with
  | nil =>
    rw [Exec.instruction_of_no_frame hf] at hi
    cases hi
  | cons f rest =>
    rw [Exec.instruction_eq hf] at hi
    cases hfetch : f.function.fetch f.ip with
    | fault e ip =>
      rw [hfetch] at hi
      cases hi
    | instruction i' next =>
      rw [hfetch] at hi
      cases hi
      exact agrees_execute host hn hslots (hm.goTo next) (Machine.frames_goTo hf next)
        (Function.first_lt_of_fetch hfetch)

end Checked
end ScriptVM
