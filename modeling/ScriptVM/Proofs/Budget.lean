import ScriptVM.Proofs.Charges
import ScriptVM.Proofs.Launch
import ScriptVM.Proofs.LocalCells

/-!
# What a budget allows

A run with a budget of `n` that calls no builtin makes at most `n` objects, beside one array for
each call of a function with a collecting parameter. Arrays, maps, cells and closures are counted on
the heap. An error value is not on the heap, so error values are counted as they are made: by the
instructions along the run that make one.
-/

namespace ScriptVM

variable {host : Host} {m : Machine} {n : Int}

/-! ## What the next instruction does -/

/-- The value that a call finds beneath its arguments, once the last one is spread. -/
def Exec.callee (argc : Nat) (spread : Bool) : Exec Value := do
  let argc ← if spread then spreadLast argc else pure argc
  onStack (Stack.peek argc)

namespace Machine

/-- What the next instruction calls, if it is a call that finds something. -/
def callee? (m : Machine) : Option Value :=
  match m.frames with
  | [] => none
  | f :: _ =>
    match f.function.fetch f.ip with
    | .instruction i next =>
      if i.op = .call then
        match Exec.callee i.first (i.second != 0) (m.goTo next) with
        | .ok v _ => some v
        | .error _ _ => none
      else none
    | .fault _ _ => none

def callsBuiltin (m : Machine) : Bool :=
  match m.callee? with
  | some (.builtin _) => true
  | _ => false

/-- Whether the next instruction calls a function with a collecting parameter. -/
def collects (m : Machine) : Bool :=
  match m.callee? with
  | some (.function f) => f.function.variadic
  | _ => false

def wraps (host : Host) (m : Machine) : Bool :=
  match m.instruction?, Exec.step host m with
  | some i, .ok _ _ => i.op = .error
  | _, _ => false

end Machine

/-! ## Instructions -/

namespace Exec

/-- A computation has ended within `n`, or in a fault within `b`, unless the fault is that the
budget is exhausted. -/
def Paid {α : Type} (b n : Int) : EStateM.Result Fault Machine α → Prop
  | .ok _ m => m.Within n
  | .error e m => e ≠ .objectAllocLimit → m.Within b

@[simp] theorem paid_ok {α : Type} {b : Int} {a : α} :
    Paid b n (.ok a m) ↔ m.Within n := Iff.rfl

@[simp] theorem paid_error {α : Type} {b : Int} {e : Fault} :
    Paid b n (.error e m : EStateM.Result Fault Machine α) ↔
      (e ≠ .objectAllocLimit → m.Within b) := Iff.rfl

/-- Going on after an instruction makes nothing and costs nothing. -/
theorem Paid.goOn {b : Int} {x : Exec Unit} (h : Paid b n (x m)) : Paid b n (goOn x m) := by
  rw [Exec.goOn, bind_eq]
  cases hx : x m with
  | ok _ m' =>
    rw [hx] at h
    exact h
  | error e m' =>
    rw [hx] at h
    exact h

theorem Pays.goOn {n' : Int} {x : Exec Unit} (hx : Pays n n n' x) (hle : n' ≤ n) :
    Pays n n n' (goOn x) :=
  hx.bind fun _ => (costless_pure none).pays hle

/-- Every instruction but two kinds is charged for what it makes. An error value is not seen on the
heap, and a call may make an array that is not charged for. -/
theorem pays_execute (host : Host) {i : Instruction} (herror : i.op ≠ .error)
    (hcall : i.op ≠ .call) : Pays n n n (execute host i) := by
  have hperforms := performs_execute host i
  obtain ⟨op, operands⟩ := i
  dsimp only at herror hcall hperforms
  cases op
  case error => exact absurd rfl herror
  case call => exact absurd rfl hcall
  case add | sub | mul | div | rem | bitAnd | bitOr | bitXor | bitAndNot | shl | shr =>
    exact (pays_applyBinary _).goOn (Int.le_refl n)
  case minus | bComplement => exact (pays_applyUnary _).goOn (Int.le_refl n)
  case array => exact (pays_makeArray _).goOn (Int.le_refl n)
  case map => exact (pays_makeMap _).goOn (Int.le_refl n)
  case sliceIndex => exact pays_readSlice.goOn (Int.le_refl n)
  case closure =>
    exact ((pays_makeClosure _).bind fun _ => (costless_push _).pays (Int.le_refl n)).goOn
      (Int.le_refl n)
  -- The others neither make an object nor are charged for one.
  all_goals exact (hperforms.costless (by decide) (by decide)).pays (Int.le_refl n)

/-- The arguments are spread before the callee is looked for, since this tells how many there
are. -/
theorem callee_spread (argc : Nat) :
    callee argc true = spreadLast argc >>= fun argc => callee argc false := rfl

theorem callee_eq (argc : Nat) (m : Machine) :
    callee argc false m =
      if m.stack.size < argc + 1 then .error .stackUnderflow m
      else
        match m.stack.values[m.stack.size - (argc + 1)]? with
        | some v => .ok v m
        | none => .error .stackUnderflow m := by
  have hcallee : callee argc false = onStack (Stack.peek argc) := rfl
  rw [hcallee, onStack_eq, Stack.peek, show m.stack.values.size = m.stack.size from rfl,
    show m.stack.size - 1 - argc = m.stack.size - (argc + 1) by omega]
  by_cases hlt : argc < m.stack.size
  · rw [if_pos hlt, if_neg (by omega)]
    cases m.stack.values[m.stack.size - (argc + 1)]? <;> rfl
  · rw [if_neg hlt, if_pos (by omega)]

/-- A call of a function makes an array if the function has a collecting parameter. Otherwise it
makes nothing, unless a builtin is called. -/
theorem paid_call (host : Host) (hm : m.Within n) (argc : Nat) (spread : Bool) :
    match callee argc spread m with
    | .ok (.function f) _ => Paid (n + f.function.variadic.toNat) (n + f.function.variadic.toNat)
        (call host argc spread m)
    | .ok (.builtin _) _ => True
    | _ => Paid n n (call host argc spread m) := by
  have hplain {m : Machine} (hm : m.Within n) (argc : Nat) :
      match callee argc false m with
      | .ok (.function f) _ => Paid (n + f.function.variadic.toNat)
          (n + f.function.variadic.toNat) (call host argc false m)
      | .ok (.builtin _) _ => True
      | _ => Paid n n (call host argc false m) := by
    rw [callee_eq, call_eq]
    by_cases hlt : m.stack.size < argc + 1
    · simp [hlt, hm]
    · simp only [if_neg hlt]
      cases m.stack.values[m.stack.size - (argc + 1)]? with
      | none => exact fun _ => hm
      | some v =>
        cases v with
        | function f => exact pays_enterFunction f.function _ argc m hm
        | builtin b => trivial
        | _ => exact fun _ => hm
  cases spread with
  | false => exact hplain hm argc
  | true =>
    rw [callee_spread, call_spread, bind_eq, bind_eq]
    have huses := uses_spreadLast (E := [.take, .put]) argc (by decide) (by decide)
    have hspread := (huses.costless (by decide) (by decide)).pays (Int.le_refl n) m hm
    cases hs : spreadLast argc m with
    | ok argc m₁ =>
      rw [hs] at hspread
      exact hplain hspread argc
    | error e m₁ =>
      rw [hs] at hspread
      exact hspread

end Exec

/-! ## Steps -/

theorem Machine.Within.goTo (hm : m.Within n) (next : Nat) : (m.goTo next).Within n := by
  have hbudget : (m.goTo next).budget = m.budget := by
    unfold Machine.goTo
    split <;> rfl
  simpa [Within, hbudget] using hm

section

variable {f : Frame} {rest : List Frame} {i : Instruction} {next : Nat}

/-- The callee is looked for as the call will do it, with the pointer past the instruction. -/
theorem Machine.callee?_of_fetch (hf : m.frames = f :: rest)
    (hfetch : f.function.fetch f.ip = .instruction i next) :
    m.callee? =
      if i.op = .call then
        match Exec.callee i.first (i.second != 0) (m.goTo next) with
        | .ok v _ => some v
        | .error _ _ => none
      else none := by
  simp only [callee?, hf, hfetch]

/-- No other instruction makes an error value. -/
theorem Machine.wraps_of_fetch (host : Host) (hf : m.frames = f :: rest)
    (hfetch : f.function.fetch f.ip = .instruction i next) (herror : i.op ≠ .error) :
    m.wraps host = false := by
  unfold wraps
  rw [instruction?_eq hf hfetch]
  cases Exec.step host m <;> simp [herror]

/-- A call makes the array of a collecting parameter, and nothing else as long as no builtin is
called. -/
theorem Machine.Within.step_call (hm : m.Within n) (hb : m.callsBuiltin = false)
    (hf : m.frames = f :: rest) (hfetch : f.function.fetch f.ip = .instruction i next)
    (hcall : i.op = .call) :
    Exec.Paid (n + m.collects.toNat) (n + m.collects.toNat) (Exec.step host m) := by
  have hexec : Exec.execute host i = Exec.goOn (Exec.call host i.first (i.second != 0)) := by
    unfold Exec.execute
    rw [hcall]
  have hpaid := Exec.paid_call host (hm.goTo next) i.first (i.second != 0)
  have hcallee := callee?_of_fetch hf hfetch
  rw [if_pos hcall] at hcallee
  rw [Exec.step_eq host hf, hfetch]
  dsimp only
  rw [hexec]
  apply Exec.Paid.goOn
  unfold callsBuiltin at hb
  unfold collects
  rw [hcallee] at hb ⊢
  cases hv : Exec.callee i.first (i.second != 0) (m.goTo next) with
  | error e m₁ =>
    rw [hv] at hpaid
    simpa using hpaid
  | ok v m₁ =>
    rw [hv] at hpaid hb
    cases v with
    | function f => simpa using hpaid
    | builtin b => simp at hb
    | _ => simpa using hpaid

/-- Making an error value is charged for, while the heap stays as it is. -/
theorem Machine.Within.step_error (hm : m.Within n) (hf : m.frames = f :: rest)
    (hfetch : f.function.fetch f.ip = .instruction i next) (herror : i.op = .error) :
    Exec.Paid n (n - (m.wraps host).toNat) (Exec.step host m) := by
  have hexec : Exec.execute host i = Exec.goOn Exec.makeError := by
    unfold Exec.execute
    rw [herror]
  have hpaid : Exec.Paid n (n - 1) (Exec.goOn Exec.makeError (m.goTo next)) :=
    Exec.pays_makeError.goOn (by omega) _ (hm.goTo next)
  have hstep : Exec.step host m = Exec.goOn Exec.makeError (m.goTo next) := by
    rw [Exec.step_eq host hf, hfetch, ← hexec]
  unfold wraps
  rw [instruction?_eq hf hfetch, hstep]
  cases hr : Exec.goOn Exec.makeError (m.goTo next) with
  | ok _ m₁ =>
    rw [hr] at hpaid
    simpa [herror] using hpaid
  | error e m₁ =>
    rw [hr] at hpaid
    simpa using hpaid

end

/-- What a step adds is charged for, but for the array of a collecting parameter. -/
theorem Machine.Within.step (host : Host) (hm : m.Within n) (hb : m.callsBuiltin = false) :
    Exec.Paid (n + m.collects.toNat) (n + m.collects.toNat - (m.wraps host).toNat)
      (Exec.step host m) := by
  cases hf : m.frames with
  | nil =>
    rw [Exec.step_of_no_frame host hf]
    exact fun _ => hm.mono (by omega)
  | cons f rest =>
    cases hfetch : f.function.fetch f.ip with
    | fault e ip =>
      rw [Exec.step_eq host hf, hfetch]
      exact fun _ => (hm.goTo ip).mono (by omega)
    | instruction i next =>
      by_cases hcall : i.op = .call
      · simpa [wraps_of_fetch host hf hfetch (by simp [hcall])] using
          hm.step_call hb hf hfetch hcall
      have hcollects : m.collects = false := by simp [collects, callee?_of_fetch hf hfetch, hcall]
      by_cases herror : i.op = .error
      · simpa [hcollects] using hm.step_error hf hfetch herror
      · have hpaid : Exec.Paid n n (Exec.execute host i (m.goTo next)) :=
          Exec.pays_execute host herror hcall _ (hm.goTo next)
        rw [Exec.step_eq host hf, hfetch]
        simpa [hcollects, wraps_of_fetch host hf hfetch herror] using hpaid

/-! ## Runs

By induction on the steps. Each of them adds to the account what it makes without being charged, and
the account is told by what the machine is about to do in each of its states.
-/

/-- An instruction that fails has made no error value. -/
theorem Machine.wraps_of_error {e : Fault} {m' : Machine} (hs : Exec.step host m = .error e m') :
    m.wraps host = false := by
  unfold wraps
  rw [hs]
  cases m.instruction? <;> rfl

/-- What a run adds is charged for, but for the arrays of collecting parameters. -/
theorem Machine.Within.run (hm : m.Within n) (steps : Nat)
    (hb : ∀ r, m.Reaches host r → r.callsBuiltin = false)
    (hend : ∀ m', m.run host steps ≠ .error (.fault .objectAllocLimit) m') :
    (Exec.left (m.run host steps)).Within (n + (m.trail host steps).countP (·.collects) -
      (m.trail host steps).countP (·.wraps host)) := by
  induction steps generalizing m n with
  | zero => simpa [Machine.run, trail, Exec.left] using hm
  | succ steps ih =>
    have hcount (p : Machine → Bool) (ms : List Machine) :
        (m :: ms).countP p = (p m).toNat + ms.countP p := by
      cases hp : p m <;> simp [hp, Nat.add_comm]
    have hpaid := hm.step host (hb m .start)
    rw [Machine.run] at hend ⊢
    rw [trail, hcount, hcount]
    cases hs : Exec.step host m with
    | error e m₁ =>
      rw [hs] at hpaid hend
      have hlimit : e ≠ .objectAllocLimit := by
        rintro rfl
        exact hend m₁ rfl
      simpa [wraps_of_error hs, Exec.left] using hpaid hlimit
    | ok r m₁ =>
      rw [hs] at hpaid hend
      cases r with
      | some v => simpa [Exec.left] using hpaid
      | none =>
        have hrest := ih hpaid (fun r hr => hb r (hr.cons hs)) hend
        apply hrest.mono
        dsimp only
        omega

/-! ## Runs of units and calls from outside

How a run begins matters too: a function that is called from outside may have a collecting parameter
itself, and its array is made before the first step.
-/

namespace Launch

/-- Whether what is run is called at once, as a function with a collecting parameter. -/
def collects : Launch → Bool
  | main _ => false
  | call f _ => f.function.variadic

def wrapped (host : Host) (steps : Nat) (l : Launch) (m : Machine) : Nat :=
  (l.trail host steps m).countP (·.wraps host)

/-- How many calls there are of a function with a collecting parameter. -/
def collected (host : Host) (steps : Nat) (l : Launch) (m : Machine) : Nat :=
  l.collects.toNat + (l.trail host steps m).countP (·.collects)

/-- The preparation makes what the call of the target makes. -/
theorem pays_enter (l : Launch) :
    Exec.Pays (n + l.collects.toNat) n (n + l.collects.toNat) l.enter := by
  cases l with
  | main f =>
    have hundefined : Exec.Uses [.put] (Exec.pushUndefined f.numLocals) :=
      Exec.uses_pushUndefined _ (by decide)
    have hmain : Exec.Costless (main f).enter :=
      (Exec.costless_pure ()).bind fun _ => (hundefined.costless (by decide) (by decide)).bind
        fun _ => Exec.costless_pushFrame _
    simpa [collects] using hmain.pays (Int.le_refl n)
  | call f args =>
    have hargs : Exec.Uses [.put] (do Exec.push (.function f); Exec.pushAll args) :=
      (Exec.uses_push _ (by decide)).bind fun _ => Exec.uses_pushAll args (by decide)
    have hsupply : Exec.Costless (call f args).supply :=
      Exec.costless_get.bind fun _ => (Exec.costless_ofExcept _).bind fun _ =>
        (Exec.costless_ofExcept _).bind fun _ => (Exec.costless_pushFrame _).bind fun _ =>
          hargs.costless (by decide) (by decide)
    exact hsupply.first (by omega) fun _ => Exec.pays_enterFunction _ _ _

/-- A run or a call from outside with a budget of `n`, which calls no builtin and does not exhaust
the budget, makes at most `n` objects and error values, and one array for each call of a function
with a collecting parameter. -/
theorem made_le {l : Launch} {pool globals : Array Value} {limits : Limits} {heap : Heap}
    {n steps : Nat} (hlimit : limits.maxAllocs = some n)
    (hb : ∀ start r, l.enter (.idle pool globals limits heap) = .ok () start →
      start.Reaches host r → r.callsBuiltin = false)
    (hend : (l.outcome host steps (.idle pool globals limits heap)).result ≠
      .error (.fault .objectAllocLimit)) :
    (l.outcome host steps (.idle pool globals limits heap)).heap.objects +
        l.wrapped host steps (.idle pool globals limits heap) ≤
      heap.objects + n + l.collected host steps (.idle pool globals limits heap) := by
  have hidle : (Machine.idle pool globals limits heap).Within (heap.objects + n) :=
    ⟨n, hlimit, Int.le_refl _⟩
  have henter := pays_enter l _ hidle
  rw [outcome] at hend ⊢
  unfold wrapped collected trail
  cases hr : l.enter (.idle pool globals limits heap) with
  | error e m =>
    rw [hr] at henter hend
    have hlimit : e ≠ .objectAllocLimit := by
      rintro rfl
      exact hend rfl
    obtain ⟨b, -, hle⟩ := henter hlimit
    dsimp only at hle ⊢
    simp only [List.countP_nil]
    omega
  | ok _ start =>
    rw [hr] at henter hend
    have hrun := henter.run steps (fun r => hb start r hr) fun m' hm' => hend (by
      dsimp only
      rw [hm']
      rfl)
    obtain ⟨b, -, hle⟩ := hrun
    have hheap : (Outcome.ofRun (start.run host steps)).heap =
        (Exec.left (start.run host steps)).heap := by
      cases start.run host steps <;> rfl
    dsimp only
    rw [hheap]
    omega

end Launch

/-! ### A function that collects its arguments

Nothing is left of the budget from the beginning, and the call makes an array all the same.
-/

def returnsArguments : FunctionObject where
  id := 0
  function := { Function.ofCode #[Opcode.getLocal.byte, 0, Opcode.ret.byte, 1] 1 1 with
    variadic := true }

def collectsUncharged : CompiledUnit where
  id := 1
  main := .ofCode #[Opcode.constant.byte, 0, 0, Opcode.call.byte, 0, 0, Opcode.halt.byte] 0 0
  constants := #[.function returnsArguments]

/-- A budget of nothing does not keep the run from making an array. -/
theorem Launch.made_collectsUncharged :
    (∀ m ∈ (main collectsUncharged.main).trail sampleHost 5
        (.idle collectsUncharged.constants #[] { maxAllocs := some 0 } {}),
      m.callsBuiltin = false) ∧
    ((main collectsUncharged.main).outcome sampleHost 5
        (.idle collectsUncharged.constants #[] { maxAllocs := some 0 } {})).result =
      .ok (.array ⟨0⟩) ∧
    ((main collectsUncharged.main).outcome sampleHost 5
        (.idle collectsUncharged.constants #[] { maxAllocs := some 0 } {})).heap =
      { arrays := #[#[]] } := by
  decide +kernel

/-! ### An error that is made of the arguments

The unit makes an array for the argument and an error value of the arguments. With a budget of two,
three things are made, as one function with a collecting parameter is called.
-/

def wrapsArguments : FunctionObject where
  id := 0
  function := { Function.ofCode #[Opcode.getLocal.byte, 0, Opcode.error.byte, Opcode.ret.byte, 1]
    1 1 with variadic := true }

def wrapsArray : CompiledUnit where
  id := 1
  main := .ofCode #[Opcode.constant.byte, 0, 0, Opcode.array.byte, 0, 0, Opcode.call.byte, 1, 0,
    Opcode.halt.byte] 0 0
  constants := #[.function wrapsArguments]

theorem Launch.made_wrapsArray :
    ((main wrapsArray.main).outcome sampleHost 8
        (.idle wrapsArray.constants #[] { maxAllocs := some 2 } {})).heap.objects = 2 ∧
      (main wrapsArray.main).wrapped sampleHost 8
        (.idle wrapsArray.constants #[] { maxAllocs := some 2 } {}) = 1 ∧
      ((main wrapsArray.main).outcome sampleHost 8
          (.idle wrapsArray.constants #[] { maxAllocs := some 2 } {})).heap.objects +
          (main wrapsArray.main).wrapped sampleHost 8
            (.idle wrapsArray.constants #[] { maxAllocs := some 2 } {}) ≤
        Heap.objects {} + 2 + (main wrapsArray.main).collected sampleHost 8
          (.idle wrapsArray.constants #[] { maxAllocs := some 2 } {}) := by
  have hend : ((main wrapsArray.main).outcome sampleHost 8
      (.idle wrapsArray.constants #[] { maxAllocs := some 2 } {})).result =
        .ok (.error (.array ⟨1⟩)) := by
    decide +kernel
  have hall : ∀ m ∈ (main wrapsArray.main).trail sampleHost 8
      (.idle wrapsArray.constants #[] { maxAllocs := some 2 } {}), m.callsBuiltin = false := by
    decide +kernel
  refine ⟨by decide +kernel, by decide +kernel, made_le rfl ?_ ?_⟩
  · intro start r hstart hr
    exact hall r (mem_trail hstart hr (by rw [hend]; nofun))
  · rw [hend]
    nofun

end ScriptVM
