import ScriptVM.Proofs.Beside
import ScriptVM.Proofs.OutsideCall

/-!
# Calls from outside on related heaps

A call from outside cannot tell a heap from a related one either. It ends alike on both, and of what
is not paired it has changed nothing.
-/

namespace ScriptVM

variable {host : Host}

namespace Exec

variable {w : World} {ρ : Renaming}

/-- Related arguments take up as much room on both sides. -/
theorem sim_pushAll {vs vs' : List Value} (hvs : Values.Related ρ vs vs') (floor top : Nat) :
    Sim (beside w) ρ ((beside w).Above floor top) (pushAll vs) (pushAll vs') (fun _ _ _ => True)
      ((beside w).Above floor (top + vs.length)) := by
  induction hvs generalizing top with
  | nil => exact sim_pure (fun _ _ => trivial) fun _ hp => hp
  | @cons v v' vs _ hv _ ih =>
    refine (sim_pushAbove (lawful_beside w) hv).bind fun ρ₁ _ _ hle _ => ?_
    rw [List.length_cons, show top + (vs.length + 1) = top + 1 + vs.length by omega]
    exact fun ρ₂ m m' hle₁ => ih (top + 1) ρ₂ m m' (hle.trans hle₁)

/-- The stubs are entered with the same function and arguments above. -/
theorem sim_enterCall {f f' : FunctionObject} {args args' : List Value}
    (hf : (Value.function f).Related ρ (.function f')) (hargs : Values.Related ρ args args') :
    Sim (beside w) ρ ((beside w).Above 0 0) (enterCall f args) (enterCall f' args')
      (fun _ _ _ => True) fun _ => True := by
  have hstub : (Frame.start rootStub 0).Related ρ (.start rootStub 0) := ⟨⟨rfl, .nil⟩, rfl, rfl⟩
  have hframe : Sim (beside w) ρ ((beside w).Above 0 0) (pushFrame (.start rootStub 0))
      (pushFrame (.start rootStub 0)) (fun _ _ _ => True) ((beside w).Above 0 0) :=
    sim_pushFrame hstub .nil fun o ho => ⟨fun _ hi => hi.elim, ho.size, ho.le⟩
  unfold enterCall
  refine hframe.bind fun ρ₁ _ _ hle _ => ?_
  refine (sim_pushAbove (lawful_beside w) (hf.mono hle)).bind fun ρ₂ _ _ hle₁ _ => ?_
  refine (sim_pushAll (hargs.mono (hle.trans hle₁)) 0 1).bind fun ρ₃ _ _ hle₂ _ => ?_
  have hfunction : f.function.Related ρ f'.function := by
    cases hf with
    | function _ hf => exact hf
  rw [← hargs.length_eq]
  have henter := sim_enterFunction (lawful_beside w)
    (hfunction.mono (hle.trans (hle₁.trans hle₂))) 0 args.length
  exact henter.post fun _ _ => trivial

end Exec

/-- Whether an entry of the pool is `undefined` is the same for related entries. -/
theorem validateConstants_related {ρ : Renaming} {pool pool' : Array Value}
    (h : Values.Related ρ pool.toList pool'.toList) :
    validateConstants pool = validateConstants pool' := by
  have hfind {vs vs' : List Value} (h : Values.Related ρ vs vs') :
      vs.findIdx? Value.isUndefined = vs'.findIdx? Value.isUndefined := by
    induction h with
    | nil => rfl
    | cons hv _ ih => rw [List.findIdx?_cons, List.findIdx?_cons, hv.isUndefined_eq, ih]
  obtain ⟨vs⟩ := pool
  obtain ⟨vs'⟩ := pool'
  unfold validateConstants
  rw [List.findIdx?_toArray, List.findIdx?_toArray, hfind h]

/-- Idle machines with related constants and globals. -/
theorem related_idle {w : World} {pool pool' globals globals' : Array Value} (limits : Limits)
    (hv : w.Valid) (hpool : Values.Related w.ρ pool.toList pool'.toList)
    (hglobals : Values.Related w.ρ globals.toList globals'.toList) :
    (beside w).Related w.ρ (.idle pool globals limits w.left) (.idle pool' globals' limits w.right)
    where
  constants := hpool
  stack := ⟨rfl, rfl, fun _ hu _ => by simp [Machine.idle, Stack.ofCapacity] at hu⟩
  frames := .nil
  maxFrames := rfl
  globals := hglobals
  budget := rfl
  heap := hv
  link := ⟨(World.Extends.refl w).grows, .nil⟩

namespace HeapM

variable {w : World}

/-- A run of related machines ends alike. -/
theorem finish_beside (hhost : Uniform host) {ρ : Renaming} {m m' : Machine}
    (hr : (beside w).Related ρ m m') (steps : Nat) (h h' : Heap) :
    (∃ r r' w₁, RunM.finish host steps m h = .ok r w₁.left ∧
        RunM.finish host steps m' h' = .ok r' w₁.right ∧ w.Grows w₁ ∧ w₁.Valid ∧
        r.1.Related w₁.ρ r'.1 ∧ Values.Related w₁.ρ r.2.toList r'.2.toList) ∨
      ∃ s w₁, RunM.finish host steps m h = .error s w₁.left ∧
        RunM.finish host steps m' h' = .error s w₁.right ∧ w.Grows w₁ ∧ w₁.Valid := by
  have hrun := (lawful_beside w).run (hhost.uniformIn _) (T := fun _ => True)
    (fun _ _ _ _ => trivial) (fun _ _ _ _ _ _ _ _ => ready_beside) (le_refl ρ) trivial hr steps
  rw [Locals.run_onDemand, Locals.run_onDemand] at hrun
  unfold RunM.finish
  obtain ⟨v, v', ρ₁, m₁, m₁', hx, hy, -, hr₁, hv⟩ | ⟨s, ρ₁, m₁, m₁', hx, hy, -, hr₁⟩ :=
    hrun.cases
  · rw [hx, hy]
    exact .inl ⟨_, _, ⟨ρ₁, m₁.heap, m₁'.heap⟩, rfl, rfl, hr₁.link.1, hr₁.heap, hv, hr₁.globals⟩
  · rw [hx, hy]
    exact .inr ⟨s, ⟨ρ₁, m₁.heap, m₁'.heap⟩, rfl, rfl, hr₁.link.1, hr₁.heap⟩

/-- Calls of related functions, with related constants, globals and arguments, end alike. -/
theorem sim_invoke (hhost : Uniform host) (steps : Nat) {f f' : FunctionObject}
    {pool pool' globals globals' : Array Value} {args args' : List Value} (limits : Limits)
    (hf : (Value.function f).Related w.ρ (.function f'))
    (hpool : Values.Related w.ρ pool.toList pool'.toList)
    (hglobals : Values.Related w.ρ globals.toList globals'.toList)
    (hargs : Values.Related w.ρ args args') :
    Sim World.Grows w (f.invoke host steps (some pool) globals args limits)
      (f'.invoke host steps (some pool') globals' args' limits) fun w₁ r r' =>
        r.1.Related w₁.ρ r'.1 ∧ Values.Related w₁.ρ r.2.toList r'.2.toList := by
  intro w₁ hg hv
  have hstart := related_idle limits hv (hpool.mono hg.le) (hglobals.mono hg.le)
  have henter := (Exec.sim_enterCall (w := w₁) (hf.mono hg.le) (hargs.mono hg.le)).cases
    (le_refl _) hstart ⟨fun _ hi => hi.elim, rfl, Nat.le_refl _⟩
  have harity : f'.function.checkArity args'.length = f.function.checkArity args.length := by
    cases hf with
    | function _ hf =>
      rw [hf.eq, ← hargs.length_eq]
      rfl
  rw [FunctionObject.invoke_eq, FunctionObject.invoke_eq, ← validateConstants_related hpool, harity]
  cases validateConstants pool with
  | error e => exact ⟨rfl, w₁.ρ, (World.Extends.refl w₁).grows, hv⟩
  | ok _ =>
    cases f.function.checkArity args.length with
    | error e => exact ⟨rfl, w₁.ρ, (World.Extends.refl w₁).grows, hv⟩
    | ok _ =>
      dsimp only
      obtain ⟨_, _, ρ, m, m', hx, hy, -, hr, -⟩ | ⟨e, ρ, m, m', hx, hy, -, hr⟩ := henter
      · rw [hx, hy]
        dsimp only
        obtain ⟨r, r', w₂, hx, hy, hend⟩ | ⟨s, w₂, hx, hy, hend⟩ :=
          finish_beside hhost hr steps w₁.left w₁.right
        · rw [hx, hy]
          exact ⟨w₂.ρ, hend⟩
        · rw [hx, hy]
          exact ⟨rfl, w₂.ρ, hend⟩
      · rw [hx, hy]
        exact ⟨rfl, ρ, hr.link.1, hr.heap⟩

end HeapM
end ScriptVM
