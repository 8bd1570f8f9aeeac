import ScriptVM.Machine.Run
import ScriptVM.Proofs.Ground

/-!
# Machines of calls

The stack from a callee on and the activations from the callee's on are a machine of their own, and
what is beneath is its ground. The machine of a call runs by itself until its last activation
returns. `runCall_on` says what this run is on a ground: there the call comes back to the caller.
-/

namespace ScriptVM

variable {host : Host} {m m' : Machine}

/-! ## The run of a call

A call that a run makes is over when the activations are as many as before. It may be over without
having returned: the run may be halted inside it, or end in a fault.
-/

/-- How a call made in a run is over. -/
inductive CallEnd where
  /-- The callee has returned. -/
  | returned
  /-- The whole run has been halted with a value. -/
  | halted (v : Value)
  deriving DecidableEq

/-- Runs a machine until it is halted or no more than `depth` activations are left. -/
def Machine.runCall (host : Host) (depth : Nat) :
    (steps : Nat) → Machine → EStateM.Result Stop Machine CallEnd
  | 0, m => .error .outOfSteps m
  | steps + 1, m =>
    match Exec.step host m with
    | .ok (some v) m => .ok (.halted v) m
    | .ok none m => if m.depth ≤ depth then .ok .returned m else runCall host depth steps m
    | .error e m => .error (.fault e) m

/-- A run begins with the runs of the calls it makes. -/
theorem Machine.run_eq_runCall (host : Host) (depth steps : Nat) (m : Machine) :
    match m.runCall host depth steps with
    | .ok .returned m' => ∃ j ≤ steps, ∀ k, m.run host (j + k) = m'.run host k
    | .ok (.halted v) m' => m.run host steps = .ok v m'
    | .error s m' => m.run host steps = .error s m' := by
  induction steps generalizing m with
  | zero => rfl
  | succ steps ih =>
    rw [Machine.runCall, Machine.run]
    cases hs : Exec.step host m with
    | error e m₁ => rfl
    | ok r m₁ =>
      cases r with
      | some v => rfl
      | none =>
        dsimp only
        by_cases hd : m₁.depth ≤ depth
        · rw [if_pos hd]
          refine ⟨1, by omega, fun k => ?_⟩
          rw [Nat.add_comm, Machine.run, hs]
        · rw [if_neg hd]
          have h := ih m₁
          cases hr : m₁.runCall host depth steps with
          | error s m₂ =>
            rw [hr] at h
            exact h
          | ok e m₂ =>
            rw [hr] at h
            cases e with
            | halted v => exact h
            | returned =>
              obtain ⟨j, hj, h⟩ := h
              refine ⟨j + 1, by omega, fun k => ?_⟩
              rw [show j + 1 + k = j + k + 1 by omega, Machine.run, hs]
              exact h k

/-! ## Machines of calls -/

/-- The machine of a call by itself: its outermost activation has only the callee beneath it, and it
has room for the callee. -/
structure Machine.Called (c : Machine) : Prop where
  frames : ∃ upper f, c.frames = upper ++ [f] ∧ f.base = 1 ∧ ∀ u ∈ upper, u.base ≠ 0
  room : 0 < c.stack.capacity

/-- The next instruction takes nothing from below the base of the executing activation. -/
def Machine.Supplied (m : Machine) : Prop :=
  ∀ f rest i next, m.frames = f :: rest → f.function.fetch f.ip = .instruction i next →
    f.base + i.takes m.stack.size ≤ m.stack.size

/-- What an instruction takes is known once it has been fetched. -/
theorem Machine.Supplied.of_fetch {f : Frame} {rest : List Frame} {i : Instruction} {next : Nat}
    (hf : m.frames = f :: rest) (hfetch : f.function.fetch f.ip = .instruction i next)
    (h : f.base + i.takes m.stack.size ≤ m.stack.size) : m.Supplied := by
  intro f' rest' i' next' hf' hfetch'
  rw [hf] at hf'
  cases hf'
  rw [hfetch] at hfetch'
  cases hfetch'
  exact h

/-- The ground after a call on it has returned. -/
def Machine.landed (g : Ground) (v : Value) (c : Machine) : Machine :=
  { c.on g with stack := ⟨g.values.push v, g.values.size + c.stack.capacity⟩ }

namespace Machine.Called

variable {c c' : Machine} {f : Frame} {rest : List Frame}

/-- The outermost activation has base 1. -/
theorem base_of_last (hc : c.Called) (h : c.frames = [f]) : f.base = 1 := by
  obtain ⟨upper, last, hf, hb, -⟩ := hc.frames
  cases upper with
  | nil => rw [hf] at h; cases h; exact hb
  | cons u upper => simp [hf] at h

theorem frames_ne_nil (hc : c.Called) : c.frames ≠ [] := by
  obtain ⟨upper, last, hf, -⟩ := hc.frames
  rw [hf]
  simp

theorem base_ne_zero (hc : c.Called) (h : c.frames = f :: rest) : f.base ≠ 0 := by
  obtain ⟨upper, last, hf, hb, hu⟩ := hc.frames
  cases upper with
  | nil => rw [hf] at h; cases h; omega
  | cons u upper => rw [hf] at h; cases h; exact hu _ (.head _)

/-- The machine of a call is still one when its executing activation has been replaced. -/
theorem replace (hc : c.Called) (h : c.frames = f :: rest) {f' : Frame} (hb : f'.base = f.base)
    (h' : c'.frames = f' :: rest) (hr : 0 < c'.stack.capacity) : c'.Called := by
  obtain ⟨upper, last, hf, hl, hu⟩ := hc.frames
  refine ⟨?_, hr⟩
  cases upper with
  | nil =>
    rw [hf] at h
    cases h
    exact ⟨[], f', h', hb.trans hl, by simp⟩
  | cons u upper =>
    rw [hf] at h
    cases h
    refine ⟨f' :: upper, last, h', hl, ?_⟩
    intro w hw
    rcases List.mem_cons.1 hw with rfl | hw
    · rw [hb]
      exact hu f (.head _)
    · exact hu w (.tail _ hw)

/-- A function that is called stands on the stack above the callee of the call at hand. -/
theorem enter (hc : c.Called) {function : Function} {callee : Nat}
    (h : c'.frames = .start function (callee + 1) :: c.frames) (hr : 0 < c'.stack.capacity) :
    c'.Called := by
  obtain ⟨upper, last, hf, hl, hu⟩ := hc.frames
  refine ⟨⟨.start function (callee + 1) :: upper, last, by rw [h, hf]; rfl, hl, ?_⟩, hr⟩
  intro w hw
  rcases List.mem_cons.1 hw with rfl | hw
  · exact Nat.succ_ne_zero callee
  · exact hu w hw

/-- A return that is not the last one leaves the callee of the call where it is. -/
theorem leave (hc : c.Called) (h : c.frames = f :: rest) (hne : rest ≠ []) (h' : c'.frames = rest)
    (hr : 0 < c'.stack.capacity) : c'.Called := by
  obtain ⟨upper, last, hf, hl, hu⟩ := hc.frames
  refine ⟨?_, hr⟩
  cases upper with
  | nil =>
    rw [hf] at h
    cases h
    exact absurd rfl hne
  | cons u upper =>
    rw [hf] at h
    cases h
    exact ⟨upper, last, h', hl, fun w hw => hu w (.tail _ hw)⟩

/-- What an instruction makes of the machine of a call is one again, unless it leaves the last
activation. -/
theorem of_moved {i : Instruction} (hc : c.Called) (h : c.frames = f :: rest)
    (hm : Exec.Moved i c f rest c') (hl : i.op = .ret → rest ≠ []) : c'.Called := by
  have hroom {c' : Machine} (hk : c.Kept c') : 0 < c'.stack.capacity := by
    rw [hk.capacity]
    exact hc.room
  cases hm with
  | stays he =>
    obtain ⟨f', -, hb, -, hf'⟩ := he.top
    exact hc.replace h hb hf' (hroom he.kept)
  | jumps _ he =>
    obtain ⟨f', -, hb, -, hf'⟩ := he.top
    exact hc.replace h hb hf' (hroom he.kept)
  | enters _ function callee f' hk _ hb _ hf' =>
    have h' : { c with frames := f' :: rest }.Called := hc.replace h hb rfl hc.room
    exact h'.enter hf' (hroom hk)
  | leaves hleaving hk hf' => exact hc.leave h (hl hleaving) hf' (hroom hk)

end Machine.Called

/-! ## Runs on a ground

In each step, the machine on the ground does what it does by itself, until the last activation
returns. By itself this ends the run; on the ground the result is put in the callee's place.
-/

section

variable {g : Ground} {c c' : Machine} {f : Frame} {rest : List Frame}

/-- The ground adds to the height. -/
theorem Machine.size_on (g : Ground) (c : Machine) :
    (c.on g).stack.size = g.values.size + c.stack.size := by
  simp [on, Stack.size]

/-- The machine takes nothing from below the base of its executing activation, wherever it stands,
if it takes nothing there on a ground that is at least as high. -/
theorem Machine.Supplied.on_lower {g' : Ground} (hle : g'.values.size ≤ g.values.size)
    (hc : c.frames ≠ []) (h : (c.on g).Supplied) : (c.on g').Supplied := by
  obtain ⟨f, rest, hf⟩ := List.exists_cons_of_ne_nil hc
  intro f' rest' i next hf' hfetch
  rw [frames_on hf] at hf'
  cases hf'
  have htakes := h _ _ i next (frames_on hf) hfetch
  rw [size_on, Frame.raise] at htakes ⊢
  dsimp only at htakes ⊢
  rw [Instruction.takes_eq_of_le (Nat.add_le_add_right hle _) (by omega)]
  omega

/-- On the ground, the return from the last activation of a call puts the result in the callee's
place. -/
theorem Exec.over_lastLeave (hg : g.frames ≠ []) (hc : c.Called) (h : c.frames = [f]) (taken : Bool)
    (hsize : taken = true → 0 < c.stack.size) :
    match (returnValue taken >>= leave) c with
    | .ok none _ => False
    | .ok (some v) c' =>
      c'.frames = [] ∧ (returnValue taken >>= leave) (c.on g) = .ok none (c'.landed g v)
    | .error e c' => (returnValue taken >>= leave) (c.on g) = .error e (c'.on g) := by
  have hlift : Lifts g (returnValue taken) c := lifts_returnValue taken hsize
  unfold Lifts Over at hlift
  rw [bind_eq, bind_eq, hlift]
  cases hv : returnValue taken c with
  | error e c' => rfl
  | ok v c' =>
    have hf : c'.frames = [f] := (frames_of_returnValue hv).trans h
    have hb := hc.base_of_last h
    have hroom : 0 < c'.stack.capacity := by
      have he := (stays_returnValue taken c f []).ok (.self h) hv
      rw [he.kept.capacity]
      exact hc.room
    have hg' : (([] : List Frame).map (Frame.raise g.values.size) ++ g.frames).isEmpty = false := by
      simpa using hg
    have hb' : (f.raise g.values.size).base = g.values.size + 1 := by
      rw [Frame.raise, hb]
    dsimp only
    rw [leave_eq hf, leave_eq (Machine.frames_on hf)]
    refine ⟨rfl, ?_⟩
    simp only [id, hg', hb', Bool.false_eq_true, if_false, Nat.succ_ne_zero, Nat.add_sub_cancel]
    rw [bind_eq, onStack_eq, Stack.truncate]
    dsimp only [Machine.on]
    rw [show g.values.size = g.values.size + 0 by rfl, shrink_append, bind_eq, push_eq]
    simp [Machine.landed, Machine.on, hroom, pure_eq]

/-- What a computation of a call's machine is on a ground. One that leaves the last activation ends
the run without the ground, and goes on with the ground's own activation. -/
def Exec.Carries (g : Ground) (x : Exec (Option Value)) (c : Machine) : Prop :=
  match x c with
  | .ok none c' => c'.Called ∧ x (c.on g) = .ok none (c'.on g)
  | .ok (some v) c' =>
    if c'.frames = [] then x (c.on g) = .ok none (c'.landed g v)
    else x (c.on g) = .ok (some v) (c'.on g)
  | .error e c' => x (c.on g) = .error e (c'.on g)

/-- Only a return can leave the last activation, and all other instructions are lifted. -/
theorem Exec.carries_execute (hg : g.frames ≠ []) (hc : c.Called) (i : Instruction)
    (hf : c.frames = f :: rest)
    (htakes : i.takes (g.values.size + c.stack.size) ≤ c.stack.size) :
    Carries g (execute host i) c := by
  unfold Carries
  -- Only the return from the last activation does otherwise on a ground, whose caller goes on.
  by_cases hlast : i.op = .ret ∧ rest = []
  · obtain ⟨hop, rfl⟩ := hlast
    have htaken : (i.first != 0) = true → 0 < c.stack.size := fun h => by
      simp only [Instruction.takes, Instruction.demand, hop, h, if_true] at htakes
      exact htakes
    have h := over_lastLeave hg hc hf (i.first != 0) htaken
    rw [show execute host i = returnValue (i.first != 0) >>= leave by rw [execute, hop]]
    cases hx : (returnValue (i.first != 0) >>= leave) c with
    | error e c' =>
      rw [hx] at h
      exact h
    | ok r c' =>
      rw [hx] at h
      cases r with
      | none => exact h.elim
      | some v =>
        dsimp only
        rw [if_pos h.1]
        exact h.2
  · have hlift : Lifts g (execute host i) c :=
      lifts_execute host i hf htakes fun hop => ⟨fun hr => hlast ⟨hop, hr⟩, hc.base_ne_zero hf⟩
    unfold Lifts Over at hlift
    have hmoved := moves_execute host i c f rest c (.self hf)
    cases hx : execute host i c with
    | error e c' =>
      rw [hx] at hlift
      exact hlift
    | ok r c' =>
      rw [hx] at hlift hmoved
      have hc' : c'.Called := hc.of_moved hf hmoved fun hop hr => hlast ⟨hop, hr⟩
      cases r with
      | none => exact ⟨hc', hlift⟩
      | some v =>
        dsimp only
        rw [if_neg hc'.frames_ne_nil]
        exact hlift

/-- The same for a step, where what the instruction takes is asked for by `Supplied`. -/
theorem Exec.carries_step (host : Host) (hg : g.frames ≠ []) (hc : c.Called)
    (hs : (c.on g).Supplied) : Carries g (step host) c := by
  obtain ⟨f, rest, hf⟩ := List.exists_cons_of_ne_nil hc.frames_ne_nil
  unfold Carries
  rw [step_eq host hf, step_eq host (Machine.frames_on hf)]
  simp only [Machine.goTo_on hf]
  cases hfetch : f.function.fetch f.ip with
  | fault e ip =>
    rw [show (f.raise g.values.size).function.fetch (f.raise g.values.size).ip = .fault e ip from
      hfetch]
  | instruction i next =>
    rw [show (f.raise g.values.size).function.fetch (f.raise g.values.size).ip =
      .instruction i next from hfetch]
    have htakes := hs _ _ i next (Machine.frames_on hf) hfetch
    have hf' := Machine.frames_goTo hf next
    have hstack : (c.goTo next).stack = c.stack := Machine.stack_goTo c next
    have hb : ({ f with ip := next } : Frame).base = f.base := rfl
    have hc' : (c.goTo next).Called := hc.replace hf hb hf' (hstack ▸ hc.room)
    refine carries_execute hg hc' i hf' ?_
    rw [Machine.size_on, Frame.raise] at htakes
    dsimp only at htakes
    rw [hstack]
    omega

/-! ## Whole runs

That instructions stay above their bases is asked of the states that the run goes on from, since a
run that has ended asks for nothing any more.
-/

/-- The states of the run by itself, up to the last one that it goes on from. -/
inductive Machine.Reaches (host : Host) (c : Machine) : Machine → Prop where
  | start : Reaches host c c
  | step {c₁ c₂ : Machine} (h : Reaches host c c₁) (hs : Exec.step host c₁ = .ok none c₂) :
    Reaches host c c₂

/-- A run may be extended at its beginning as well. -/
theorem Machine.Reaches.cons {c₁ c₂ : Machine} (hs : Exec.step host c = .ok none c₁)
    (h : c₁.Reaches host c₂) : c.Reaches host c₂ := by
  induction h with
  | start => exact .step .start hs
  | step _ h ih => exact .step ih h

/-- The states that a run goes on from in the first so many steps. -/
def Machine.trail (host : Host) : Nat → Machine → List Machine
  | 0, _ => []
  | n + 1, m =>
    m :: match Exec.step host m with
      | .ok none m => trail host n m
      | _ => []

def Machine.isOver (host : Host) (n : Nat) (m : Machine) : Bool :=
  match m.run host n with
  | .error .outOfSteps _ => false
  | _ => true

/-- A state is the first one, or is reached from the second. -/
theorem Machine.Reaches.eq_or {m m₁ : Machine} (h : m.Reaches host m₁) :
    m₁ = m ∨ ∃ m₂, Exec.step host m = .ok none m₂ ∧ m₂.Reaches host m₁ := by
  induction h with
  | start => exact .inl rfl
  | step _ hs ih =>
    rcases ih with rfl | ⟨m₂, hfirst, hrest⟩
    · exact .inr ⟨_, hs, .start⟩
    · exact .inr ⟨m₂, hfirst, hrest.step hs⟩

/-- A run that is over has only gone on from the states on its trail. -/
theorem Machine.Reaches.mem_trail {n : Nat} {m m₁ : Machine} (h : m.Reaches host m₁)
    (hover : m.isOver host n = true) : m₁ ∈ m.trail host n := by
  induction n generalizing m with
  | zero => cases hover
  | succ n ih =>
    rcases h.eq_or with rfl | ⟨m₂, hs, hrest⟩
    · exact .head _
    · rw [Machine.isOver, Machine.run, hs] at hover
      rw [Machine.trail, hs]
      exact .tail _ (ih hrest hover)

/-- What the end of a run by itself is on a ground. -/
def Machine.endOn (g : Ground) :
    EStateM.Result Stop Machine Value → EStateM.Result Stop Machine CallEnd
  | .ok v c => if c.frames = [] then .ok .returned (c.landed g v) else .ok (.halted v) (c.on g)
  | .error s c => .error s (c.on g)

/-- The run of a call on a ground is the run of its machine by itself. -/
theorem Machine.runCall_on (hg : g.frames ≠ []) (hc : c.Called)
    (hs : ∀ c', c.Reaches host c' → (c'.on g).Supplied) (steps : Nat) :
    (c.on g).runCall host g.frames.length steps = endOn g (c.run host steps) := by
  induction steps generalizing c with
  | zero => rfl
  | succ steps ih =>
    have h := Exec.carries_step host hg hc (hs c .start)
    unfold Exec.Carries at h
    rw [runCall, run]
    cases hx : Exec.step host c with
    | error e c' =>
      rw [hx] at h
      simp only [h, endOn]
    | ok r c' =>
      rw [hx] at h
      cases r with
      | none =>
        have hdeep : ¬ (c'.on g).depth ≤ g.frames.length := by
          have := List.length_pos_iff.2 h.1.frames_ne_nil
          simp only [depth, on, List.length_append, List.length_map]
          omega
        simp only [h.2, if_neg hdeep]
        exact ih h.1 fun c'' hr => hs c'' (hr.cons hx)
      | some v =>
        by_cases hf : c'.frames = []
        · have hland : (c'.landed g v).depth ≤ g.frames.length := by
            simp [depth, landed, on, hf]
          simp only [hf, if_true] at h
          simp only [h, endOn, hf, if_true, if_pos hland]
        · simp only [hf, if_false] at h
          simp only [h, endOn, hf, if_false]

end

end ScriptVM
