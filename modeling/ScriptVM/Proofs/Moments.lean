import ScriptVM.Proofs.CallMachine

/-!
# The moments of a run

A run goes from one machine to the next until an instruction ends it. The moments at which it goes
on are numbered, so that what happens at one of them can be told from what happens at another of the
same kind.
-/

namespace ScriptVM.Machine

variable {host : Host} {m r r' : Machine} {n : Nat}

/-- The machine after one more instruction, if the run goes on then. -/
def goesOn? (host : Host) (m : Machine) : Option Machine :=
  match Exec.step host m with
  | .ok none m' => some m'
  | _ => none

/-- The machine after so many instructions, if the run goes on for so long. -/
def after (host : Host) : (moment : Nat) → Machine → Option Machine
  | 0, m => some m
  | n + 1, m => (after host n m).bind (goesOn? host)

/-- The run goes on if its step does not end it. -/
theorem goesOn?_eq_some : m.goesOn? host = some r ↔ Exec.step host m = .ok none r := by
  unfold goesOn?
  rcases Exec.step host m with ⟨_ | v, m'⟩ | ⟨e, m'⟩ <;> simp

/-- The last of the steps is taken from the machine before it. -/
theorem after_succ : m.after host (n + 1) = some r' ↔
    ∃ r, m.after host n = some r ∧ Exec.step host r = .ok none r' := by
  rw [after, Option.bind_eq_some_iff]
  simp only [goesOn?_eq_some]

/-- A state that is reached is reached at some moment. -/
theorem reaches_iff_after : m.Reaches host r ↔ ∃ n, m.after host n = some r := by
  constructor
  · intro h
    induction h with
    | start => exact ⟨0, rfl⟩
    | step _ hs ih =>
      obtain ⟨n, hn⟩ := ih
      exact ⟨n + 1, after_succ.2 ⟨_, hn, hs⟩⟩
  · rintro ⟨n, hn⟩
    induction n generalizing r with
    | zero =>
      cases hn
      exact .start
    | succ n ih =>
      obtain ⟨r', hr', hs⟩ := after_succ.1 hn
      exact (ih hr').step hs

/-- What the run comes to is what it comes to from any of its moments. -/
theorem run_of_after (h : m.after host n = some r) (steps : Nat) :
    m.run host (n + steps) = r.run host steps := by
  induction n generalizing r steps with
  | zero =>
    cases h
    rw [Nat.zero_add]
  | succ n ih =>
    obtain ⟨r', hr', hs⟩ := after_succ.1 h
    rw [Nat.add_right_comm, Nat.add_assoc, ih hr', run, hs]

/-- A fault of the run is that of an instruction. -/
theorem step_of_fault {steps : Nat} {e : Fault} (h : m.run host steps = .error (.fault e) r) :
    ∃ r', m.Reaches host r' ∧ Exec.step host r' = .error e r := by
  induction steps generalizing m with
  | zero => cases h
  | succ steps ih =>
    rw [run] at h
    cases hs : Exec.step host m with
    | error e' m' =>
      rw [hs] at h
      cases h
      exact ⟨m, .start, hs⟩
    | ok v m' =>
      rw [hs] at h
      cases v with
      | some v => cases h
      | none =>
        obtain ⟨r', hr', hstep⟩ := ih h
        exact ⟨r', hr'.cons hs, hstep⟩

end ScriptVM.Machine
