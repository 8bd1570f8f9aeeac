import ScriptVM.Proofs.Launch
import ScriptVM.Proofs.LimitedStep

/-!
# Limits only cut runs short

A run under tighter limits is the beginning of the run under wider ones. It ends in the same way, or
it is cut short where the wider run holds or allocates more than the tighter limits permit.
-/

namespace ScriptVM

open Exec (left)

/-! ## Runs -/

/-- The machine is one that a run comes to: before an instruction, midway through it, or where the
run stops. -/
inductive Machine.Visits (host : Host) (m : Machine) : Machine → Prop where
  | reached {r : Machine} (h : m.Reaches host r) : Visits host m r
  | midway {r : Machine} (h : m.Reaches host r) : Visits host m (left (Exec.midway r))
  | stopped {r : Machine} (h : m.Reaches host r) : Visits host m (left (Exec.step host r))

/-- Two outcomes are the same, or the first is one that its limits have cut short. `P` and `P'` hold
of the machines that the two runs visit. -/
inductive Outcome.Shortened (c : Limits) (gap : Option Nat) (P P' : Machine → Prop) :
    Outcome → Outcome → Prop where
  | same {o o' : Outcome} (h : o = o') : Shortened c gap P P' o o'
  | crowded {o o' : Outcome} {v : Machine} (ho : o.result = .error (.fault .stackOverflow))
    (hv : P' v) (h : v.Crowded c) : Shortened c gap P P' o o'
  | spent {o o' : Outcome} {v v' : Machine}
    (ho : o.result = .error (.fault .objectAllocLimit)) (hv : P v) (h : v.budget = some 0)
    (hv' : P' v') (h' : v'.Spent gap) : Shortened c gap P P' o o'

variable {host : Host} {c : Limits} {gap budget : Option Nat} {m m₁ v : Machine}

theorem Machine.Visits.cons (hs : Exec.step host m = .ok none m₁) (h : m₁.Visits host v) :
    m.Visits host v := by
  cases h with
  | reached h => exact .reached (h.cons hs)
  | midway h => exact .midway (h.cons hs)
  | stopped h => exact .stopped (h.cons hs)

theorem Outcome.Shortened.mono {P P' Q Q' : Machine → Prop} {o o' : Outcome}
    (h : Shortened c gap P P' o o') (hP : ∀ v, P v → Q v) (hP' : ∀ v, P' v → Q' v) :
    Shortened c gap Q Q' o o' := by
  cases h with
  | same h => exact .same h
  | crowded ho hv h => exact .crowded ho (hP' _ hv) h
  | spent ho hv h hv' h' => exact .spent ho (hP _ hv) h (hP' _ hv') h'

/-- The run under tighter limits is the beginning of the run under wider ones. -/
theorem Machine.shortened_run (steps : Nat) (h : m.Covers c gap budget) :
    Outcome.Shortened c gap ((m.under c budget).Visits host) (m.Visits host)
      (.ofRun ((m.under c budget).run host steps)) (.ofRun (m.run host steps)) := by
  induction steps generalizing m budget with
  | zero => exact .same rfl
  | succ steps ih =>
    rw [Machine.run, Machine.run]
    rcases Exec.high_step host m budget h with hlimited | ⟨⟨m₀, heq⟩, hcrowded⟩
    · have hvisits : (m.under c budget).Visits host _ := .stopped .start
      have hvisits' : m.Visits host _ := .stopped .start
      generalize hr : Exec.step host (m.under c budget) = r at hlimited hvisits
      generalize hr' : Exec.step host m = r' at hlimited hvisits'
      cases hlimited with
      | same hsame =>
        cases hsame with
        | ok a h' =>
          cases a with
          | some v => exact .same rfl
          | none => exact (ih h').mono (fun _ => .cons hr) fun _ => .cons hr'
        | error e h' => exact .same rfl
      | crowded m₀ h' => exact .crowded rfl hvisits' h'
      | spent hm h' => exact .spent rfl hvisits hm hvisits' h'
    · rw [heq]
      exact .crowded rfl (.midway .start) hcrowded

namespace Launch

/-- The machine is one that the run comes to from when it is prepared. -/
inductive Visits (host : Host) (l : Launch) (m : Machine) : Machine → Prop where
  | supplied : Visits host l m (left (l.supply m))
  | entered : Visits host l m (left (l.enter m))
  | running {m₁ v : Machine} (h : l.enter m = .ok () m₁) (hv : m₁.Visits host v) :
    Visits host l m v

/-! ## Beginning under tighter limits -/

/-- The callee and its arguments are pushed, and nothing is taken off meanwhile. -/
theorem trims_supply (l : Launch) : Exec.Trims c gap l.supply := by
  cases l with
  | main f => exact (Exec.exact_pure ()).trims
  | call f args =>
    intro m budget h
    refine ((Exec.exact_ofExcept (validateConstants m.constants)).first fun _ => ?_) m budget h
    have hargs : Exec.Uses [.put] (do Exec.push (.function f); Exec.pushAll args) :=
      (Exec.uses_push _ (by decide)).bind fun _ => Exec.uses_pushAll args (by decide)
    exact (Exec.exact_ofExcept _).first fun _ => (Exec.trims_pushFrame _).bind
      (fun _ => hargs.trims (by decide)) fun _ => hargs.grows (by decide)

/-- No object is made before the target is entered. -/
theorem uncharged_supply (l : Launch) : Exec.Uncharged l.supply := by
  cases l with
  | main f => exact Exec.uncharged_pure ()
  | call f args =>
    intro m
    have hpool : validateConstants m.constants ≠ .error .objectAllocLimit := by
      unfold validateConstants
      split <;> simp
    have harity : f.function.checkArity args.length ≠ .error .objectAllocLimit := by
      unfold Function.checkArity
      split <;> simp
    exact ((Exec.uncharged_ofExcept hpool).bind fun _ =>
      (Exec.uncharged_ofExcept harity).bind fun _ =>
        (Exec.uncharged_pushFrame _).bind fun _ => (Exec.uncharged_push _).bind fun _ =>
          Exec.uncharged_pushAll args) m

/-- The slots are filled and the activation is started, after an array may have been made. -/
theorem trims_start (l : Launch) : Exec.Trims c gap l.start := by
  cases l with
  | main f =>
    have hundefined : Exec.Uses [.put] (Exec.pushUndefined f.numLocals) :=
      Exec.uses_pushUndefined _ (by decide)
    exact (hundefined.trims (by decide)).bind (fun _ => Exec.trims_pushFrame _) fun _ =>
      Exec.grows_pushFrame _
  | call f args => exact Exec.trims_enterFunction _ _ _

theorem high_enter (l : Launch) : Exec.High c gap (fun m => left (l.supply m)) l.enter :=
  l.trims_supply.high_bind l.uncharged_supply fun _ => l.trims_start

/-- From the beginning, the run under tighter limits is the beginning of the run under wider
ones. -/
theorem shortened_outcome (steps : Nat) (l : Launch) (h : m.Covers c gap budget) :
    Outcome.Shortened c gap (l.Visits host (m.under c budget)) (l.Visits host m)
      (l.outcome host steps (m.under c budget)) (l.outcome host steps m) := by
  unfold outcome
  rcases l.high_enter m budget h with hlimited | ⟨⟨m₀, heq⟩, hcrowded⟩
  · have hvisits : l.Visits host (m.under c budget) _ := .entered
    have hvisits' : l.Visits host m _ := .entered
    generalize hr : l.enter (m.under c budget) = r at hlimited hvisits
    generalize hr' : l.enter m = r' at hlimited hvisits'
    cases hlimited with
    | same hsame =>
      cases hsame with
      | ok a h' =>
        exact (Machine.shortened_run steps h').mono (fun _ => .running hr) fun _ => .running hr'
      | error e h' => exact .same rfl
    | crowded m₀ h' => exact .crowded rfl hvisits' h'
    | spent hm h' => exact .spent rfl hvisits hm hvisits' h'
  · rw [heq]
    exact .crowded rfl .supplied hcrowded

end Launch

/-! ## What the run visits under tighter limits -/

/-- Where nothing is exceeded, a computation leaves the same machine under tighter limits. -/
theorem Exec.Limited.left_eq {α : Type} {r r' : EStateM.Result Fault Machine α}
    (h : Limited c gap r r') (hroom : ¬ (left r').Crowded c) (hbudget : (left r).budget ≠ some 0) :
    ∃ budget, left r = (left r').under c budget := by
  cases h with
  | same hsame =>
    cases hsame with
    | ok a _ => exact ⟨_, rfl⟩
    | error e _ => exact ⟨_, rfl⟩
  | crowded _ h => exact absurd h hroom
  | spent h _ => exact absurd h hbudget

/-- A machine that the run under tighter limits reaches is one that the run under wider ones
reaches, but for the limits. -/
theorem Machine.Reaches.of_under {r : Machine} (h : m.Covers c gap budget)
    (hr : (m.under c budget).Reaches host r) :
    ∃ r' left, m.Reaches host r' ∧ r'.Covers c gap left ∧ r = r'.under c left := by
  induction hr with
  | start => exact ⟨m, budget, .start, h, rfl⟩
  | step _ hs ih =>
    obtain ⟨r', left, hr', hcovers, rfl⟩ := ih
    have hstep := Exec.high_step host r' left hcovers
    rw [hs] at hstep
    generalize hs' : Exec.step host r' = r'' at hstep
    rcases hstep with hlimited | ⟨⟨m₀, heq⟩, -⟩
    · cases hlimited with
      | same hsame =>
        cases hsame with
        | ok a h' => exact ⟨_, _, hr'.step hs', h', rfl⟩
    · cases heq

/-- So is any other that the run under tighter limits visits, as long as nothing is exceeded. -/
theorem Machine.Visits.of_under (h : m.Covers c gap budget)
    (hroom : ∀ v', m.Visits host v' → ¬ v'.Crowded c)
    (hbudget : ∀ v, (m.under c budget).Visits host v → v.budget ≠ some 0)
    (hv : (m.under c budget).Visits host v) :
    ∃ v' left, m.Visits host v' ∧ v = v'.under c left := by
  have hb := hbudget v hv
  cases hv with
  | reached hr =>
    obtain ⟨r', left, hr', -, rfl⟩ := Reaches.of_under h hr
    exact ⟨r', left, .reached hr', rfl⟩
  | midway hr =>
    obtain ⟨r', left, hr', hcovers, rfl⟩ := Reaches.of_under h hr
    have hv' : m.Visits host _ := .midway hr'
    obtain ⟨left', heq⟩ := (Exec.trims_midway r' left hcovers).left_eq (hroom _ hv') hb
    exact ⟨_, left', hv', heq⟩
  | stopped hr =>
    obtain ⟨r', left, hr', hcovers, rfl⟩ := Reaches.of_under h hr
    have hv' : m.Visits host _ := .stopped hr'
    rcases Exec.high_step host r' left hcovers with hlimited | ⟨-, hcrowded⟩
    · obtain ⟨left', heq⟩ := hlimited.left_eq (hroom _ hv') hb
      exact ⟨_, left', hv', heq⟩
    · exact absurd hcrowded (hroom _ (.midway hr'))

theorem Launch.Visits.of_under {l : Launch} (h : m.Covers c gap budget)
    (hroom : ∀ v', l.Visits host m v' → ¬ v'.Crowded c)
    (hbudget : ∀ v, l.Visits host (m.under c budget) v → v.budget ≠ some 0)
    (hv : l.Visits host (m.under c budget) v) :
    ∃ v' left, l.Visits host m v' ∧ v = v'.under c left := by
  have hb := hbudget v hv
  cases hv with
  | supplied =>
    have hv' : l.Visits host m _ := .supplied
    obtain ⟨left', heq⟩ := (l.trims_supply m budget h).left_eq (hroom _ hv') hb
    exact ⟨_, left', hv', heq⟩
  | entered =>
    have hv' : l.Visits host m _ := .entered
    rcases l.high_enter m budget h with hlimited | ⟨-, hcrowded⟩
    · obtain ⟨left', heq⟩ := hlimited.left_eq (hroom _ hv') hb
      exact ⟨_, left', hv', heq⟩
    · exact absurd hcrowded (hroom _ .supplied)
  | running henter hv =>
    have hstart := l.high_enter m budget h
    rw [henter] at hstart
    generalize henter' : l.enter m = r' at hstart
    rcases hstart with hlimited | ⟨⟨m₀, heq⟩, -⟩
    · cases hlimited with
      | same hsame =>
        cases hsame with
        | ok a h' =>
          obtain ⟨v', left', hv', heq⟩ := hv.of_under h' (fun _ hv => hroom _ (.running henter' hv))
            fun _ hv => hbudget _ (.running henter hv)
          exact ⟨v', left', .running henter' hv', heq⟩
    · cases heq

/-! ## Limits of the same run -/

/-- The first limits are at least as tight as the second, each by itself. -/
structure Limits.Within (c c' : Limits) : Prop where
  stackSize : c.stackSize ≤ c'.stackSize
  maxFrames : c.maxFrames ≤ c'.maxFrames
  maxAllocs : ∀ n', c'.maxAllocs = some n' → ∃ n ≤ n', c.maxAllocs = some n

instance : LE Limits := ⟨Limits.Within⟩

/-- One budget is so much greater than the other, or has no end. -/
theorem Limits.Within.exists_gap {c c' : Limits} (h : c.Within c') :
    ∃ gap : Option Nat, c'.maxAllocs = gap.bind fun g => c.maxAllocs.map (· + g) := by
  cases h' : c'.maxAllocs with
  | none => exact ⟨none, rfl⟩
  | some n' =>
    obtain ⟨n, hle, hn⟩ := h.maxAllocs n' h'
    refine ⟨some (n' - n), ?_⟩
    simp only [hn, Option.bind_some, Option.map_some, Nat.add_sub_cancel' hle]

namespace Launch

/-- The run never holds more values or activations than the limits permit. -/
def HoldsWithin (host : Host) (l : Launch) (m : Machine) (c : Limits) : Prop :=
  ∀ v, l.Visits host m v → v.stack.size ≤ c.stackSize ∧ v.depth ≤ c.maxFrames

/-- The run never takes more than `n` allocations: if it may take one more than that, it always has
some left. -/
def AllocatesWithin (host : Host) (l : Launch) (m : Machine) (n : Nat) : Prop :=
  ∀ v, l.Visits host { m with budget := some (n + 1) } v → v.budget ≠ some 0

variable {constants globals : Array Value} {heap : Heap} {c' : Limits}

/-- At the beginning nothing has been used of either. -/
theorem covers_idle (hstack : c.stackSize ≤ c'.stackSize) (hframes : c.maxFrames ≤ c'.maxFrames)
    (hallocs : c'.maxAllocs = gap.bind fun g => c.maxAllocs.map (· + g)) :
    (Machine.idle constants globals c' heap).Covers c gap c.maxAllocs :=
  ⟨hstack, hframes, hallocs⟩

/-- What never holds too much does not hold too much at any of the machines that are visited. -/
theorem HoldsWithin.not_crowded {l : Launch} (h : l.HoldsWithin host m c)
    (hv : l.Visits host m v) : ¬ v.Crowded c := by
  obtain ⟨hstack, hframes⟩ := h v hv
  rintro (hlt | hlt)
  · exact Nat.not_lt.2 hstack hlt
  · exact Nat.not_lt.2 hframes hlt

/-- Under limits that the run neither exceeds nor uses up before others do, nothing is different. -/
theorem outcome_under {l : Launch} (steps : Nat) (h : m.Covers c gap budget)
    (hroom : ∀ v, l.Visits host m v → ¬ v.Crowded c)
    (hspent : (∃ v, l.Visits host (m.under c budget) v ∧ v.budget = some 0) →
      ∀ v, l.Visits host m v → ¬ v.Spent gap) :
    l.outcome host steps (m.under c budget) = l.outcome host steps m := by
  have hshort : Outcome.Shortened c gap (l.Visits host (m.under c budget)) (l.Visits host m)
      (l.outcome host steps (m.under c budget)) (l.outcome host steps m) :=
    l.shortened_outcome steps h
  cases hshort with
  | same heq => exact heq
  | crowded _ hv hcrowded => exact absurd hcrowded (hroom _ hv)
  | spent _ hv h0 hv' hs => exact absurd hs (hspent ⟨_, hv, h0⟩ _ hv')

/-- With as many allocations nothing is spent that others have not. -/
theorem outcome_under_same {l : Launch} (steps : Nat) (h : m.Covers c (some 0) budget)
    (hroom : ∀ v, l.Visits host m v → ¬ v.Crowded c) :
    l.outcome host steps (m.under c budget) = l.outcome host steps m := by
  refine outcome_under steps h hroom fun _ v _ hspent => ?_
  obtain ⟨left, hlt, -⟩ := hspent 0 rfl
  exact Nat.not_lt_zero left hlt

/-- One allocation more than the run takes is as good as any number of them. -/
theorem outcome_metered {l : Launch} {n : Nat} (steps : Nat) (hle : c ≤ c')
    (hallocs : c.maxAllocs = some n) (hne : c'.maxAllocs ≠ some n)
    (hholds : l.HoldsWithin host (.idle constants globals c' heap) c)
    (hallocates : l.AllocatesWithin host (.idle constants globals c' heap) n) :
    l.outcome host steps (.idle constants globals c heap) =
      l.outcome host steps (.idle constants globals c' heap) := by
  let metered : Limits := { c' with maxAllocs := some (n + 1) }
  obtain ⟨gap, hgap⟩ : ∃ gap : Option Nat,
      c'.maxAllocs = gap.bind fun g => metered.maxAllocs.map (· + g) := by
    cases h' : c'.maxAllocs with
    | none => exact ⟨none, rfl⟩
    | some n' =>
      obtain ⟨k, hk, hk'⟩ := hle.maxAllocs n' h'
      cases hallocs.symm.trans hk'
      have hne : n' ≠ n := fun h => hne (h' ▸ h ▸ rfl)
      exact ⟨some (n' - (n + 1)), by simp [metered]; omega⟩
  have hcovers : (Machine.idle constants globals c' heap).Covers metered gap (some (n + 1)) :=
    ⟨Nat.le_refl _, Nat.le_refl _, hgap⟩
  -- The metered run is the wide one, and holds no more.
  have hroom (v : Machine) (hv : l.Visits host (.idle constants globals c' heap) v) :
      ¬ v.Crowded metered := by
    intro hcrowded
    refine hholds.not_crowded hv ?_
    rcases hcrowded with hlt | hlt
    · exact .inl (Nat.lt_of_le_of_lt hle.stackSize hlt)
    · exact .inr (Nat.lt_of_le_of_lt hle.maxFrames hlt)
  have hwide : l.outcome host steps (.idle constants globals metered heap) =
      l.outcome host steps (.idle constants globals c' heap) :=
    outcome_under steps hcovers hroom fun ⟨v, hv, h0⟩ => absurd h0 (hallocates v hv)
  -- The tight run may take one allocation less, and the metered one never takes the last.
  have htight : (Machine.idle constants globals metered heap).Covers c (some 1) c.maxAllocs :=
    ⟨hle.stackSize, hle.maxFrames, by rw [hallocs]; rfl⟩
  refine .trans (outcome_under steps htight (fun v hv hcrowded => ?_) fun _ v hv hspent => ?_) hwide
  · obtain ⟨v', left, hv', rfl⟩ := Visits.of_under hcovers hroom hallocates hv
    exact hholds.not_crowded hv' hcrowded
  · obtain ⟨left, hlt, hleft⟩ := hspent 1 rfl
    exact hallocates v hv (by rw [hleft, Nat.lt_one_iff.1 hlt])

/-- Limits only ever cut a run short. If it ends in a value under some limits, or in another fault
than those of the limits, it ends in the same way under wider limits. If it never holds nor
allocates more than tighter limits permit, it ends in the same way under these. -/
theorem outcome_of_le (host : Host) (steps : Nat) (l : Launch) (constants globals : Array Value)
    (heap : Heap) {c c' : Limits} (hle : c ≤ c') :
    let tight := Machine.idle constants globals c heap
    let wide := Machine.idle constants globals c' heap
    ((l.outcome host steps tight).result ≠ .error (.fault .stackOverflow) →
      (l.outcome host steps tight).result ≠ .error (.fault .objectAllocLimit) →
      l.outcome host steps wide = l.outcome host steps tight) ∧
    (l.HoldsWithin host wide c →
      (∀ n, c.maxAllocs = some n → c'.maxAllocs = some n ∨ l.AllocatesWithin host wide n) →
      l.outcome host steps tight = l.outcome host steps wide) := by
  intro tight wide
  constructor
  · intro hstack hallocs
    obtain ⟨gap, hgap⟩ := hle.exists_gap
    have hshort : Outcome.Shortened c gap (l.Visits host tight) (l.Visits host wide)
        (l.outcome host steps tight) (l.outcome host steps wide) :=
      l.shortened_outcome steps (covers_idle hle.stackSize hle.maxFrames hgap)
    cases hshort with
    | same heq => exact heq.symm
    | crowded ho => exact absurd ho hstack
    | spent ho => exact absurd ho hallocs
  · intro hholds hallocates
    by_cases hsame : c'.maxAllocs = c.maxAllocs
    · have hcovers : wide.Covers c (some 0) c.maxAllocs :=
        covers_idle hle.stackSize hle.maxFrames (by simp [hsame])
      exact outcome_under_same steps hcovers fun v hv => hholds.not_crowded hv
    · cases hn : c.maxAllocs with
      | none =>
        -- Where there is no tighter limit, there is no wider one either.
        cases hn' : c'.maxAllocs with
        | none => exact absurd (hn'.trans hn.symm) hsame
        | some n' =>
          obtain ⟨n, -, h⟩ := hle.maxAllocs n' hn'
          cases hn.symm.trans h
      | some n =>
        have hne : c'.maxAllocs ≠ some n := fun h => hsame (h.trans hn.symm)
        exact outcome_metered steps hle hn hne hholds ((hallocates n hn).resolve_left hne)

/-! ### A call with just enough room

A function adds the elements of an array that is spread for its arguments. The limits have room for
the function, its arguments and their copies, for its activation beside the outermost one, and for
the array and the sum.
-/

/-- The machines that a run visits if it is over after so many steps. -/
def visited (host : Host) (n : Nat) (l : Launch) (m : Machine) : List Machine :=
  left (l.supply m) :: left (l.enter m) ::
    match l.enter m with
    | .ok _ m => (m.trail host n).flatMap fun r =>
      [r, left (Exec.midway r), left (Exec.step host r)]
    | .error _ _ => []

def isOver (host : Host) (n : Nat) (l : Launch) (m : Machine) : Bool :=
  match l.enter m with
  | .ok _ m => m.isOver host n
  | .error _ _ => true

/-- A run that is over after so many steps has visited only the machines of these. -/
theorem Visits.mem_visited {l : Launch} {n : Nat} (hv : l.Visits host m v)
    (hover : l.isOver host n m = true) : v ∈ l.visited host n m := by
  unfold visited
  cases hv with
  | supplied => exact .head _
  | entered => exact .tail _ (.head _)
  | running henter hv =>
    rw [isOver, henter] at hover
    rw [henter]
    refine .tail _ (.tail _ (List.mem_flatMap.2 ?_))
    cases hv with
    | reached hr => exact ⟨_, hr.mem_trail hover, .head _⟩
    | midway hr => exact ⟨_, hr.mem_trail hover, .tail _ (.head _)⟩
    | stopped hr => exact ⟨_, hr.mem_trail hover, .tail _ (.tail _ (.head _))⟩

def addsTwo : FunctionObject :=
  ⟨0, .ofCode #[Opcode.getLocal.byte, 0, Opcode.getLocal.byte, 1, Opcode.add.byte,
    Opcode.ret.byte, 1] 2 2⟩

def addsSpread : Function :=
  .ofCode #[Opcode.constant.byte, 0, 0, Opcode.constant.byte, 0, 1, Opcode.constant.byte, 0, 2,
    Opcode.array.byte, 0, 2, Opcode.call.byte, 1, 1, Opcode.halt.byte] 0 0

def idleOfAddsSpread (limits : Limits) : Machine :=
  .idle #[.function addsTwo, .int 20, .int 22] #[] limits { identities := 1 }

def limitsOfAddsSpread : Limits := ⟨5, 2, some 2⟩

/-- The tight limits are met exactly, and the outcome is that of the default ones. -/
theorem outcome_addsSpread :
    ((main addsSpread).outcome sampleHost 16
          (idleOfAddsSpread limitsOfAddsSpread)).result.toOption = some (.int 42) ∧
      (main addsSpread).outcome sampleHost 16 (idleOfAddsSpread {}) =
        (main addsSpread).outcome sampleHost 16 (idleOfAddsSpread limitsOfAddsSpread) ∧
      (main addsSpread).HoldsWithin sampleHost (idleOfAddsSpread {}) limitsOfAddsSpread ∧
      (main addsSpread).AllocatesWithin sampleHost (idleOfAddsSpread {}) 2 ∧
      (main addsSpread).outcome sampleHost 16 (idleOfAddsSpread limitsOfAddsSpread) =
        (main addsSpread).outcome sampleHost 16 (idleOfAddsSpread {}) := by
  have hle : limitsOfAddsSpread ≤ ({} : Limits) := ⟨by decide, by decide, fun _ h => nomatch h⟩
  have h := outcome_of_le sampleHost 16 (main addsSpread) #[.function addsTwo, .int 20, .int 22] #[]
    { identities := 1 } hle
  have hresult : ((main addsSpread).outcome sampleHost 16
      (idleOfAddsSpread limitsOfAddsSpread)).result.toOption = some (.int 42) := by
    decide +kernel
  have hholds : (main addsSpread).HoldsWithin sampleHost (idleOfAddsSpread {})
      limitsOfAddsSpread := by
    intro v hv
    have hover : (main addsSpread).isOver sampleHost 16 (idleOfAddsSpread {}) = true := by
      decide +kernel
    have hall : ∀ v ∈ (main addsSpread).visited sampleHost 16 (idleOfAddsSpread {}),
        v.stack.size ≤ limitsOfAddsSpread.stackSize ∧ v.depth ≤ limitsOfAddsSpread.maxFrames := by
      decide +kernel
    exact hall v (hv.mem_visited hover)
  have hallocates : (main addsSpread).AllocatesWithin sampleHost (idleOfAddsSpread {}) 2 := by
    intro v hv
    have hover : (main addsSpread).isOver sampleHost 16
        { idleOfAddsSpread {} with budget := some 3 } = true := by decide +kernel
    have hall : ∀ v ∈ (main addsSpread).visited sampleHost 16
        { idleOfAddsSpread {} with budget := some 3 }, v.budget ≠ some 0 := by decide +kernel
    exact hall v (hv.mem_visited hover)
  refine ⟨hresult, h.1 ?_ ?_, hholds, hallocates, h.2 hholds fun n hn => .inr ?_⟩
  · exact fun hfault => nomatch (congrArg Except.toOption hfault).symm.trans hresult
  · exact fun hfault => nomatch (congrArg Except.toOption hfault).symm.trans hresult
  · cases hn
    exact hallocates

end Launch
end ScriptVM
