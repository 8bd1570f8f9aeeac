import ScriptVM.Proofs.Handles

/-!
# Globals by name

A program has a name for each slot of its globals, but what holds the same handle can replace the
vector by one of any length. A name whose slot is gone is still a name: a write to it is accepted
and leaves no trace. As long as the vector of a program is only replaced by vectors that have a slot
for each of its names, every slot is there, and what is written by name is what is read by name.
-/

namespace ScriptVM

variable {host : Host}

/-! ## Reading and writing

A name leads to a slot, and a slot to an element of the vector. The first is settled when the
program is made, the second is not.
-/

namespace Program

variable {p : Program} {name other : String} {slot : Nat} {v : Value} {s t : Store}

def value? (p : Program) (name : String) (s : Store) : Option Value :=
  (p.slotOf? name).bind fun slot => (s.vector p.globals)[slot]?

/-- Reading never fails: a name that is unknown, or whose slot is gone, has no value. -/
theorem get?_eq (p : Program) (name : String) (s : Store) :
    p.get? name s = .ok (p.value? name s) s := by
  unfold get? value?
  cases p.slotOf? name with
  | none => rfl
  | some slot => rfl

theorem slotOf?_lt (h : p.slotOf? name = some slot) : slot < p.names.length :=
  (List.findIdx?_eq_some_iff_findIdx_eq.1 h).1

/-- A name has a slot if it is one of the program's. -/
theorem isSome_slotOf? : (p.slotOf? name).isSome ↔ name ∈ p.names := by
  simp [slotOf?]

/-- A write is accepted if and only if the program has the name. -/
theorem exists_set_iff : (∃ t, p.set name v s = .ok () t) ↔ name ∈ p.names := by
  rw [set_eq, ← isSome_slotOf?]
  cases p.slotOf? name with
  | none => simp
  | some slot =>
    dsimp only
    cases Operation.withSlot? (s.vector p.globals) slot v <;> simp

/-- A write that is accepted is to a name of the program. It overwrites the slot if there is one,
and nothing otherwise. -/
theorem exists_slot_of_set (h : p.set name v s = .ok () t) : ∃ slot, p.slotOf? name = some slot ∧
    t = if slot < (s.vector p.globals).size
      then s.put p.globals ((s.vector p.globals).setIfInBounds slot v) else s := by
  rw [set_eq] at h
  cases hslot : p.slotOf? name with
  | none =>
    rw [hslot] at h
    cases h
  | some slot =>
    rw [hslot] at h
    refine ⟨slot, rfl, ?_⟩
    grind [Operation.withSlot?]

/-- After a write the name has the value that has been written, if its slot is there. -/
theorem value?_written (hplace : p.globals.index < s.vectors.size)
    (h : p.set name v s = .ok () t) (hslot : p.slotOf? name = some slot)
    (hlt : slot < (s.vector p.globals).size) : p.value? name t = some v := by
  obtain ⟨_, heq, rfl⟩ := exists_slot_of_set h
  cases hslot.symm.trans heq
  have hvector := Store.vector_overwritten s.heap
    ((s.vector p.globals).setIfInBounds slot v) hplace
  rw [if_pos hlt, value?, hslot, Store.put]
  simp [hvector, hlt]

/-- A name of another slot keeps its value. -/
theorem value?_written_of_ne (hplace : p.globals.index < s.vectors.size)
    (h : p.set name v s = .ok () t) (hne : p.slotOf? other ≠ p.slotOf? name) :
    p.value? other t = p.value? other s := by
  obtain ⟨slot, heq, rfl⟩ := exists_slot_of_set h
  split
  · have hvector := Store.vector_overwritten s.heap
      ((s.vector p.globals).setIfInBounds slot v) hplace
    unfold value?
    cases hother : p.slotOf? other with
    | none => rfl
    | some slot' =>
      have hslots : slot ≠ slot' := by
        rintro rfl
        exact hne (hother.trans heq.symm)
      rw [Store.put, Option.bind_some, Option.bind_some, hvector]
      exact Array.getElem?_setIfInBounds_ne hslots
  · rfl

end Program

/-! ## Names and slots

What can go wrong is that a vector gets too short. So it is said of each deed that no vector gets
shorter than the names that lead to it.
-/

/-- All handles are to vectors of the store, programs with the same handle have the same names, and
there is a slot for each name. -/
structure Desk.Named (d : Desk) : Prop where
  sound : d.Sound
  names : ∀ p q, .program p ∈ d.holders → .program q ∈ d.holders → p.globals = q.globals →
    p.names = q.names
  slots : ∀ p, .program p ∈ d.holders → p.names.length ≤ (d.store.vector p.globals).size

/-- No handle at hand is to a vector that is still to come. -/
theorem Desk.Sound.ne_new {d : Desk} (hd : d.Sound) {g : Globals} (hg : d.Has g) :
    g ≠ ⟨d.store.vectors.size⟩ := by
  rintro rfl
  exact Nat.lt_irrefl _ (hd _ hg)

/-- If the deed is to replace the vector of a handle, there is a value for each name of any program
with this handle. -/
def Deed.KeepsSlots (d : Desk) : Deed → Prop
  | operate (.replace g values) =>
    ∀ p, .program p ∈ d.holders → p.globals = g → p.names.length ≤ values.size
  | _ => True

/-- No vector is replaced by one that is too short for the names. -/
def Session.KeepsSlots (host : Host) : Session → Desk → Prop
  | [], _ => True
  | deed :: session, d => deed.KeepsSlots d ∧ KeepsSlots host session (deed.after host d)

namespace Operation

variable {op : Operation} {s : Store} {d : Desk} {p : Program}

/-- Overwriting an element leaves the length. -/
theorem size_of_withSlot? {vs vs' : Array Value} {slot : Nat} {v : Value}
    (h : withSlot? vs slot v = some vs') : vs'.size = vs.size := by
  grind [withSlot?]

/-- The vector of an operation stays long enough if what it is overwritten with is. -/
theorem le_size_after {n : Nat} (hplace : op.handle.index < s.vectors.size)
    (hsize : n ≤ (s.vector op.handle).size)
    (hwritten : ∀ vs, op.written? (s.vector op.handle) = some vs → n ≤ vs.size) :
    n ≤ (((op.perform host).after s).vector op.handle).size := by
  have hop : op.Behaves host s := op.behaves hplace
  cases hjob : op.job? with
  | none =>
    rw [hop.writes hjob]
    cases hvs : op.written? (s.vector op.handle) with
    | none => exact hsize
    | some vs => exact hwritten vs hvs
  | some job =>
    have hexecutes := hop.executes job hjob
    dsimp only at hexecutes
    split at hexecutes
    · obtain ⟨t, hperform, -, hvector, hglobals⟩ := hexecutes
      rw [StoreM.after_of_ok hperform, hvector, hglobals]
      exact hsize
    · obtain ⟨t, hperform, -, hvector⟩ := hexecutes
      rw [StoreM.after_of_error hperform, hvector]
      exact hsize

/-- What overwrites the vector of a program has a slot for each of its names. -/
theorem le_size_written (hd : d.Named) (huses : op.holder ∈ d.holders)
    (hkeeps : (Deed.operate op).KeepsSlots d) (hp : .program p ∈ d.holders)
    (hhandle : p.globals = op.handle) {vs : Array Value}
    (h : op.written? (d.store.vector op.handle) = some vs) : p.names.length ≤ vs.size := by
  have hslots := hd.slots p hp
  rw [hhandle] at hslots
  cases op with
  | run q steps => cases h
  | call c steps callee args => cases h
  | callWithGlobals c steps callee args => cases h
  | set q name v =>
    obtain ⟨slot, -, hvs⟩ := Option.bind_eq_some_iff.1 h
    rwa [size_of_withSlot? hvs]
  | replaceGlobals q values =>
    rw [written?] at h
    split at h
    next hsize =>
      cases h
      rw [hsize, hd.names p q hp huses hhandle]
    next => cases h
  | setSlot g slot v => rwa [size_of_withSlot? h]
  | replace g values =>
    cases h
    exact hkeeps p hp hhandle

end Operation

/-- A computation that only puts something around what another one answers. -/
theorem StoreM.of_map_eq_ok {α β : Type} {x : StoreM α} {k : α → β} {b : β} {s t : Store}
    (h : (x >>= fun a => pure (k a)) s = .ok b t) : ∃ a, x s = .ok a t ∧ k a = b := by
  rw [bind_eq] at h
  cases hx : x s with
  | error e t' =>
    rw [hx] at h
    cases h
  | ok a t' =>
    rw [hx] at h
    cases h
    exact ⟨a, rfl, rfl⟩

/-- A program that is made has the handle and the names of one at hand, or a new vector with an
`undefined` for each of its names. -/
theorem Making.program_of_ok {m : Making} {s t : Store} {p : Program}
    (h : m.perform s = .ok (.program p) t) :
    (∃ q, .program q ∈ m.uses ∧ q.globals = p.globals ∧ q.names = p.names) ∨
      p.globals = ⟨s.vectors.size⟩ ∧
        t.vectors = s.vectors.push (Array.replicate p.names.length .undefined) := by
  cases m with
  | program code names =>
    obtain ⟨q, hnew, heq⟩ := StoreM.of_map_eq_ok h
    cases heq
    obtain ⟨g, hg, heq⟩ := StoreM.of_map_eq_ok hnew
    cases heq
    cases hg
    exact .inr ⟨rfl, rfl⟩
  | clone a =>
    cases h
    exact .inl ⟨p, .head _, rfl, rfl⟩
  | limitedProgram q limits =>
    cases h
    exact .inl ⟨q, .head _, rfl, rfl⟩
  | handle a => cases h
  | limitedContext c limits => cases h
  | withGlobals c g => cases h
  | globals _ | context _ _ _ | contextOf _ | withIsolatedGlobals _ | deepCopy _ =>
    obtain ⟨_, -, heq⟩ := StoreM.of_map_eq_ok h
    cases heq

namespace Deed

variable {deed : Deed} {d : Desk}

/-- A program at hand afterwards has the handle and the names of one that was at hand before, or it
has just been made. -/
theorem program_of_mem_after (huses : ∀ a ∈ deed.uses, a ∈ d.holders) {p : Program}
    (hp : .program p ∈ (deed.after host d).holders) :
    (∃ q, .program q ∈ d.holders ∧ q.globals = p.globals ∧ q.names = p.names) ∨
      p.globals = ⟨d.store.vectors.size⟩ ∧ (deed.after host d).holders = .program p :: d.holders ∧
        (deed.after host d).store.vectors =
          d.store.vectors.push (Array.replicate p.names.length .undefined) := by
  rcases deed.holders_after host d with heq | ⟨m, a, t, rfl, hm, heq, ht⟩
  · rw [heq] at hp
    exact .inl ⟨p, hp, rfl, rfl⟩
  · rw [heq] at hp
    rcases List.mem_cons.1 hp with rfl | hp
    · rcases Making.program_of_ok hm with ⟨q, hq, hsame⟩ | ⟨hhandle, hvectors⟩
      · exact .inl ⟨q, huses _ hq, hsame⟩
      · exact .inr ⟨hhandle, heq, ht ▸ hvectors⟩
    · exact .inl ⟨p, hp, rfl, rfl⟩

/-- The vector of a program at hand keeps a slot for each name. -/
theorem le_size_after (hd : d.Named) (huses : ∀ a ∈ deed.uses, a ∈ d.holders)
    (hkeeps : deed.KeepsSlots d) {p : Program} (hp : .program p ∈ d.holders) :
    p.names.length ≤ ((deed.after host d).store.vector p.globals).size := by
  have hplace : p.globals.index < d.store.vectors.size := hd.sound _ ⟨_, hp, rfl⟩
  have hslots := hd.slots p hp
  by_cases hhandle : deed.handle? = some p.globals
  · cases deed with
    | make m => cases hhandle
    | work change => cases hhandle
    | operate op =>
      have hhandle : p.globals = op.handle := (Option.some.inj hhandle).symm
      rw [hhandle] at hplace hslots ⊢
      exact Operation.le_size_after hplace hslots fun vs hvs =>
        Operation.le_size_written hd (huses _ (.head _)) hkeeps hp hhandle hvs
  · rwa [deed.vector_after host hplace hhandle]

/-- A deed leaves a slot for each name, unless it replaces a vector by one that is too short. -/
theorem named_after (hd : d.Named) (huses : ∀ a ∈ deed.uses, a ∈ d.holders)
    (hkeeps : deed.KeepsSlots d) : (deed.after host d).Named where
  sound := sound_after host hd.sound huses
  names p q hp hq heq := by
    rcases program_of_mem_after huses hp with ⟨p', hp', hp'g, hp'n⟩ | ⟨hpnew, hholders, -⟩
    · rcases program_of_mem_after huses hq with ⟨q', hq', hq'g, hq'n⟩ | ⟨hqnew, -, -⟩
      · rw [← hp'n, ← hq'n]
        exact hd.names p' q' hp' hq' (by rw [hp'g, hq'g, heq])
      · exact absurd (hp'g.trans (heq.trans hqnew)) (hd.sound.ne_new ⟨_, hp', rfl⟩)
    · rw [hholders] at hq
      rcases List.mem_cons.1 hq with hsame | hq
      · cases hsame
        rfl
      · exact absurd (heq.symm.trans hpnew) (hd.sound.ne_new ⟨_, hq, rfl⟩)
  slots p hp := by
    rcases program_of_mem_after huses hp with ⟨q, hq, hglobals, hnames⟩ | ⟨hnew, -, hvectors⟩
    · rw [← hglobals, ← hnames]
      exact le_size_after hd huses hkeeps hq
    · simp [Store.vector, hnew, hvectors, Array.getD_eq_getD_getElem?]

end Deed

namespace Session

variable {session : Session} {d : Desk}

theorem named_after (hd : d.Named) (hsession : session.Possible host d)
    (hkeeps : session.KeepsSlots host d) : (session.after host d).Named := by
  induction session generalizing d with
  | nil => exact hd
  | cons deed session ih => exact ih (Deed.named_after hd hsession.1 hkeeps.1) hsession.2 hkeeps.2

/-- Whatever has been done with programs, contexts and handles before, a write by name is accepted
if the program has the name. It leaves all names of other slots with their values. The name itself
then has the value that has been written, if no vector has been replaced by one that is too short
for the names. -/
theorem no_write_lost (hd : d.holders = []) (hsession : session.Possible host d) :
    ∀ p, .program p ∈ (session.after host d).holders → ∀ name v,
      ((∃ t, p.set name v (session.after host d).store = .ok () t) ↔ name ∈ p.names) ∧
      ∀ t, p.set name v (session.after host d).store = .ok () t →
        (session.KeepsSlots host d → p.get? name t = .ok (some v) t) ∧
        ∀ other, p.slotOf? other ≠ p.slotOf? name →
          ∃ r, p.get? other (session.after host d).store = .ok r (session.after host d).store ∧
            p.get? other t = .ok r t := by
  have hnothing {a : Holder} : a ∉ d.holders := by
    rw [hd]
    exact List.not_mem_nil
  have hsound : d.Sound := by
    rintro g ⟨a, ha, -⟩
    exact absurd ha hnothing
  intro p hp name v
  refine ⟨Program.exists_set_iff, fun t hset => ?_⟩
  have hplace := sound_after host hsound hsession _ ⟨_, hp, rfl⟩
  constructor
  · intro hkeeps
    have hnamed : d.Named := ⟨hsound, fun p _ hp => absurd hp hnothing,
      fun p hp => absurd hp hnothing⟩
    obtain ⟨slot, hslot, -⟩ := Program.exists_slot_of_set hset
    have hlt := Nat.lt_of_lt_of_le (Program.slotOf?_lt hslot)
      ((named_after hnamed hsession hkeeps).slots p hp)
    rw [Program.get?_eq, Program.value?_written hplace hset hslot hlt]
  · intro other hne
    refine ⟨_, Program.get?_eq p other _, ?_⟩
    rw [Program.get?_eq, Program.value?_written_of_ne hplace hset hne]

end Session

/-! ### A vector that is too short

A host takes the handle of a program with the one global `n` and replaces the vector by an empty
one. It may write `n` from then on, but will not read anything.
-/

def sessionOfShortVector : Session :=
  [.make (.program unitOfCounts ["n"]), .make (.handle (.program programOfCounts)),
    .operate (.replace ⟨0⟩ #[])]

theorem Session.write_lost :
    sessionOfShortVector.Possible sampleHost emptyDesk ∧
      let d := sessionOfShortVector.after sampleHost emptyDesk
      .program programOfCounts ∈ d.holders ∧
        programOfCounts.set "n" (.int 1) d.store = .ok () d.store ∧
        programOfCounts.get? "n" d.store = .ok none d.store := by
  have hpossible : sessionOfShortVector.Possible sampleHost emptyDesk := by
    refine ⟨?_, ?_, ?_, trivial⟩
    · exact List.forall_mem_nil _
    · exact List.forall_mem_singleton.2 (.head _)
    · exact List.forall_mem_singleton.2 (.head _)
  exact ⟨hpossible, .tail _ (.head _), rfl, rfl⟩

/-! ### A vector that is longer than need be

The vector of the program is replaced by one with a slot more than there are names. Then the program
counts up when it is run, and so does a function that is called through its context.
-/

def sessionOfLongVector : Session :=
  [.make (.program unitOfCounts ["n"]), .make (.handle (.program programOfCounts)),
    .operate (.replace ⟨0⟩ #[.int 3, .int 8]), .operate (.run programOfCounts 9),
    .make (.contextOf programOfCounts),
    .operate (.call contextOfCounts 9 (.function countsGlobal) [])]

/-- The context of the program adds a handle at hand and nothing to the store. -/
theorem Deed.after_contextOfCounts (d : Desk) :
    (make (.contextOf programOfCounts)).after sampleHost d =
      ⟨d.store, .context contextOfCounts :: d.holders⟩ := by
  have hpool : validateConstants unitOfCounts.constants = .ok () := by
    simp [validateConstants, unitOfCounts, Value.isUndefined, List.findIdx?_cons]
  apply after_make_of_ok
  simp only [Making.perform, Program.context, Context.new, programOfCounts, hpool]
  rfl

/-- One slot more than there are names does no harm. -/
theorem Session.no_write_lost_longVector :
    let d := sessionOfLongVector.after sampleHost emptyDesk
    d.store.vectors = #[#[.int 5, .int 8]] ∧
      ∃ t, programOfCounts.set "n" (.int 1) d.store = .ok () t ∧
        t.vectors = #[#[.int 1, .int 8]] ∧
        programOfCounts.get? "n" t = .ok (some (.int 1)) t ∧
        ∃ r, programOfCounts.get? "m" d.store = .ok r d.store ∧
          programOfCounts.get? "m" t = .ok r t := by
  have hpossible : sessionOfLongVector.Possible sampleHost emptyDesk := by
    refine ⟨List.forall_mem_nil _, List.forall_mem_singleton.2 (.head _),
      List.forall_mem_singleton.2 (.head _), List.forall_mem_singleton.2 (.tail _ (.head _)),
      List.forall_mem_singleton.2 (.tail _ (.head _)), List.forall_mem_singleton.2 ?_, trivial⟩
    rw [Deed.after_contextOfCounts]
    exact .head _
  have hkeeps : sessionOfLongVector.KeepsSlots sampleHost emptyDesk := by
    refine ⟨trivial, trivial, ?_, trivial, trivial, trivial, trivial⟩
    intro p hp _
    cases hp with
    | tail _ hp =>
      cases hp with
      | head => decide
      | tail _ hp => cases hp
  have hholder : .program programOfCounts ∈
      (sessionOfLongVector.after sampleHost emptyDesk).holders := by
    show .program programOfCounts ∈ (Deed.after sampleHost (Deed.after sampleHost _ _) _).holders
    rw [Deed.after_contextOfCounts]
    exact .tail _ (.tail _ (.head _))
  have hvectors : (sessionOfLongVector.after sampleHost emptyDesk).store.vectors =
      #[#[.int 5, .int 8]] := by decide +kernel
  have hset : programOfCounts.set "n" (.int 1)
      (sessionOfLongVector.after sampleHost emptyDesk).store =
        .ok () ⟨(sessionOfLongVector.after sampleHost emptyDesk).store.heap,
          #[#[.int 1, .int 8]]⟩ := by
    have hvector : (sessionOfLongVector.after sampleHost emptyDesk).store.vector
        programOfCounts.globals = #[.int 5, .int 8] := by
      rw [Store.vector, hvectors]
      rfl
    rw [Program.set_eq, hvector]
    show EStateM.Result.ok () (Store.put _ _ _) = _
    rw [Store.put, hvectors]
    rfl
  obtain ⟨hwritten, hothers⟩ :=
    (no_write_lost rfl hpossible _ hholder "n" (.int 1)).2 _ hset
  exact ⟨hvectors, _, hset, rfl, hwritten hkeeps, hothers "m" (by decide)⟩

end ScriptVM
