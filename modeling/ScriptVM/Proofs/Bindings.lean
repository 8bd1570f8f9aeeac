import ScriptVM.Proofs.Launch
import ScriptVM.Proofs.LocalCells
import ScriptVM.Proofs.Moments

/-!
# Cells and bindings

A cell stands for a binding: a local of one activation, from when it is bound until it is bound
afresh. Closures share a cell if and only if they have captured the same binding. In one direction a
captured local keeps its cell for as long as its table is not touched at this place. In the other, a
cell is in one place of all tables only, and it got there when it was made.
-/

namespace ScriptVM

variable {host : Host} {m m' : Machine} {f f' : Frame} {rest : List Frame}

/-! ## All tables of a machine -/

/-- The cell of a local of the activation at a depth, the outermost activation being at depth 1. -/
def cellOf? : (frames : List Frame) → (depth slot : Nat) → Option CellRef
  | [], _, _ => none
  | f :: rest, depth, slot =>
    if depth = rest.length + 1 then f.cell? slot else cellOf? rest depth slot

theorem cellOf?_top (f : Frame) (rest : List Frame) (slot : Nat) :
    cellOf? (f :: rest) (rest.length + 1) slot = f.cell? slot := if_pos rfl

/-- An activation on top does not change what the ones beneath have. -/
theorem cellOf?_beneath {depth : Nat} (f : Frame) (hne : depth ≠ rest.length + 1) (slot : Nat) :
    cellOf? (f :: rest) depth slot = cellOf? rest depth slot := if_neg hne

/-- A local has an activation, so its depth is one that there is. -/
theorem le_length_of_cellOf? {frames : List Frame} {depth slot : Nat} {c : CellRef}
    (h : cellOf? frames depth slot = some c) : depth ≤ frames.length := by
  induction frames with
  | nil => cases h
  | cons f rest ih =>
    rw [cellOf?] at h
    split at h
    · rw [List.length_cons]
      omega
    · exact Nat.le_succ_of_le (ih h)

theorem cellOf?_above {frames : List Frame} {depth : Nat} (h : frames.length < depth)
    (slot : Nat) : cellOf? frames depth slot = none := by
  cases hc : cellOf? frames depth slot with
  | none => rfl
  | some c => exact absurd (le_length_of_cellOf? hc) (Nat.not_le.2 h)

/-- An activation whose table has not changed may be replaced. -/
theorem cellOf?_congr (h : f'.promoted = f.promoted) (depth slot : Nat) :
    cellOf? (f' :: rest) depth slot = cellOf? (f :: rest) depth slot := by
  rw [cellOf?, cellOf?, Frame.cell?, Frame.cell?, h]

/-! ## What a step does to all tables

A step touches the table of the executing activation only. It may take it off with its activation,
put an empty one on top, add new cells to it, or remove the cell of a local that is bound afresh.
-/

/-- The next instruction binds a local of the activation at this depth afresh. -/
def Machine.Defines (m : Machine) (depth slot : Nat) : Prop :=
  m.depth = depth ∧ ∃ i, m.instruction? = some i ∧ i.op = .defineLocal ∧ i.first = slot

/-- What a step does to the tables: a cell that is in them is new, and then in the executing
activation only, or it has been there. Those that have been there stay, unless their local is bound
afresh or their activation is over. -/
structure Machine.Rebinds (m m' : Machine) : Prop where
  cells : m.heap.cells.size ≤ m'.heap.cells.size
  identities : m.heap.identities ≤ m'.heap.identities
  old : ∀ depth slot c, cellOf? m'.frames depth slot = some c →
    (cellOf? m.frames depth slot = some c ∧ ¬ m.Defines depth slot) ∨
    (cellOf? m.frames depth slot = none ∧ depth = m.depth ∧
      m.heap.cells.size ≤ c.index ∧ c.index < m'.heap.cells.size)
  kept : ∀ depth slot c, cellOf? m.frames depth slot = some c → depth ≤ m'.depth →
    ¬ m.Defines depth slot → cellOf? m'.frames depth slot = some c
  apart : ∀ depth slot slot' c, cellOf? m.frames depth slot = none →
    cellOf? m.frames depth slot' = none → cellOf? m'.frames depth slot = some c →
    cellOf? m'.frames depth slot' = some c → slot = slot'

/-- Only one instruction binds locals. -/
theorem Machine.not_defines {i : Instruction} (hi : m.instruction? = some i)
    (hop : i.op ≠ .defineLocal) (depth slot : Nat) : ¬ m.Defines depth slot := by
  rintro ⟨-, i', hi', hop', -⟩
  rw [hi] at hi'
  cases hi'
  exact hop hop'

namespace Machine.Rebinds

/-- A step that gives no local a cell. -/
theorem of_shrinks (hcells : m.heap.cells.size ≤ m'.heap.cells.size)
    (hidentities : m.heap.identities ≤ m'.heap.identities)
    (hold : ∀ depth slot c, cellOf? m'.frames depth slot = some c →
      cellOf? m.frames depth slot = some c ∧ ¬ m.Defines depth slot)
    (hkept : ∀ depth slot c, cellOf? m.frames depth slot = some c → depth ≤ m'.depth →
      ¬ m.Defines depth slot → cellOf? m'.frames depth slot = some c) : m.Rebinds m' := by
  refine ⟨hcells, hidentities, ?_, hkept, ?_⟩
  · intro depth slot c hc
    exact .inl (hold depth slot c hc)
  · intro depth slot slot' c h0 _ hc _
    rw [(hold depth slot c hc).1] at h0
    cases h0

/-- A step that leaves the tables of all activations that there are then. -/
theorem of_same (hcells : m.heap.cells.size ≤ m'.heap.cells.size)
    (hidentities : m.heap.identities ≤ m'.heap.identities)
    (hdefines : ∀ depth slot, ¬ m.Defines depth slot)
    (hsame : ∀ depth slot, depth ≤ m'.depth →
      cellOf? m'.frames depth slot = cellOf? m.frames depth slot) : m.Rebinds m' := by
  apply of_shrinks hcells hidentities
  · intro depth slot c hc
    rw [← hsame depth slot (le_length_of_cellOf? hc)]
    exact ⟨hc, hdefines depth slot⟩
  · intro depth slot c hc hle _
    rw [hsame depth slot hle]
    exact hc

/-- A step that parts a local of the executing activation from its cell. -/
theorem of_defines {slot : Nat} (hcells : m.heap.cells.size ≤ m'.heap.cells.size)
    (hidentities : m.heap.identities ≤ m'.heap.identities) (hf : m.frames = f :: rest)
    (hdefines : ∀ slot', m.Defines (rest.length + 1) slot' ↔ slot' = slot)
    (hf' : m'.frames = f'.unbind slot :: rest) (hpromoted : f'.promoted = f.promoted) :
    m.Rebinds m' := by
  have hdepth : m.depth = rest.length + 1 := by
    rw [depth, hf]
    rfl
  have htop (slot' : Nat) : cellOf? m'.frames (rest.length + 1) slot' =
      if slot' = slot then none else f.cell? slot' := by
    have hcell : f'.cell? slot' = f.cell? slot' := by
      rw [Frame.cell?, Frame.cell?, hpromoted]
    rw [hf', cellOf?_top, f'.cell?_unbind, hcell]
  -- Only the table of the executing activation is another one afterwards.
  apply of_shrinks hcells hidentities
  · intro depth slot' c hc
    by_cases htopmost : depth = rest.length + 1
    · subst htopmost
      rw [htop] at hc
      split at hc
      · cases hc
      rename_i hne
      rw [hf, cellOf?_top]
      exact ⟨hc, fun hd => hne ((hdefines slot').1 hd)⟩
    · rw [hf', cellOf?_beneath _ htopmost] at hc
      rw [hf, cellOf?_beneath f htopmost]
      refine ⟨hc, ?_⟩
      rintro ⟨hd, -⟩
      exact htopmost (hd.symm.trans hdepth)
  · intro depth slot' c hc hle hd
    by_cases htopmost : depth = rest.length + 1
    · subst htopmost
      rw [hf, cellOf?_top] at hc
      rw [htop, if_neg fun heq => hd ((hdefines slot').2 heq)]
      exact hc
    · rw [hf, cellOf?_beneath f htopmost] at hc
      rw [hf', cellOf?_beneath _ htopmost]
      exact hc

/-- A step that captures locals of the executing activation. -/
theorem of_captures (hcells : m.heap.cells.size ≤ m'.heap.cells.size)
    (hidentities : m.heap.identities ≤ m'.heap.identities)
    (hdefines : ∀ depth slot, ¬ m.Defines depth slot) (hf : m.frames = f :: rest)
    (hf' : m'.frames = f' :: rest)
    (htable : f.Promotes f' m.heap.cells.size m'.heap.cells.size) : m.Rebinds m' := by
  have hdepth : m.depth = rest.length + 1 := by
    rw [depth, hf]
    rfl
  have hbeneath {depth : Nat} (hne : depth ≠ rest.length + 1) (slot : Nat) :
      cellOf? m'.frames depth slot = cellOf? m.frames depth slot := by
    rw [hf, hf', cellOf?_beneath f' hne, cellOf?_beneath f hne]
  refine ⟨hcells, hidentities, ?_, ?_, ?_⟩
  · intro depth slot c hc
    by_cases htopmost : depth = rest.length + 1
    · subst htopmost
      rw [hf', cellOf?_top] at hc
      rw [hf, cellOf?_top]
      rcases htable.some_or_none hc with h0 | h0
      · exact .inl ⟨h0, hdefines _ slot⟩
      · exact .inr ⟨h0, hdepth.symm, htable.new slot c hc h0⟩
    · rw [hbeneath htopmost] at hc
      exact .inl ⟨hc, hdefines depth slot⟩
  · intro depth slot c hc _ _
    by_cases htopmost : depth = rest.length + 1
    · subst htopmost
      rw [hf, cellOf?_top] at hc
      rw [hf', cellOf?_top]
      exact htable.keeps slot c hc
    · rw [hbeneath htopmost]
      exact hc
  · intro depth slot slot' c h0 h0' hc hc'
    by_cases htopmost : depth = rest.length + 1
    · subst htopmost
      rw [hf, cellOf?_top] at h0 h0'
      rw [hf', cellOf?_top] at hc hc'
      exact htable.apart slot slot' c h0 h0' hc hc'
    · rw [hbeneath htopmost, h0] at hc
      cases hc

end Machine.Rebinds

/-- If the host takes nothing from the heap, every step is as described. -/
theorem Machine.rebinds_of_step (hhost : host.OnlyAdds) {r : Option Value}
    (hs : Exec.step host m = .ok r m') : m.Rebinds m' := by
  cases hf : m.frames with
  | nil =>
    rw [Exec.step_of_no_frame host hf] at hs
    cases hs
  | cons f rest =>
    obtain ⟨i, next, hfetch, hheap, htouched⟩ := Exec.touched_of_step hf hs
    have hi := instruction?_eq hf hfetch
    have hcells := hheap.count_le hhost .cell
    have hidentities := hheap.count_le hhost .identity
    cases htouched with
    | keeps hd hc hframes htable =>
      apply Rebinds.of_same hcells hidentities (not_defines hi hd)
      intro depth slot _
      rw [hframes, hf]
      exact cellOf?_congr htable depth slot
    | @enters g hop hframes htable =>
      apply Rebinds.of_same hcells hidentities (not_defines hi (by simp [hop]))
      intro depth slot _
      rw [hframes, hf]
      -- The new activation has no cells, which is what there was at its depth before.
      by_cases hnew : depth = rest.length + 2
      · subst hnew
        have hnone : g.cell? slot = none := by
          rw [Frame.cell?, htable]
          rfl
        have hbelow : (f :: rest).length < rest.length + 2 := Nat.lt_succ_self _
        rw [cellOf?_above hbelow]
        exact (cellOf?_top g _ slot).trans hnone
      · rw [cellOf?_beneath g hnew]
        exact cellOf?_congr rfl depth slot
    | leaves hop hframes =>
      apply Rebinds.of_same hcells hidentities (not_defines hi (by simp [hop]))
      intro depth slot hle
      rw [Machine.depth, hframes] at hle
      rw [hframes, hf, cellOf?_beneath f (by omega)]
    | defines hop hframes =>
      refine Rebinds.of_defines hcells hidentities hf ?_ hframes rfl
      intro slot
      constructor
      · rintro ⟨-, i', hi', -, rfl⟩
        rw [hi] at hi'
        cases hi'
        rfl
      · rintro rfl
        refine ⟨?_, i, hi, hop, rfl⟩
        rw [depth, hf]
        rfl
    | @captures f' hop hframes htable _ =>
      have htable' : f.Promotes f' m.heap.cells.size m'.heap.cells.size := by
        rw [heap_goTo] at htable
        exact ⟨htable.function, htable.keeps, htable.new, htable.apart⟩
      exact Rebinds.of_captures hcells hidentities (not_defines hi (by simp [hop])) hf hframes
        htable'

/-! ## Every cell is in one place

Where a cell is in two tables, two locals would share it without either being captured from the
other. There is none to begin with, and a step adds new cells only.
-/

/-- The cells in the tables are on the heap, and none is in two places. -/
structure Machine.Unshared (m : Machine) : Prop where
  bound : ∀ depth slot c, cellOf? m.frames depth slot = some c → c.index < m.heap.cells.size
  unique : ∀ depth slot depth' slot' c, cellOf? m.frames depth slot = some c →
    cellOf? m.frames depth' slot' = some c → depth = depth' ∧ slot = slot'

/-- Without any cell there is nothing to share. -/
theorem Machine.unshared_of_empty (h : ∀ f ∈ m.frames, f.promoted = []) : m.Unshared := by
  have hnone (depth slot : Nat) : cellOf? m.frames depth slot = none := by
    generalize m.frames = frames at h
    induction frames with
    | nil => rfl
    | cons f rest ih =>
      rw [cellOf?]
      split
      · rw [Frame.cell?, h f (.head _)]
        rfl
      · exact ih fun g hg => h g (.tail _ hg)
  constructor
  · intro depth slot c hc
    rw [hnone] at hc
    cases hc
  · intro depth slot depth' slot' c hc
    rw [hnone] at hc
    cases hc

/-- A cell that is new is in no other place, and one that has been there has not moved. -/
theorem Machine.Unshared.step (h : m.Unshared) (hr : m.Rebinds m') : m'.Unshared := by
  constructor
  · intro depth slot c hc
    rcases hr.old depth slot c hc with ⟨hc, -⟩ | ⟨-, -, -, hlt⟩
    · exact Nat.lt_of_lt_of_le (h.bound depth slot c hc) hr.cells
    · exact hlt
  · intro depth slot depth' slot' c hc hc'
    rcases hr.old depth slot c hc with ⟨hold, -⟩ | ⟨hnew, hdepth, hge, -⟩
    · rcases hr.old depth' slot' c hc' with ⟨hold', -⟩ | ⟨-, -, hge', -⟩
      · exact h.unique depth slot depth' slot' c hold hold'
      · exact absurd (h.bound depth slot c hold) (Nat.not_lt.2 hge')
    · rcases hr.old depth' slot' c hc' with ⟨hold', -⟩ | ⟨hnew', hdepth', -, -⟩
      · exact absurd (h.bound depth' slot' c hold') (Nat.not_lt.2 hge)
      · subst hdepth hdepth'
        exact ⟨rfl, hr.apart _ slot slot' c hnew hnew' hc hc'⟩

/-- By induction on the number of steps. -/
theorem Machine.Unshared.after (hhost : host.OnlyAdds) {start : Machine} (h : start.Unshared)
    {t : Nat} (hm : start.after host t = some m) : m.Unshared := by
  induction t generalizing m with
  | zero =>
    cases hm
    exact h
  | succ t ih =>
    obtain ⟨r, hr, hs⟩ := after_succ.1 hm
    exact (ih hr).step (rebinds_of_step hhost hs)

/-! ## What is captured

A closure captures locals of the executing activation, which get cells for this, and captured
variables of its function, which have cells already.
-/

/-- Only a closure instruction captures anything. -/
theorem Machine.captured_cases (hf : m.frames = f :: rest) :
    m.captured = [] ∨ ∃ (i : Instruction) (next : Nat) (prototype : FunctionObject),
      f.function.fetch f.ip = .instruction i next ∧ i.op = .closure ∧
      m.constants[i.first]? = some (.function prototype) ∧
      m.captured = Exec.capturing prototype.function.captures (m.goTo next) := by
  unfold captured
  rw [hf]
  dsimp only
  cases hfetch : f.function.fetch f.ip with
  | fault e ip => exact .inl rfl
  | instruction i next =>
    dsimp only
    split
    · rename_i prototype hop hconstant
      exact .inr ⟨i, next, prototype, rfl, hop, hconstant, rfl⟩
    · exact .inl rfl

theorem Machine.captured_eq {i : Instruction} {next : Nat} {prototype : FunctionObject}
    (hf : m.frames = f :: rest) (hfetch : f.function.fetch f.ip = .instruction i next)
    (hop : i.op = .closure) (hconstant : m.constants[i.first]? = some (.function prototype)) :
    m.captured = Exec.capturing prototype.function.captures (m.goTo next) := by
  rw [captured, hf]
  dsimp only
  rw [hfetch]
  dsimp only
  rw [hop, hconstant]

/-- What the next instruction captures, and the table that this leads to. -/
theorem Machine.promotes_captured (hf : m.frames = f :: rest) :
    ∃ f' n, f.Promotes f' m.heap.cells.size n ∧
      (∀ slot c, (.ofLocal slot, c) ∈ m.captured → f'.cell? slot = some c) ∧
      ∀ k c, (.ofFree k, c) ∈ m.captured → f.function.cells[k]? = some c := by
  rcases captured_cases hf with hnone | ⟨i, next, prototype, -, -, -, heq⟩
  · refine ⟨f, m.heap.cells.size, .refl .., ?_, ?_⟩
    · simp [hnone]
    · simp [hnone]
  · obtain ⟨m', f', hpromoted, hlocal, hfree, -⟩ :=
      Exec.promoted_captureAll prototype.function.captures (frames_goTo hf next)
    have htable := hpromoted.table
    rw [heap_goTo] at htable
    rw [heq]
    exact ⟨f', _, ⟨htable.function, htable.keeps, htable.new, htable.apart⟩, hlocal, hfree⟩

/-- A captured local has had its cell before, or the cell is new. -/
theorem Machine.captured_or {slot : Nat} {c : CellRef} (h : (.ofLocal slot, c) ∈ m.captured) :
    (cellOf? m.frames m.depth slot = some c) ∨
      (cellOf? m.frames m.depth slot = none ∧ m.heap.cells.size ≤ c.index) := by
  cases hf : m.frames with
  | nil =>
    rw [captured, hf] at h
    cases h
  | cons f rest =>
    obtain ⟨f', n, htable, hlocal, -⟩ := promotes_captured hf
    have hc := hlocal slot c h
    rw [depth, hf, List.length_cons, cellOf?_top]
    rcases htable.some_or_none hc with h0 | h0
    · exact .inl h0
    · exact .inr ⟨h0, (htable.new slot c hc h0).1⟩

/-- In one instruction, captures share their cell if they capture the same local. -/
theorem Machine.Unshared.captured_eq_iff (h : m.Unshared) {slot slot' : Nat} {c d : CellRef}
    (hc : (.ofLocal slot, c) ∈ m.captured) (hd : (.ofLocal slot', d) ∈ m.captured) :
    c = d ↔ slot = slot' := by
  cases hf : m.frames with
  | nil =>
    rw [captured, hf] at hc
    cases hc
  | cons f rest =>
    obtain ⟨f', n, htable, hlocal, -⟩ := promotes_captured hf
    have hcell := hlocal slot c hc
    have hcell' := hlocal slot' d hd
    constructor
    · rintro rfl
      -- A cell that has been there is not one of the new ones.
      have hold {slot : Nat} (h' : f.cell? slot = some c) :
          cellOf? m.frames (rest.length + 1) slot = some c := by
        rw [hf, cellOf?_top]
        exact h'
      rcases htable.some_or_none hcell with h0 | h0
      · rcases htable.some_or_none hcell' with h0' | h0'
        · exact (h.unique _ _ _ _ c (hold h0) (hold h0')).2
        · have := h.bound _ _ c (hold h0)
          have := (htable.new slot' c hcell' h0').1
          omega
      · rcases htable.some_or_none hcell' with h0' | h0'
        · have := h.bound _ _ c (hold h0')
          have := (htable.new slot c hcell h0).1
          omega
        · exact htable.apart slot slot' c h0 h0' hcell hcell'
    · rintro rfl
      rw [hcell] at hcell'
      exact Option.some.inj hcell'

/-- When the instruction has succeeded, what it has captured is in the table. -/
theorem Machine.captured_kept {slot : Nat} {c : CellRef} (h : (.ofLocal slot, c) ∈ m.captured)
    {r : Option Value} (hs : Exec.step host m = .ok r m') :
    cellOf? m'.frames m.depth slot = some c := by
  cases hf : m.frames with
  | nil =>
    rw [captured, hf] at h
    cases h
  | cons f rest =>
    rcases captured_cases hf with hnone | ⟨i, next, prototype, hfetch, hop, hconstant, heq⟩
    · rw [hnone] at h
      cases h
    obtain ⟨i', next', hfetch', -, htouched⟩ := Exec.touched_of_step hf hs
    rw [hfetch] at hfetch'
    cases hfetch'
    cases htouched with
    | keeps _ hc => exact absurd hop hc
    | defines hop' => simp [hop] at hop'
    | enters hop' => simp [hop] at hop'
    | leaves hop' => simp [hop] at hop'
    | captures _ hframes _ hlocal =>
      rw [depth, hf, List.length_cons, hframes, cellOf?_top]
      apply hlocal prototype
      · rw [constants_goTo]
        exact hconstant
      · rw [← heq]
        exact h

/-! ## What is made -/

/-- The next instruction makes the closure `g` of a function in the constants pool. It is a new
object on top of the stack, with the cells of the captures in their order, and the constants stay. A
captured variable of the executing function keeps its cell. -/
structure Machine.MakesClosure (m : Machine) (prototype g : FunctionObject) (m' : Machine) :
    Prop where
  captures : m.captured.map Prod.fst = prototype.function.captures
  function : g.function = { prototype.function with cells := m.captured.map Prod.snd }
  free : ∀ f rest k c, m.frames = f :: rest → (.ofFree k, c) ∈ m.captured →
    f.function.cells[k]? = some c
  id : g.id = m.heap.identities
  identities : m'.heap.identities = g.id + 1
  stack : m'.stack.values = m.stack.values.push (.function g)
  constants : m'.constants = m.constants

/-- A closure instruction that succeeds makes a closure. -/
theorem Machine.makesClosure_of_step {i : Instruction} (hi : m.instruction? = some i)
    (hop : i.op = .closure) {r : Option Value} (hs : Exec.step host m = .ok r m') :
    r = none ∧ ∃ prototype g, m.constants[i.first]? = some (.function prototype) ∧
      m.MakesClosure prototype g m' := by
  cases hf : m.frames with
  | nil =>
    rw [Exec.step_of_no_frame host hf] at hs
    cases hs
  | cons f rest =>
    obtain ⟨i', next, hfetch, -, -⟩ := Exec.touched_of_step hf hs
    rw [instruction?_eq hf hfetch] at hi
    cases hi
    rw [Exec.step_eq host hf, hfetch] at hs
    dsimp only at hs
    rw [Exec.execute, hop] at hs
    obtain ⟨_, m₂, hpush, hs⟩ := Exec.bind_eq_ok.1 hs
    cases hs
    refine ⟨rfl, ?_⟩
    obtain ⟨v, m₁, hmake, hpush⟩ := Exec.bind_eq_ok.1 hpush
    have hmade := Exec.promoted_makeClosure (frames_goTo hf next) i.first
    rw [hmake] at hmade
    obtain ⟨prototype, m₀, f', budget, hconstant, hpromoted, hlocal, hfree, hcs, rfl, rfl⟩ := hmade
    rw [constants_goTo] at hconstant
    have hcaptured := captured_eq hf hfetch hop hconstant
    rw [Exec.push_eq] at hpush
    split at hpush
    · cases hpush
      refine ⟨prototype, ⟨m.heap.identities,
        { prototype.function with cells := m.captured.map Prod.snd }⟩, hconstant, ?_, rfl, ?_, rfl,
        ?_, ?_, ?_⟩
      · rw [hcaptured]
        exact hcs
      · intro f₀ rest₀ k c hf₀ hc
        rw [hf] at hf₀
        cases hf₀
        rw [hcaptured] at hc
        exact hfree k c hc
      · show m₀.heap.identities + 1 = _
        rw [hpromoted.identities, heap_goTo]
      · show m₀.stack.values.push _ = _
        rw [hpromoted.stack, stack_goTo, heap_goTo, hcaptured]
      · show m₀.constants = _
        rw [hpromoted.constants, constants_goTo]
    · cases hpush

/-! ## Moments of a run

A moment is a number of steps. Two moments belong to one activation if no return from it, nor from
one beneath, lies between them.
-/

namespace Machine

variable {start a b : Machine} {s t : Nat} {c d : CellRef} {slot slot' : Nat}

/-- The activation that executes at moment `s` of a run is the one that executes at moment `t`: the
depth is the same, and it has not been less in between, as a return from the activation would make
it. -/
def SameActivation (host : Host) (start : Machine) (s t : Nat) : Prop :=
  ∃ a b, start.after host s = some a ∧ start.after host t = some b ∧ a.depth = b.depth ∧
    ∀ u m, s ≤ u → u ≤ t → start.after host u = some m → a.depth ≤ m.depth

/-- Between the two moments of a run, the local of the activation that executes at `s` is not bound
afresh. -/
def StaysBound (host : Host) (start : Machine) (s t slot : Nat) : Prop :=
  ∃ a, start.after host s = some a ∧
    ∀ u m, s < u → u < t → start.after host u = some m → ¬ m.Defines a.depth slot

/-- A captured local has its cell for as long as its activation lasts and it is not bound afresh. -/
theorem cellOf?_of_stays (hhost : host.OnlyAdds) (ha : start.after host s = some a)
    (hc : (.ofLocal slot, c) ∈ a.captured) (hst : s < t) (hb : start.after host t = some b)
    (hdepth : ∀ u m, s ≤ u → u ≤ t → start.after host u = some m → a.depth ≤ m.depth)
    (hbound : ∀ u m, s < u → u < t → start.after host u = some m → ¬ m.Defines a.depth slot) :
    cellOf? b.frames a.depth slot = some c := by
  -- By induction on the later moment: the step of the capture puts the cell into the table, and
  -- every step from then on keeps it.
  induction t generalizing b with
  | zero => exact absurd hst (Nat.not_lt_zero s)
  | succ t ih =>
    obtain ⟨m, hm, hs⟩ := after_succ.1 hb
    rcases Nat.lt_or_eq_of_le (Nat.le_of_lt_succ hst) with hlt | rfl
    · have hmid : cellOf? m.frames a.depth slot = some c := by
        apply ih hlt hm
        · intro u r hsu hut hr
          exact hdepth u r hsu (Nat.le_succ_of_le hut) hr
        · intro u r hsu hut hr
          exact hbound u r hsu (Nat.lt_succ_of_lt hut) hr
      apply (rebinds_of_step hhost hs).kept a.depth slot c hmid
      · exact hdepth (t + 1) b (by omega) (Nat.le_refl _) hb
      · exact hbound t m hlt (Nat.lt_succ_self t) hm
    · rw [ha] at hm
      cases hm
      exact captured_kept hc hs

/-- Whatever has the cell of a captured local later is that local, in the same activation and not
bound afresh since. -/
theorem since_captured (hhost : host.OnlyAdds) (hstart : start.Unshared)
    (ha : start.after host s = some a) (hc : (.ofLocal slot, c) ∈ a.captured) (hst : s < t)
    (hb : start.after host t = some b) :
    c.index < b.heap.cells.size ∧ ∀ depth slot', cellOf? b.frames depth slot' = some c →
      depth = a.depth ∧ slot' = slot ∧
      (∀ u m, s ≤ u → u ≤ t → start.after host u = some m → a.depth ≤ m.depth) ∧
      ∀ u m, s < u → u < t → start.after host u = some m → ¬ m.Defines a.depth slot := by
  -- By induction on the later moment: once it is captured, the cell is an old one, and a step puts
  -- only new ones into the tables.
  induction t generalizing b with
  | zero => exact absurd hst (Nat.not_lt_zero s)
  | succ t ih =>
    obtain ⟨m, hm, hs⟩ := after_succ.1 hb
    have hrebinds := rebinds_of_step hhost hs
    rcases Nat.lt_or_eq_of_le (Nat.le_of_lt_succ hst) with hlt | rfl
    · obtain ⟨hcells, hsince⟩ := ih hlt hm
      refine ⟨Nat.lt_of_lt_of_le hcells hrebinds.cells, ?_⟩
      intro depth slot' hheld
      rcases hrebinds.old depth slot' c hheld with ⟨hold, hdefines⟩ | ⟨-, -, hge, -⟩
      · obtain ⟨rfl, rfl, hdepth, hbound⟩ := hsince depth slot' hold
        refine ⟨rfl, rfl, ?_, ?_⟩
        · intro u r hsu hut hr
          rcases Nat.lt_or_eq_of_le hut with hut | rfl
          · exact hdepth u r hsu (Nat.le_of_lt_succ hut) hr
          · rw [hb] at hr
            cases hr
            exact le_length_of_cellOf? hheld
        · intro u r hsu hut hr
          rcases Nat.lt_or_eq_of_le (Nat.le_of_lt_succ hut) with hut | rfl
          · exact hbound u r hsu hut hr
          · rw [hm] at hr
            cases hr
            exact hdefines
      · exact absurd hcells (Nat.not_lt.2 hge)
    · -- At the moment after the capture the cell is where it has been put.
      rw [ha] at hm
      cases hm
      have hput := captured_kept hc hs
      have hunshared := hstart.after hhost hb
      refine ⟨hunshared.bound _ _ c hput, ?_⟩
      intro depth slot' hheld
      obtain ⟨rfl, rfl⟩ := hunshared.unique _ _ _ _ c hheld hput
      refine ⟨rfl, rfl, ?_, ?_⟩
      · intro u r hsu hut hr
        rcases Nat.lt_or_eq_of_le hut with hut | rfl
        · obtain rfl : u = s := by omega
          rw [ha] at hr
          cases hr
          exact Nat.le_refl _
        · rw [hb] at hr
          cases hr
          exact le_length_of_cellOf? hheld
      · intro u r hsu hut
        omega

/-- Two captures have the same cell if and only if they are captures of the same binding. -/
theorem captured_cell_eq_iff (hhost : host.OnlyAdds) (hstart : start.Unshared) (hst : s ≤ t)
    (ha : start.after host s = some a) (hb : start.after host t = some b)
    (hc : (.ofLocal slot, c) ∈ a.captured) (hd : (.ofLocal slot', d) ∈ b.captured) :
    c = d ↔ start.SameActivation host s t ∧ slot = slot' ∧ start.StaysBound host s t slot := by
  rcases Nat.lt_or_eq_of_le hst with hlt | rfl
  · constructor
    · rintro rfl
      obtain ⟨hcells, hsince⟩ := since_captured hhost hstart ha hc hlt hb
      rcases captured_or hd with hheld | ⟨-, hge⟩
      · obtain ⟨hdepth, rfl, hlow, hbound⟩ := hsince _ _ hheld
        exact ⟨⟨a, b, ha, hb, hdepth.symm, hlow⟩, rfl, a, ha, hbound⟩
      · exact absurd hcells (Nat.not_lt.2 hge)
    · rintro ⟨⟨a', b', ha', hb', hdepth, hlow⟩, rfl, a'', ha'', hbound⟩
      rw [ha] at ha' ha''
      rw [hb] at hb'
      cases ha'
      cases ha''
      cases hb'
      have hheld := cellOf?_of_stays hhost ha hc hlt hb hlow hbound
      rw [hdepth] at hheld
      rcases captured_or hd with hd' | ⟨hnone, -⟩
      · rw [hheld] at hd'
        exact Option.some.inj hd'
      · rw [hheld] at hnone
        cases hnone
  · -- One instruction captures both.
    rw [ha] at hb
    cases hb
    rw [(hstart.after hhost ha).captured_eq_iff hc hd]
    constructor
    · intro hslot
      refine ⟨⟨a, a, ha, ha, rfl, ?_⟩, hslot, a, ha, ?_⟩
      · intro u m hsu hus hm
        obtain rfl : u = s := by omega
        rw [ha] at hm
        cases hm
        exact Nat.le_refl _
      · intro u m hsu hus
        omega
    · rintro ⟨-, hslot, -⟩
      exact hslot

/-- At a moment of the run, the closure `g` is made. -/
def MakesAt (host : Host) (start : Machine) (t : Nat) (g : FunctionObject) : Prop :=
  ∃ m m' prototype, start.after host t = some m ∧ Exec.step host m = .ok none m' ∧
    m.MakesClosure prototype g m'

/-- No object is lost on the way, so the next number never goes down. -/
theorem identities_le (hhost : host.OnlyAdds) (hst : s ≤ t) (ha : start.after host s = some a)
    (hb : start.after host t = some b) : a.heap.identities ≤ b.heap.identities := by
  induction t generalizing b with
  | zero =>
    obtain rfl : s = 0 := Nat.le_zero.1 hst
    rw [ha] at hb
    cases hb
    exact Nat.le_refl _
  | succ t ih =>
    rcases Nat.lt_or_eq_of_le hst with hlt | rfl
    · obtain ⟨m, hm, hs⟩ := after_succ.1 hb
      exact Nat.le_trans (ih (Nat.le_of_lt_succ hlt) hm) (rebinds_of_step hhost hs).identities
    · rw [ha] at hb
      cases hb
      exact Nat.le_refl _

/-- Closures that are made at different moments are different objects. -/
theorem MakesAt.id_lt (hhost : host.OnlyAdds) {g g' : FunctionObject} (hst : s < t)
    (hg : start.MakesAt host s g) (hg' : start.MakesAt host t g') : g.id < g'.id := by
  obtain ⟨a, a', _, ha, hs, hmakes⟩ := hg
  obtain ⟨b, b', _, hb, -, hmakes'⟩ := hg'
  have hnext := after_succ.2 ⟨a, ha, hs⟩
  have hle := identities_le hhost hst hnext hb
  rw [hmakes.identities] at hle
  rw [hmakes'.id]
  exact hle

end Machine

/-- Cells follow bindings. A closure instruction that succeeds makes a new object that has a cell
for each capture of its prototype, in their order: of a captured variable of the executing function
the very cell, and of two locals, captured at whatever moments of the run, the same cell if and only
if it is the same local of the same activation, not bound afresh in between. -/
theorem Launch.cells_follow_bindings (hhost : host.OnlyAdds) {l : Launch}
    {pool globals : Array Value} {limits : Limits} {heap : Heap} {start : Machine}
    (henter : l.enter (.idle pool globals limits heap) = .ok () start) :
    (∀ t m i r m', start.after host t = some m → m.instruction? = some i → i.op = .closure →
      Exec.step host m = .ok r m' →
      r = none ∧ ∃ prototype g, m.constants[i.first]? = some (.function prototype) ∧
        m.MakesClosure prototype g m') ∧
    (∀ s t g g', s < t → start.MakesAt host s g → start.MakesAt host t g' → g.id ≠ g'.id) ∧
    ∀ s t a b slot slot' c d, s ≤ t → start.after host s = some a → start.after host t = some b →
      (.ofLocal slot, c) ∈ a.captured → (.ofLocal slot', d) ∈ b.captured →
      (c = d ↔
        start.SameActivation host s t ∧ slot = slot' ∧ start.StaysBound host s t slot) := by
  have hstart : start.Unshared := Machine.unshared_of_empty (promoted_of_enter henter)
  refine ⟨?_, ?_, ?_⟩
  · intro t m i r m' _ hi hop hs
    exact Machine.makesClosure_of_step hi hop hs
  · intro s t g g' hst hg hg'
    exact Nat.ne_of_lt (hg.id_lt hhost hst hg')
  · intro s t a b slot slot' c d hst ha hb hc hd
    exact Machine.captured_cell_eq_iff hhost hstart hst ha hb hc hd

/-! ### A local that is captured, captured again and bound afresh

The first two closures share the cell of the local. The third one has captured what the local has
been bound to afterwards.
-/

def bindsAfresh : Function :=
  .ofCode #[Opcode.closure.byte, 0, 0, Opcode.closure.byte, 0, 0, Opcode.null.byte,
    Opcode.defineLocal.byte, 0, Opcode.closure.byte, 0, 0, Opcode.halt.byte] 1 0

def bindingAfresh : Machine :=
  { Machine.idle #[.function ⟨0, .readsCaptured⟩] #[] {} { identities := 1 } with
    stack := ⟨#[.undefined], 2048⟩
    frames := [.start bindsAfresh 0] }

theorem cells_bindsAfresh :
    (bindingAfresh.SameActivation sampleHost 0 1 ∧ bindingAfresh.StaysBound sampleHost 0 1 0) ∧
    ¬ (bindingAfresh.SameActivation sampleHost 0 4 ∧
      bindingAfresh.StaysBound sampleHost 0 4 0) := by
  have henter : (Launch.main bindsAfresh).enter
      (.idle #[.function ⟨0, .readsCaptured⟩] #[] {} { identities := 1 }) =
        .ok () bindingAfresh := rfl
  have hmoment {t : Nat} {c : CellRef}
      (h : (bindingAfresh.after sampleHost t).map Machine.captured = some [(.ofLocal 0, c)]) :
      ∃ m, bindingAfresh.after sampleHost t = some m ∧ (.ofLocal 0, c) ∈ m.captured := by
    obtain ⟨m, hm, heq⟩ := Option.map_eq_some_iff.1 h
    exact ⟨m, hm, by simp [heq]⟩
  obtain ⟨m₀, h₀, hc₀⟩ := hmoment (t := 0) (c := ⟨0⟩) (by decide +kernel)
  obtain ⟨m₁, h₁, hc₁⟩ := hmoment (t := 1) (c := ⟨0⟩) (by decide +kernel)
  obtain ⟨m₄, h₄, hc₄⟩ := hmoment (t := 4) (c := ⟨1⟩) (by decide +kernel)
  obtain ⟨-, -, hcells⟩ := Launch.cells_follow_bindings onlyAdds_sampleHost henter
  constructor
  · obtain ⟨hsame, -, hstays⟩ := (hcells 0 1 m₀ m₁ 0 0 _ _ (by omega) h₀ h₁ hc₀ hc₁).1 rfl
    exact ⟨hsame, hstays⟩
  · rintro ⟨hsame, hstays⟩
    have heq := (hcells 0 4 m₀ m₄ 0 0 _ _ (by omega) h₀ h₄ hc₀ hc₄).2 ⟨hsame, rfl, hstays⟩
    cases heq

end ScriptVM
