import ScriptVM.Proofs.Confinement

/-!
# Verified code

Code is verified if a height of the stack can be given to offsets so that every instruction there
finds its operands and goes on at offsets with the right height, and if what it names is there:
locals, cells, globals, constants. A constant that is loaded brings functions with it, and these
must be verified as well. Functions may load each other, so being verified is the largest
predicate of its kind: `Function.Verified` holds if any consistent predicate does.
-/

namespace ScriptVM

/-! ## Heights -/

namespace Instruction

/-- How many values an instruction leaves in place of its operands where it goes on. -/
def yield (i : Instruction) : Nat :=
  match i.op with
  | .pop | .jump | .jumpFalsy | .andJump | .orJump | .setGlobal | .setLocal | .defineLocal
  | .setFree | .setIndex | .ret | .halt => 0
  | _ => 1

/-- Where an instruction can go on from a height, each time with the height there. -/
def successors (i : Instruction) (next height : Nat) : List (Nat × Nat) :=
  match i.op with
  | .ret | .halt => []
  | .jump => [(i.first, height)]
  | .jumpFalsy => [(next, height - 1), (i.first, height - 1)]
  -- The value on top is left in place where the jump is taken.
  | .andJump | .orJump => [(next, height - 1), (i.first, height)]
  | _ => [(next, height - i.demand + i.yield)]

end Instruction

/-! ## Verification -/

/-- What the code of a unit is verified against: the heap and the constants that it is begun with,
and the number of globals. -/
structure Setting where
  heap : Heap
  constants : Array Value
  globals : Nat

/-- What an activation can name: local slots and cells. -/
def Capture.InScope (locals cells : Nat) : Capture → Prop
  | .ofLocal slot => slot < locals
  | .ofFree index => index < cells

/-- What an instruction names is there. `V` says of functions that they are verified for so many
cells. -/
def Instruction.Names (V : Function → Nat → Prop) (E : Setting) (locals cells : Nat)
    (i : Instruction) : Prop :=
  match i.op with
  | .getLocal | .setLocal | .defineLocal => i.first < locals
  | .getFree | .setFree => i.first < cells
  | .getBuiltin => i.first < CoreBuiltin.table.length
  | .getGlobal | .setGlobal => i.first < E.globals
  | .constant => ∃ v, E.constants[i.first]? = some v ∧
    ∀ g : FunctionObject, E.heap.Reaches v (.function g) → V g.function g.function.cells.length
  | .closure => ∃ g : FunctionObject, E.constants[i.first]? = some (.function g) ∧
    (∀ c ∈ g.function.captures, c.InScope locals cells) ∧
    V g.function g.function.captures.length
  | _ => True

/-- Heights for the offsets of a function that it goes on at from its beginning. -/
structure Function.Heights (V : Function → Nat → Prop) (E : Setting) (f : Function) (cells : Nat)
    (heights : Nat → Option Nat) : Prop where
  start : heights 0 = some 0
  step : ∀ ip k, heights ip = some k → ∃ i next, f.fetch ip = .instruction i next ∧
    i.demand ≤ k ∧ i.Names V E f.numLocals cells ∧
    ∀ s ∈ i.successors next k, heights s.1 = some s.2

/-- What is checked of one function. -/
structure Function.Checked (V : Function → Nat → Prop) (E : Setting) (f : Function) (cells : Nat) :
    Prop where
  params : f.numParams ≤ f.numLocals
  variadic : f.variadic = true → 1 ≤ f.numParams
  heights : ∃ heights, f.Heights V E cells heights

/-- The function is verified for so many cells. -/
def Function.Verified (E : Setting) (f : Function) (cells : Nat) : Prop :=
  ∃ V : Function → Nat → Prop, (∀ g n, V g n → g.Checked V E n) ∧ V f cells

section

variable {V W : Function → Nat → Prop} {E : Setting} {f : Function} {cells : Nat}

/-- What an instruction names stays verified when more functions count as verified. -/
theorem Instruction.Names.mono (hVW : ∀ g n, V g n → W g n) {i : Instruction} {locals : Nat}
    (h : i.Names V E locals cells) : i.Names W E locals cells := by
  unfold Instruction.Names at h ⊢
  split at h
  all_goals try exact h
  · obtain ⟨v, hv, hg⟩ := h
    exact ⟨v, hv, fun g hr => hVW _ _ (hg g hr)⟩
  · obtain ⟨g, hg, hc, hV⟩ := h
    exact ⟨g, hg, hc, hVW _ _ hV⟩

/-- A function checked against some functions is checked against more of them. -/
theorem Function.Checked.mono (hVW : ∀ g n, V g n → W g n) (h : f.Checked V E cells) :
    f.Checked W E cells := by
  obtain ⟨heights, hh⟩ := h.heights
  refine { h with heights := ⟨heights, hh.start, fun ip k hk => ?_⟩ }
  obtain ⟨i, next, hf, hd, hn, hs⟩ := hh.step ip k hk
  exact ⟨i, next, hf, hd, hn.mono hVW, hs⟩

/-- A verified function is checked against verified functions. -/
theorem Function.Verified.checked (h : f.Verified E cells) : f.Checked (Verified E) E cells := by
  obtain ⟨V, hV, hf⟩ := h
  exact (hV f cells hf).mono fun g n hg => ⟨V, hV, hg⟩

/-- Whether a function is verified does not depend on the cells that it has. -/
theorem Function.Verified.withCells (h : f.Verified E cells) (cs : List CellRef) :
    { f with cells := cs }.Verified E cells := by
  refine ⟨fun g n => ∃ f : Function, g = { f with cells := g.cells } ∧ f.Verified E n, ?_,
    f, rfl, h⟩
  rintro g n ⟨f, hg, hf⟩
  have hc := hf.checked.mono (W := fun g n => ∃ f : Function, g = { f with cells := g.cells } ∧
    f.Verified E n) fun g n hg => ⟨g, rfl, hg⟩
  rw [hg]
  exact ⟨hc.params, hc.variadic, hc.heights.imp fun _ hh => ⟨hh.start, hh.step⟩⟩

end

/-! ## The region of verified functions

Verification is a matter of the code that is within reach. The region is drawn around it, so that a
run which is confined to it meets verified functions only.
-/

namespace Setting

variable {E : Setting}

/-- All functions within reach of the value are verified for the cells they have. -/
def Sound (E : Setting) (v : Value) : Prop :=
  ∀ g : FunctionObject, E.heap.Reaches v (.function g) →
    g.function.Verified E g.function.cells.length

/-- What the run of verified code is confined to. -/
def region (E : Setting) : Region where
  functions f := f.Verified E f.cells.length
  arrays ref := E.Sound (.array ref)
  maps ref := E.Sound (.map ref)
  cells ref := E.Sound (E.heap.cellAt ref)

theorem Sound.within {v : Value} (h : E.Sound v) : v.Within E.region := Heap.Only.within h

theorem confined_region (E : Setting) : E.heap.Confined E.region E.heap :=
  E.heap.confined_regionOf _

/-- What an instruction of verified code names is allowed in the region. -/
theorem allowed_of_names {i : Instruction} {locals cells : Nat}
    (h : i.Names (Function.Verified E) E locals cells) : i.Allowed E.region E.constants := by
  unfold Instruction.Names at h
  unfold Instruction.Allowed
  split
  all_goals rename_i hop
  · simp only [hop] at h
    obtain ⟨v, hv, hs⟩ := h
    intro w hw
    rw [hv] at hw
    cases hw
    exact Sound.within hs
  · simp only [hop] at h
    obtain ⟨g, hg, -, hv⟩ := h
    intro f hf cs hlen
    rw [hg] at hf
    cases hf
    show Function.Verified E _ cs.length
    rw [hlen]
    exact hv.withCells cs
  · trivial

end Setting
end ScriptVM
