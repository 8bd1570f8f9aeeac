import ScriptVM.Value.Heap

/-!
# Frames

A frame is one activation of a function. Its local slots are on the operand stack, from its base on.
A local that a closure captures moves into a cell, which the frame and the closure then share; from
there on the frame finds the local in its cell, until the local is bound afresh.
-/

namespace ScriptVM

structure Frame where
  function : Function
  /-- The offset of the next byte to execute. -/
  ip : Nat
  /-- The stack index of the first local slot. -/
  base : Nat
  /-- The captured locals with their cells. -/
  promoted : List (Nat × CellRef)
  deriving DecidableEq, Inhabited

namespace Frame

def start (function : Function) (base : Nat) : Frame := ⟨function, 0, base, []⟩

/-- The cell of a local slot, if it has been captured. -/
def cell? (f : Frame) (slot : Nat) : Option CellRef := f.promoted.lookup slot

/-- The cell of a local slot, where a slot not captured yet gets a new one with the given contents;
the flag says whether it did. -/
def promote (f : Frame) (slot : Nat) (current : Value) : HeapM (CellRef × Bool × Frame) :=
  match f.cell? slot with
  | some cell => return (cell, false, f)
  | none => do
    let cell ← HeapM.newCell current
    return (cell, true, { f with promoted := (slot, cell) :: f.promoted })

/-- Parts a local slot from its cell. -/
def unbind (f : Frame) (slot : Nat) : Frame :=
  { f with promoted := f.promoted.filter fun (s, _) => s != slot }

end Frame

/-! ## What changes do to look-ups -/

theorem lookup_cons_eq (slot t : Nat) (c : CellRef) (table : List (Nat × CellRef)) :
    List.lookup t ((slot, c) :: table) = if t = slot then some c else List.lookup t table := by
  rw [List.lookup_cons]
  by_cases h : t = slot
  · rw [if_pos h, h, beq_self_eq_true]
  · rw [if_neg h, beq_false_of_ne h]

theorem Frame.cell?_cons (f : Frame) (slot t : Nat) (c : CellRef) (table : List (Nat × CellRef)) :
    ({ f with promoted := (slot, c) :: table } : Frame).cell? t =
      if t = slot then some c else ({ f with promoted := table } : Frame).cell? t :=
  lookup_cons_eq slot t c table

theorem Frame.cell?_unbind (f : Frame) (slot t : Nat) :
    (f.unbind slot).cell? t = if t = slot then none else f.cell? t := by
  unfold cell? unbind
  dsimp only
  induction f.promoted with
  | nil => simp
  | cons p table ih =>
    obtain ⟨k, c⟩ := p
    rw [List.filter_cons, lookup_cons_eq]
    by_cases hk : k = slot
    · subst hk
      rw [if_neg (by simp), ih]
      by_cases ht : t = k
      · rw [if_pos ht, if_pos ht]
      · rw [if_neg ht, if_neg ht, if_neg ht]
    · rw [if_pos (by simpa using hk), lookup_cons_eq, ih]
      by_cases ht : t = k
      · subst ht
        rw [if_pos rfl, if_pos rfl, if_neg hk]
      · rw [if_neg ht, if_neg ht]

end ScriptVM
