import ScriptVM.Value.Basic

/-!
# The operand stack

A stack of values that holds no more than its capacity. It is addressed from the top and, for local
slots, from the bottom. An operation that faults leaves the stack as it was.
-/

namespace ScriptVM

/-- An operand stack. The top is the last value. -/
structure Stack where
  values : Array Value
  capacity : Nat
  deriving DecidableEq, Inhabited

abbrev StackM := EStateM Fault Stack

namespace Stack

def ofCapacity (capacity : Nat) : Stack := ⟨#[], capacity⟩

def size (s : Stack) : Nat := s.values.size

/-! ## At the top -/

def push (v : Value) : StackM Unit := fun s =>
  if s.values.size < s.capacity then .ok () { s with values := s.values.push v }
  else .error .stackOverflow s

def pop : StackM Value := fun s =>
  match s.values.back? with
  | some v => .ok v { s with values := s.values.pop }
  | none => .error .stackUnderflow s

/-- The value at a distance from the top. -/
def peek (distance : Nat) : StackM Value := fun s =>
  if distance < s.values.size then
    match s.values[s.values.size - 1 - distance]? with
    | some v => .ok v s
    | none => .error .stackUnderflow s
  else .error .stackUnderflow s

/-- Takes so many values from the top, the lowest one first. -/
def popMany (n : Nat) : StackM (List Value) := fun s =>
  if n ≤ s.values.size then
    let start := s.values.size - n
    .ok (s.values.extract start s.values.size).toList { s with values := s.values.shrink start }
  else .error .stackUnderflow s

/-! ## From the bottom -/

def get (index : Nat) : StackM Value := fun s =>
  match s.values[index]? with
  | some v => .ok v s
  | none => .error .stackUnderflow s

def set (index : Nat) (v : Value) : StackM Unit := fun s =>
  if index < s.values.size then .ok () { s with values := s.values.setIfInBounds index v }
  else .error .stackUnderflow s

/-- Drops what is at an index and above. -/
def truncate (n : Nat) : StackM Unit := fun s => .ok () { s with values := s.values.shrink n }

/-- The values at an index and above, which stay where they are. -/
def sliceFrom (start : Nat) : StackM (List Value) := fun s =>
  if start ≤ s.values.size then .ok (s.values.extract start s.values.size).toList s
  else .error .stackUnderflow s

end Stack
end ScriptVM
