/-!
# Limits

How much of the stack, of the frames and of the heap a run may use.
-/

namespace ScriptVM

structure Limits where
  /-- How many values the operand stack holds. -/
  stackSize : Nat := 2048
  /-- How many frames there may be at a time. -/
  maxFrames : Nat := 1024
  /-- How many objects a run may allocate; no number means any. -/
  maxAllocs : Option Nat := none
  deriving DecidableEq, Repr, Inhabited

/-- Why limits are refused. -/
inductive LimitsError where
  /-- A limit below the least one that makes sense. -/
  | tooSmall (field : String) (least value : Nat)
  /-- A document that is not a table of limits. -/
  | unreadable
  deriving DecidableEq, Repr

def LimitsError.message : LimitsError → String
  | tooSmall field least value =>
    field ++ " must be at least " ++ toString least ++ ", got " ++ toString value
  | unreadable => "failed to parse limits"

/-- Refuses limits with which nothing can run. A call from outside needs two frames: one to return
to and one for the function. -/
def Limits.validate (l : Limits) : Except LimitsError Unit :=
  if l.stackSize < 1 then .error (.tooSmall "stack_size" 1 l.stackSize)
  else if l.maxFrames < 2 then .error (.tooSmall "max_frames" 2 l.maxFrames)
  else .ok ()

end ScriptVM
