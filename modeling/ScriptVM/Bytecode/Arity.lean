/-!
# Arities

The numbers of arguments that something callable accepts.
-/

namespace ScriptVM

/-- Accepted numbers of arguments. -/
inductive Arity where
  | exact (n : Nat)
  | atLeast (n : Nat)
  deriving DecidableEq, Repr

namespace Arity

def accepts : Arity → Nat → Bool
  | exact n, argc => argc == n
  | atLeast n, argc => decide (n ≤ argc)

/-- How an arity is told in faults. -/
def text : Arity → String
  | exact n => "want=" ++ toString n
  | atLeast n => "want>=" ++ toString n

end Arity
end ScriptVM
