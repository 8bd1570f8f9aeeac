import ScriptVM.Bytecode.Listing

/-!
# Functions

A function is its code together with what a call needs to know: how many local slots to set aside,
how many parameters are declared, whether the last one collects the remaining arguments, and which
variables of the surrounding function a closure of it captures. A function that is a closure holds
a cell for each captured variable.
-/

namespace ScriptVM

/-- A reference to a cell, the shared place of a captured variable. -/
structure CellRef where
  index : Nat
  deriving DecidableEq, Repr, Inhabited

/-- Where a closure gets one of its captured variables from when it is made. -/
inductive Capture where
  /-- A local slot of the function that makes the closure. -/
  | ofLocal (slot : Nat)
  /-- A variable which that function has captured itself. -/
  | ofFree (index : Nat)
  deriving DecidableEq, Repr

/-- A function in bytecode. -/
structure Function where
  code : Array UInt8
  /-- Local slots, parameters included. -/
  numLocals : Nat
  /-- Declared parameters, the collecting one included. -/
  numParams : Nat
  /-- Whether the last parameter collects the remaining arguments. -/
  variadic : Bool
  /-- What a closure of this function captures. -/
  captures : List Capture
  /-- The captured variables, in the order of `captures`. -/
  cells : List CellRef
  deriving DecidableEq, Repr, Inhabited

namespace Function

/-- A plain function. There are at least as many local slots as parameters. -/
def ofCode (code : Array UInt8) (numLocals numParams : Nat) : Function :=
  ⟨code, max numLocals numParams, numParams, false, [], []⟩

/-- Whether variables have been captured. -/
def isClosure (f : Function) : Bool := !f.cells.isEmpty

def arity (f : Function) : Arity :=
  if f.variadic then .atLeast (f.numParams - 1) else .exact f.numParams

/-- Refuses a number of arguments that does not fit the parameters. -/
def checkArity (f : Function) (argc : Nat) : Except Fault Unit :=
  if f.arity.accepts argc then .ok () else .error (.wrongNumArguments f.arity argc)

def disassemble (f : Function) : List String := (listing f.code).map ListingLine.text

end Function

def Function.free? (f : Function) (index : Nat) : Except Fault CellRef :=
  match f.cells[index]? with
  | some cell => .ok cell
  | none => .error (.internal (.noFreeVariable index f.cells.length))

end ScriptVM
