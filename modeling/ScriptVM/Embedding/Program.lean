import ScriptVM.Embedding.Context
import ScriptVM.Embedding.Conversion

/-!
# Programs

A program is a unit with a name for each of its globals. Runs of it, and calls through its context,
work on one vector of globals.
-/

namespace ScriptVM

/-- A unit with named globals. -/
structure Program where
  code : CompiledUnit
  /-- The names of the globals, in the order of their slots. -/
  names : List String
  globals : Globals
  limits : Limits
  deriving Inhabited

namespace Program

/-- A program whose globals are all `undefined`, with the default limits. -/
def new (code : CompiledUnit) (names : List String) : StoreM Program := do
  let globals ← Globals.new (Array.replicate names.length .undefined)
  return ⟨code, names, globals, {}⟩

/-- The same program with other limits. It shares the globals. -/
def withLimits (p : Program) (limits : Limits) : Program := { p with limits := limits }

/-- Runs the top-level function. The globals are written back if the run ends with a value. -/
def run (host : Host) (steps : Nat) (p : Program) : StoreM Value := do
  let before ← p.globals.snapshot
  let (result, after) ← StoreM.onRun (p.code.run host steps before p.limits)
  p.globals.replace after
  return result

/-! ## Globals by name -/

/-- The slot of a name. Of several equal names the first one counts. -/
def slotOf? (p : Program) (name : String) : Option Nat := p.names.findIdx? (· == name)

/-- The value of a global, if there is one of the name. -/
def get? (p : Program) (name : String) : StoreM (Option Value) := do
  match p.slotOf? name with
  | some slot => p.globals.get? slot
  | none => return none

/-- The value of a global as a host value; a mismatch is a fault. -/
def getAs (p : Program) (t : HostType) (name : String) : StoreM (Option t.Carrier) := do
  match ← p.get? name with
  | some v => return some (← StoreM.ofExcept (t.ofValue (← MonadState.get).heap v))
  | none => return none

/-- The value of a global as a host value, if there is one of the name and it converts. -/
def getAs? (p : Program) (t : HostType) (name : String) : StoreM (Option t.Carrier) := do
  match ← p.get? name with
  | some v => return (t.ofValue (← MonadState.get).heap v).toOption
  | none => return none

def set (p : Program) (name : String) (v : Value) : StoreM Unit := do
  match p.slotOf? name with
  | some slot => discard (p.globals.set slot v)
  | none => throw (.unknownGlobal name)

/-- Overwrites all globals. There must be a value for each name. -/
def replaceGlobals (p : Program) (values : Array Value) : StoreM Unit := do
  if values.size = p.names.length then p.globals.replace values
  else
    StoreM.fault (.invalidGlobalsArray
      ("expected " ++ toString p.names.length ++ " globals, got " ++ toString values.size) none)

/-! ## Contexts -/

/-- A context that shares the program's globals and has its limits. -/
def context (p : Program) : Except Fault Context := do
  let c ← Context.new (some p.code.constants) p.globals (some p.code)
  .ok (c.withLimits p.limits)

end Program
end ScriptVM
