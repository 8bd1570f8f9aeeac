import ScriptVM.Value.Display

/-!
# A sample host

A host with a handful of functions, told apart by their names. Together they cover what a host can
do: compute, refuse its arguments, make containers and errors, pass values through, and fail.
-/

namespace ScriptVM.SampleHost

/-- The functions of the sample host. -/
inductive Entry where
  /-- Twice an integer, wrapping around; `undefined` for anything else. -/
  | double
  /-- The text of the one argument with an exclamation mark. -/
  | shout
  /-- The number of arguments. -/
  | argc
  /-- A new array of the arguments. -/
  | list
  /-- The first argument, or `undefined`. -/
  | first
  /-- A fault with the texts of the arguments. -/
  | fail
  /-- An error value with a new array of the arguments for its payload. -/
  | wrap
  deriving DecidableEq, Repr

def Entry.ofName? : String → Option Entry
  | "double" => some double
  | "shout" => some shout
  | "argc" => some argc
  | "list" => some list
  | "first" => some first
  | "fail" => some fail
  | "wrap" => some wrap
  | _ => none

def Entry.call (e : Entry) (args : List Value) : HeapM Value :=
  match e, args with
  | double, [.int n] => return .int (n * 2)
  | double, _ => return .undefined
  | shout, [v] => return .string ((← get).textOf v ++ "!")
  | shout, _ => throw (.wrongNumArguments (.exact 1) args.length)
  | argc, _ => return .int (Int64.ofNat args.length)
  | list, _ => HeapM.newArray args.toArray
  | first, v :: _ => return v
  | first, [] => return .undefined
  | fail, _ => do
    let h ← get
    throw (.internal (.told ("host: " ++ ",".intercalate (args.map h.textOf))))
  | wrap, _ => return .error (← HeapM.newArray args.toArray)

end ScriptVM.SampleHost

namespace ScriptVM

/-- The sample host. A function it does not know fails. -/
def sampleHost : Host := fun f args =>
  match SampleHost.Entry.ofName? f.name with
  | some e => e.call args
  | none => throw (.internal (.told ("no host function " ++ f.name)))

end ScriptVM
