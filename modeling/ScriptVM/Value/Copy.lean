import ScriptVM.Value.Heap

/-!
# Deep copies

A deep copy has fresh containers all the way down, one for each place where a container stands, so
that nothing written to the copy shows in the value it was made of. Functions are not copied: a
copied closure goes on sharing its captured variables.
-/

namespace ScriptVM

/-- The copy of a value, given the copies of references. -/
def Value.copyWith (array : ArrayRef → HeapM Value) (map : MapRef → HeapM Value) :
    Value → HeapM Value
  | .array ref => array ref
  | .map ref => map ref
  | .error payload => return .error (← copyWith array map payload)
  | v => return v

/-- The deep copy that follows references so many deep, on the way from the containers on a path. A
container inside itself is copied without what it holds. -/
def Value.copyUpTo : (depth : Nat) → (path : List Container) → Value → HeapM Value
  | 0, _ => copyWith (fun _ => HeapM.newArray #[]) (fun _ => HeapM.newMap FieldMap.empty)
  | depth + 1, path =>
    copyWith
      (fun ref => do
        if .array ref ∈ path then HeapM.newArray #[]
        else
          let items ← (((← get).arrayAt ref).toList.mapM (copyUpTo depth (.array ref :: path)))
          HeapM.newArray items.toArray)
      (fun ref => do
        if .map ref ∈ path then HeapM.newMap FieldMap.empty
        else
          let fields ← ((← get).mapAt ref).traverse (copyUpTo depth (.map ref :: path))
          HeapM.newMap fields)

def Value.deepCopy (v : Value) : HeapM Value := do v.copyUpTo (← get).containers []

end ScriptVM
