import ScriptVM.Value.Heap

/-!
# Equality

Two values are equal if they are of one type and hold the same. Numbers of different types are never
equal. Two references to one container are equal without a look inside; otherwise arrays are equal
element by element and maps field by field. Functions are equal only to themselves.

`equalWith` says all of this but what references mean, and so is a recursion on the value alone.
`Heap.equalUpTo` follows references. It does not follow two of them again that it is following
already, so as deep as there are pairs of containers is deep enough.
-/

namespace ScriptVM

/-- Equality, given the equality of references. -/
def Value.equalWith (arrays : ArrayRef → ArrayRef → Bool) (maps : MapRef → MapRef → Bool) :
    Value → Value → Bool
  | .undefined, .undefined => true
  | .bool a, .bool b => a == b
  | .int a, .int b => a == b
  | .float a, .float b => a.equal b
  | .string a, .string b => a == b
  | .array a, .array b => arrays a b
  | .map a, .map b => maps a b
  | .error a, .error b => equalWith arrays maps a b
  | .function a, .function b => a.same b
  | .builtin a, .builtin b => a.same b
  | _, _ => false

namespace Heap

/-- Whether two lists of fields have the same keys and values that are related. -/
def fieldsEqual (eq : Value → Value → Bool) (a b : FieldMap Value) : Bool :=
  List.isEqv a.entries b.entries fun p q => p.1 == q.1 && eq p.2 q.2

/-- Equality that follows pairs of references so many deep, on the way from the pairs on a path. A
pair that comes back to itself holds no difference but is not found equal either. -/
def equalUpTo (h : Heap) :
    (depth : Nat) → (path : List (Container × Container)) → Value → Value → Bool
  | 0, _ => Value.equalWith (fun a b => decide (a = b)) (fun a b => decide (a = b))
  | depth + 1, path =>
    Value.equalWith
      (fun a b => decide (a = b) || !decide ((.array a, .array b) ∈ path) &&
        Array.isEqv (h.arrayAt a) (h.arrayAt b)
          (equalUpTo h depth ((.array a, .array b) :: path)))
      (fun a b => decide (a = b) || !decide ((.map a, .map b) ∈ path) &&
        fieldsEqual (equalUpTo h depth ((.map a, .map b) :: path)) (h.mapAt a) (h.mapAt b))

def equal (h : Heap) (a b : Value) : Bool :=
  h.equalUpTo (h.containers * h.containers) [] a b

end Heap
end ScriptVM
