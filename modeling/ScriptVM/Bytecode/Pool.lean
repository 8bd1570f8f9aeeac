import ScriptVM.Bytecode.Builder
import ScriptVM.Value.Heap

/-!
# Constants pools

The constants of a unit are collected in a pool. A literal that is in the pool already is not added
again; containers and functions always are. An entry can be reserved first and filled in later.
-/

namespace ScriptVM

/-- Whether two values are the same literal. Floats are compared bit for bit. -/
def Value.sameLiteral : Value → Value → Bool
  | bool a, bool b => a == b
  | int a, int b => a == b
  | float x, float y => x.bits == y.bits
  | string a, string b => a == b
  | _, _ => false

/-- The constants of a unit under construction. -/
structure ConstantPool where
  entries : Array Value := #[]
  deriving DecidableEq, Inhabited

namespace ConstantPool

/-- Adds an entry, and tells its index. -/
def push (p : ConstantPool) (v : Value) : Nat × ConstantPool :=
  (p.entries.size, ⟨p.entries.push v⟩)

/-- The index of a constant, which is added unless it is a literal that the pool holds. -/
def constant (p : ConstantPool) (v : Value) : Nat × ConstantPool :=
  match p.entries.findIdx? (·.sameLiteral v) with
  | some index => (index, p)
  | none => p.push v

def function (p : ConstantPool) (f : FunctionObject) : Nat × ConstantPool :=
  p.push (.function f)

/-- Reserves an entry. Until it is filled in it holds `undefined`. -/
def reserve (p : ConstantPool) : Nat × ConstantPool := p.push .undefined

/-- Fills an entry in, if it is there. -/
def fill (p : ConstantPool) (index : Nat) (v : Value) : ConstantPool :=
  ⟨p.entries.setIfInBounds index v⟩

end ConstantPool
end ScriptVM
