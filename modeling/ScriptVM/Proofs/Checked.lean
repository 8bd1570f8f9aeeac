import Mathlib
import ScriptVM.Machine.Run
import ScriptVM.Proofs.Exec

/-!
# The checked machine

Positions and sizes are natural numbers here, so that an instruction never fails for them. On a real
machine they are 64 bits wide, and an index or a range that is not there ends the program. The
checked machine does everything that a machine does, but checks each such place first and panics
where the check fails. It also panics in the branches that should never be taken.
-/

namespace ScriptVM

/-- Why a checked run has no value. -/
inductive Trap where
  | stop (s : Stop)
  /-- A check has failed. -/
  | panic

abbrev Checked := EStateM Trap Machine

namespace Checked

variable {α : Type}

/-- A computation that has nothing to check. -/
def lift (x : Exec α) : Checked α := fun m =>
  match x m with
  | .ok a m => .ok a m
  | .error e m => .error (.stop (.fault e)) m

def panic : Checked α := throw .panic

def fault (e : Fault) : Checked α := lift (throw e)

/-! ## Checks

Each check is passed or panics. Which ones there are follows from the operations of a real machine:
sums and products must fit 64 bits, differences must not be negative, and what is read must be
there.
-/

def add (a b : Nat) : Checked Nat := if a + b < 2 ^ 64 then return a + b else panic

def mul (a b : Nat) : Checked Nat := if a * b < 2 ^ 64 then return a * b else panic

def sub (a b : Nat) : Checked Nat := if b ≤ a then return a - b else panic

def elementAt (items : Array α) (index : Nat) : Checked α :=
  match items[index]? with
  | some a => return a
  | none => panic

def elementsFrom (items : Array α) (low high : Nat) : Checked (Array α) :=
  if low ≤ high ∧ high ≤ items.size then return items.extract low high else panic

def quotient (a b : Int64) : Checked Int64 := if b = 0 then panic else return a / b

def remainder (a b : Int64) : Checked Int64 := if b = 0 then panic else return a % b

/-- A number of places to shift an integer by. -/
def places (b : Int64) : Checked Int64 := if 0 ≤ b ∧ b < 64 then return b else panic

/-! ## Fetching

Every byte of the code is read with its check, and the pointer stays a position of 64 bits.
-/

/-- The next byte, after which there is one more position to go to. -/
def nextByte : Checked UInt8 := do
  let f ← lift Exec.frame
  match f.function.code[f.ip]? with
  | some b =>
    -- A position that is not beyond the code has room in 64 bits.
    if f.ip + 1 ≤ f.function.code.size then
      lift (Exec.setFrame { f with ip := f.ip + 1 })
      return b
    else panic
  | none => fault (.internal .offTheCode)

def operandFrom (acc : Nat) : (width : Nat) → Checked Nat
  | 0 => return acc
  | width + 1 => do
    let b ← nextByte
    operandFrom (acc * 256 + b.toNat) width

def opcode : Checked Opcode := do
  let b ← nextByte
  match Opcode.ofByte? b with
  | some op => return op
  | none => fault (.invalidOpcode b)

def instruction : Checked Instruction := do
  let op ← opcode
  let operands ← op.operandWidths.mapM (operandFrom 0)
  return ⟨op, operands⟩

/-! ## The stack -/

def peek (distance : Nat) : Checked Value := do
  let values := (← get).stack.values
  if values.size ≤ distance then fault .stackUnderflow
  else elementAt values (← sub (← sub values.size 1) distance)

def popMany (n : Nat) : Checked (List Value) := do
  let values := (← get).stack.values
  if values.size < n then fault .stackUnderflow
  else
    let start ← sub values.size n
    let items ← elementsFrom values start values.size
    lift (Exec.onStack (Stack.truncate start))
    return items.toList

/-! ## Locals and closures

A slot is added to a base to find the local on the stack.
-/

def getLocal (slot : Nat) : Checked Value := do
  let f ← lift Exec.frame
  match f.cell? slot with
  | some cell => return (← get).heap.cellAt cell
  | none => lift (Exec.onStack (Stack.get (← add f.base slot)))

def setLocal (slot : Nat) (v : Value) : Checked Unit := do
  let f ← lift Exec.frame
  match f.cell? slot with
  | some cell => lift (Exec.onHeap (modify fun h => h.setCell cell v))
  | none => lift (Exec.onStack (Stack.set (← add f.base slot) v))

def defineLocal (slot : Nat) (v : Value) : Checked Unit := do
  let f ← lift Exec.frame
  lift (Exec.setFrame (f.unbind slot))
  lift (Exec.onStack (Stack.set (← add f.base slot) v))

def captureLocal (slot : Nat) : Checked CellRef := do
  let f ← lift Exec.frame
  let current ← lift (Exec.onStack (Stack.get (← add f.base slot)))
  -- The activation keeps its cells by slot, with room for this one.
  let _ ← add slot 1
  let (cell, created, f) ← lift (Exec.onHeap (f.promote slot current))
  lift (Exec.setFrame f)
  if created then lift Exec.charge
  return cell

def capture : Capture → Checked CellRef
  | .ofLocal slot => captureLocal slot
  | .ofFree index => lift (Exec.freeCell index)

def captureAll : List Capture → Checked (List CellRef)
  | [] => return []
  | c :: rest => do
    let cell ← capture c
    return cell :: (← captureAll rest)

def makeClosure (index : Nat) : Checked Value := do
  match ← lift (Exec.constant index) with
  | .function prototype =>
    let cells ← captureAll prototype.function.captures
    lift Exec.charge
    let f ← lift (Exec.onHeap (HeapM.newFunction { prototype.function with cells := cells }))
    return .function f
  | v => fault (.internal (.notAFunction index v.typeName))

/-! ## Operators -/

def onInts (op : Opcode) (a b : Int64) : Checked Int64 :=
  match op with
  | .div => if b = 0 then fault .divisionByZero else quotient a b
  | .rem => if b = 0 then fault .divisionByZero else remainder a b
  | .shl =>
    if b < 0 then fault (Operator.invalidBinary op "int" "negative int")
    else if 64 ≤ b then return 0
    else return a <<< (← places b)
  | .shr =>
    if b < 0 then fault (Operator.invalidBinary op "int" "negative int")
    else if 64 ≤ b then return if a < 0 then -1 else 0
    else return a >>> (← places b)
  | _ => lift (Exec.ofExcept (Operator.onInts op a b))

def binary (op : Opcode) (left right : Value) : Checked Value :=
  match left, right with
  | .int a, .int b => do return .int (← onInts op a b)
  | _, _ => lift (Exec.onHeap (Operator.binary op left right))

def applyBinary (op : Opcode) : Checked Unit := do
  let right ← lift Exec.pop
  let left ← lift Exec.pop
  let result ← binary op left right
  lift Exec.charge
  lift (Exec.push result)

/-! ## Containers

Ranges are cut out of arrays, and the elements of a new map are counted in pairs.
-/

def makeArray (count : Nat) : Checked Unit := do
  let items ← popMany count
  lift Exec.charge
  lift (Exec.push (← lift (Exec.onHeap (HeapM.newArray items.toArray))))

def makeMap (pairs : Nat) : Checked Unit := do
  let flat ← popMany (← mul pairs 2)
  let fields ← lift (Exec.ofExcept (Exec.fieldsOf FieldMap.empty flat))
  lift Exec.charge
  lift (Exec.push (← lift (Exec.onHeap (HeapM.newMap fields))))

/-- What a slice makes of a receiver whose length and bounds have been found. -/
def sliceOf (receiver : Value) (low high : Nat) : Checked Value := do
  match receiver with
  | .array ref =>
    let items ← elementsFrom ((← get).heap.arrayAt ref) low high
    lift (Exec.onHeap (HeapM.newArray items))
  | .string s => return .string (String.ofList ((s.toList.drop low).take (← sub high low)))
  | _ => return .undefined

def slice (receiver low high : Value) : Checked Value := do
  let length ← lift (Exec.ofExcept ((← get).heap.sliceLength receiver))
  let (l, r) ← lift (Exec.ofExcept (sliceBounds receiver low high length))
  sliceOf receiver l r

def readSlice : Checked Unit := do
  let high ← lift Exec.pop
  let low ← lift Exec.pop
  let receiver ← lift Exec.pop
  let result ← slice receiver low high
  lift Exec.charge
  lift (Exec.push result)

def write (v : Value) (place : Place) : Checked Unit := do
  match place with
  | .element ref i =>
    let _ ← elementAt ((← get).heap.arrayAt ref) i
    lift (Exec.onHeap (modify fun h => h.write v place))
  | .field .. => lift (Exec.onHeap (modify fun h => h.write v place))

def assign (receiver key v : Value) : Checked Unit := do
  let place ← lift (Exec.ofExcept ((← get).heap.place receiver key))
  write v place

def writeIndex : Checked Unit := do
  let v ← lift Exec.pop
  let key ← lift Exec.pop
  let receiver ← lift Exec.pop
  assign receiver key v

/-! ## Jumps -/

def andJump (target : Nat) : Checked Unit := do
  if ← lift (Exec.isFalsy (← peek 0)) then lift (Exec.jump target) else lift (discard Exec.pop)

def orJump (target : Nat) : Checked Unit := do
  if ← lift (Exec.isFalsy (← peek 0)) then lift (discard Exec.pop) else lift (Exec.jump target)

/-! ## Calls and returns

How many arguments there are is subtracted from the height, and the base of an activation is
subtracted to find its callee.
-/

/-- Starts an activation of a function that stands at a stack index with its arguments above. -/
def enterFunction (f : Function) (callee argc : Nat) : Checked Unit := do
  lift (Exec.ofExcept (f.checkArity argc))
  let base ← add callee 1
  if f.variadic then
    let rest ← popMany (← sub argc (f.numParams - 1))
    lift (Exec.push (← lift (Exec.onHeap (HeapM.newArray rest.toArray))))
  -- There may be more on the stack than the function has locals.
  lift (Exec.pushUndefined (f.numLocals - (← sub (← lift Exec.stackSize) base)))
  lift (Exec.pushFrame (.start f base))

def callBuiltin (host : Host) (b : Builtin) (callee : Nat) : Checked Unit := do
  let args ← lift (Exec.onStack (Stack.sliceFrom (← add callee 1)))
  let result ← lift (Exec.onHeap (b.call host args))
  unless result.isUndefined do lift Exec.charge
  lift (Exec.onStack (Stack.truncate callee))
  lift (Exec.push result)

def spreadLast (argc : Nat) : Checked Nat := do
  if argc = 0 then return 0
  else
    match ← lift Exec.pop with
    | .array ref =>
      let items := (← get).heap.arrayAt ref
      lift (Exec.pushAll items.toList)
      add (← sub argc 1) items.size
    | v => fault (.invalidArgumentType "spread" "array" v.typeName)

def call (host : Host) (argc : Nat) (spread : Bool) : Checked Unit := do
  let argc ← if spread then spreadLast argc else pure argc
  let size ← lift Exec.stackSize
  let needed ← add argc 1
  if size < needed then fault .stackUnderflow
  else
    let callee := size - needed
    match ← lift (Exec.onStack (Stack.get callee)) with
    | .function f => enterFunction f.function callee argc
    | .builtin b => callBuiltin host b callee
    | v => fault (.notCallable v.typeName)

/-- Ends the executing activation. There is one, and unless it is the outermost it has a callee. -/
def leave (result : Value) : Checked (Option Value) := do
  match (← get).frames with
  | [] => panic
  | f :: rest =>
    lift (modify fun m => { m with frames := rest })
    if rest.isEmpty then return some result
    else
      let callee ← sub f.base 1
      lift (Exec.onStack (Stack.truncate callee))
      lift (Exec.push result)
      return none

def haltResult : Checked Value := do
  let f ← lift Exec.frame
  let above ← add f.base f.function.numLocals
  if above < (← lift Exec.stackSize) then peek 0 else return .undefined

/-! ## All instructions

The instructions come in groups, and each group has a branch for the ones that are not in it. These
branches panic.
-/

def goOn (x : Checked Unit) : Checked (Option Value) := do
  x
  return none

/-- The instructions that work on variables. No other one gets here. -/
def onVariables (i : Instruction) : Checked Unit :=
  match i.op with
  | .getGlobal => do lift (Exec.push (← lift (Exec.global i.first)))
  | .setGlobal => do lift (Exec.setGlobal i.first (← lift Exec.pop))
  | .getLocal => do lift (Exec.push (← getLocal i.first))
  | .setLocal => do setLocal i.first (← lift Exec.pop)
  | .defineLocal => do defineLocal i.first (← lift Exec.pop)
  | .getFree => do lift (Exec.push (← lift (Exec.getFree i.first)))
  | .setFree => do lift (Exec.setFree i.first (← lift Exec.pop))
  | .getBuiltin => do lift (Exec.push (← lift (Exec.coreBuiltin i.first)))
  | _ => panic

/-- The instructions that work on containers. No other one gets here. -/
def collections (i : Instruction) : Checked Unit :=
  match i.op with
  | .array => makeArray i.first
  | .map => makeMap i.first
  | .error => lift Exec.makeError
  | .index => lift Exec.readIndex
  | .sliceIndex => readSlice
  | .setIndex => writeIndex
  | _ => panic

/-- The instructions that go elsewhere. No other one gets here. -/
def control (host : Host) (i : Instruction) : Checked (Option Value) :=
  match i.op with
  | .jump => goOn (lift (Exec.jump i.first))
  | .jumpFalsy => goOn (lift (Exec.jumpFalsy i.first))
  | .andJump => goOn (andJump i.first)
  | .orJump => goOn (orJump i.first)
  | .call => goOn (call host i.first (i.second != 0))
  | .ret => do leave (← lift (Exec.returnValue (i.first != 0)))
  | .halt => do return some (← haltResult)
  | _ => panic

def execute (host : Host) (i : Instruction) : Checked (Option Value) :=
  match i.op with
  | .constant | .null | .true | .false | .pop | .equal | .notEqual | .lnot =>
    lift (Exec.execute host i)
  | .add | .sub | .mul | .div | .rem | .bitAnd | .bitOr | .bitXor | .bitAndNot | .shl | .shr =>
    goOn (applyBinary i.op)
  | .less | .lessEq | .greater | .greaterEq => goOn (lift (Exec.applyOrder i.op))
  | .minus | .bComplement => goOn (lift (Exec.applyUnary i.op))
  | .getGlobal | .setGlobal | .getLocal | .setLocal | .defineLocal | .getFree | .setFree
  | .getBuiltin => goOn (onVariables i)
  | .array | .map | .error | .index | .sliceIndex | .setIndex => goOn (collections i)
  | .closure => goOn do lift (Exec.push (← makeClosure i.first))
  | .jump | .jumpFalsy | .andJump | .orJump | .call | .ret | .halt => control host i

def step (host : Host) : Checked (Option Value) := do execute host (← instruction)

def run (host : Host) : (steps : Nat) → Machine → EStateM.Result Trap Machine Value
  | 0, m => .error (.stop .outOfSteps) m
  | steps + 1, m =>
    match step host m with
    | .ok (some v) m => .ok v m
    | .ok none m => run host steps m
    | .error t m => .error t m

/-- A run in which nothing has panicked. -/
def ofRun : EStateM.Result Stop Machine α → EStateM.Result Trap Machine α
  | .ok a m => .ok a m
  | .error s m => .error (.stop s) m

end Checked
end ScriptVM
