import ScriptVM.Container
import ScriptVM.Embedding.Context

/-!
# Plans of calls

A host that has two contexts makes calls through the one or the other, in any order. A `Plan` is the
list of these calls. Each says which side it goes through, where the callee comes from and what the
arguments are made of, so a plan can be carried out in any store, and a part of it as well.
-/

namespace ScriptVM

/-! ## Reading from globals

What a host reads must not depend on how objects are numbered. So it reads along keys, and what it
has read it names by when it was read.
-/

/-- A key that a host reads containers at. -/
inductive Key where
  | index (n : Int64)
  | field (name : String)
  deriving DecidableEq, Repr

def Key.toValue : Key → Value
  | index n => .int n
  | field name => .string name

/-- What is read from a value at one key after the other. -/
def Heap.follow (h : Heap) (v : Value) : List Key → Except Fault Value
  | [] => .ok v
  | k :: path => do h.follow (← h.index v k.toValue) path

def Store.vector (s : Store) (g : Globals) : Array Value := s.vectors.getD g.index #[]

section

variable {g g' : Globals} {vectors : Array (Array Value)} (heap : Heap) (vs : Array Value)

/-- A vector that has been overwritten is read as what it was overwritten with. -/
theorem Store.vector_overwritten (h : g.index < vectors.size) :
    Store.vector ⟨heap, vectors.setIfInBounds g.index vs⟩ g = vs := by
  simp [vector, Array.getD_eq_getD_getElem?, h]

/-- Other handles have other vectors. -/
theorem Store.vector_overwritten_of_ne (hne : g' ≠ g) :
    Store.vector ⟨heap, vectors.setIfInBounds g.index vs⟩ g' = Store.vector ⟨heap, vectors⟩ g' := by
  have hindex : g.index ≠ g'.index := fun heq => hne (by cases g; cases g'; cases heq; rfl)
  simp only [vector, Array.getD_eq_getD_getElem?, Array.getElem?_setIfInBounds, hindex, if_false]

/-- A new vector is read by a handle to the first place that was free. -/
theorem Store.vector_pushed :
    Store.vector ⟨heap, vectors.push vs⟩ ⟨vectors.size⟩ = vs := by
  simp [vector, Array.getD_eq_getD_getElem?]

theorem Store.vector_pushed_of_lt (h : g.index < vectors.size) :
    Store.vector ⟨heap, vectors.push vs⟩ g = Store.vector ⟨heap, vectors⟩ g := by
  simp [vector, Array.getD_eq_getD_getElem?, Array.getElem?_push, Nat.ne_of_lt h]

end

/-- A place that a host reads from: a slot of globals, and in there some keys. -/
structure Spot where
  slot : Nat
  path : List Key

/-- What there is at a place. -/
def Store.read (s : Store) (g : Globals) (spot : Spot) : Value :=
  match s.heap.follow ((s.vector g)[spot.slot]?.getD .undefined) spot.path with
  | .ok v => v
  | .error _ => .undefined

/-! ## Arguments -/

/-- One of the values that arguments are made of. Values that have been made before are named by
their position. -/
inductive Part where
  | undefined
  | bool (b : Bool)
  | int (n : Int64)
  | float (x : Binary64)
  | string (s : String)
  | array (items : List Nat)
  | map (fields : List (String × Nat))
  | error (payload : Nat)
  /-- Writes to a container that has been made before, and makes `undefined`. -/
  | write (container key item : Nat)

def Part.pick (made : List Value) (i : Nat) : Value := made[i]?.getD .undefined

def Part.make (made : List Value) : Part → HeapM Value
  | undefined => return .undefined
  | bool b => return .bool b
  | int n => return .int n
  | float x => return .float x
  | string s => return .string s
  | array items => HeapM.newArray (items.map (pick made)).toArray
  | map fields => HeapM.newMap (.ofList (fields.map fun p => (p.1, pick made p.2)))
  | error payload => return .error (pick made payload)
  | write container key item => do
    HeapM.assign (pick made container) (pick made key) (pick made item)
    return .undefined

def Part.makeAll : (made : List Value) → List Part → HeapM (List Value)
  | made, [] => return made
  | made, p :: parts => do makeAll (made ++ [← p.make made]) parts

/-! ## Calls -/

/-- A context, or the one over a deep copy of its globals. -/
inductive Side where
  | source
  | copy
  deriving DecidableEq, Repr

def Side.pick (source copy : Context) : Side → Context
  | .source => source
  | .copy => copy

/-- Where a host has a callee from. -/
inductive Callee where
  /-- A function that the host knows by itself. -/
  | known (f : FunctionObject)
  /-- One of the values that the host has read from the globals of the side so far. -/
  | held (i : Nat)

def Callee.value (held : List Value) : Callee → Value
  | known f => .function f
  | .held i => Part.pick held i

structure Call where
  side : Side
  /-- Whether the host asks for the globals too. -/
  withGlobals : Bool
  /-- The steps that the call is given. -/
  steps : Nat
  /-- What the host reads from the globals of the side before it makes the call. -/
  reads : List Spot
  callee : Callee
  parts : List Part
  /-- The positions of the arguments among the parts. -/
  args : List Nat

/-- The answer of a call: the result, and the globals if the host has asked for them. -/
structure Answer where
  result : Value
  globals : Option (Array Value)

namespace Call

def makeArgs (call : Call) : HeapM (List Value) :=
  return call.args.map (Part.pick (← Part.makeAll [] call.parts))

/-- Makes the call through a context, given the values that have been read. -/
def perform (host : Host) (call : Call) (c : Context) (held : List Value) : StoreM Answer := do
  let args ← StoreM.onHeap call.makeArgs
  let callee := call.callee.value held
  if call.withGlobals then
    let (result, globals) ← c.callWithGlobals host call.steps callee args
    return ⟨result, some globals⟩
  else return ⟨← c.call host call.steps callee args, none⟩

end Call

/-! ## Plans -/

/-- What a host has: the store, and what it has read from the globals of each side so far. -/
structure Hand where
  store : Store
  held : Side → List Value := fun _ => []

def Hand.read (s : Hand) (side : Side) (g : Globals) (spots : List Spot) : Hand where
  store := s.store
  held side' := if side' = side then s.held side ++ spots.map (s.store.read g) else s.held side'

theorem Hand.held_read_self (s : Hand) (side : Side) (g : Globals) (spots : List Spot) :
    (s.read side g spots).held side = s.held side ++ spots.map (s.store.read g) := if_pos rfl

/-- What has been read of one side is not mixed up with what has been read of the other. -/
theorem Hand.held_read_of_ne (s : Hand) {side side' : Side} (h : side' ≠ side) (g : Globals)
    (spots : List Spot) : (s.read side g spots).held side' = s.held side' := if_neg h

/-- What a host sees of a call: the answer or why there is none, and what it then has. -/
structure Reply where
  side : Side
  answer : Except Refusal Answer
  hand : Hand

/-- Makes a call through the context of its side. -/
def Call.reply (host : Host) (contexts : Side → Context) (call : Call) (s : Hand) : Reply :=
  let c := contexts call.side
  let s := s.read call.side c.globals call.reads
  match call.perform host c (s.held call.side) s.store with
  | .ok a t => ⟨call.side, .ok a, { s with store := t }⟩
  | .error e t => ⟨call.side, .error e, { s with store := t }⟩

/-- The host first reads, and then makes its call in the store as it has found it. -/
theorem Call.reply_eq (host : Host) (contexts : Side → Context) (call : Call) (s : Hand) :
    call.reply host contexts s =
      let t := s.read call.side (contexts call.side).globals call.reads
      match call.perform host (contexts call.side) (t.held call.side) s.store with
      | .ok a store => ⟨call.side, .ok a, { t with store := store }⟩
      | .error e store => ⟨call.side, .error e, { t with store := store }⟩ := rfl

theorem Call.side_reply (host : Host) (contexts : Side → Context) (call : Call) (s : Hand) :
    (call.reply host contexts s).side = call.side := by
  rw [reply_eq]
  dsimp only
  split <;> rfl

/-- Calls that are made one after the other. A call that is refused does not keep the host from
making the next one. -/
abbrev Plan := List Call

namespace Plan

variable (host : Host) (contexts : Side → Context)

/-- What a host sees of the calls of a plan. -/
def replies : Plan → Hand → List Reply
  | [], _ => []
  | call :: plan, s =>
    let r := call.reply host contexts s
    r :: replies plan r.hand

/-- What a host has when all calls of a plan have been made. -/
def after : Plan → Hand → Hand
  | [], s => s
  | call :: plan, s => after plan (call.reply host contexts s).hand

def only (plan : Plan) (side : Side) : Plan := plan.filter (·.side = side)

end Plan
end ScriptVM
