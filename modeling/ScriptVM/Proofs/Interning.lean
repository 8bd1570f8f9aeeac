import ScriptVM.Bytecode.Pool
import ScriptVM.Proofs.Decoding
import ScriptVM.Proofs.Fetch
import ScriptVM.Proofs.Launch

/-!
# Loading interned constants

Interning a constant tells the index by which code loads it. Nothing that is done to a pool later on
moves an entry, and only filling it in changes what it holds, so the entry at that index still holds
the constant when the unit is finished.

What is loaded is another question. The operand that names an entry takes two bytes, and an index
that does not fit is written without its upper part, since nobody looks at it before. A load beyond
the first 65536 entries therefore comes to the entry at the remainder of the index.
-/

namespace ScriptVM

/-! ## What is done to a pool

An operation adds an entry at the end or none at all. Filling in is the only one that overwrites an
entry.
-/

inductive PoolOp where
  | constant (v : Value)
  | function (f : FunctionObject)
  | reserve
  | fill (index : Nat) (v : Value)
  deriving DecidableEq

def PoolOp.perform : PoolOp → ConstantPool → ConstantPool
  | constant v, p => (p.constant v).2
  | function f, p => (p.function f).2
  | reserve, p => p.reserve.2
  | fill index v, p => p.fill index v

/-- Values that are the same literal are the same value. -/
theorem Value.eq_of_sameLiteral {v w : Value} (h : v.sameLiteral w = true) : v = w := by
  cases v <;> cases w <;> simp only [sameLiteral, beq_iff_eq, Bool.false_eq_true] at h
  case float.float x y =>
    obtain ⟨bits⟩ := x
    obtain ⟨bits'⟩ := y
    rw [show bits = bits' from h]
  all_goals rw [h]

namespace ConstantPool

variable {p : ConstantPool} {i : Nat} {v : Value}

def after (p : ConstantPool) (ops : List PoolOp) : ConstantPool :=
  ops.foldl (fun p op => op.perform p) p

def finish (p : ConstantPool) (id : Nat) (main : Function) : CompiledUnit := ⟨id, main, p.entries⟩

@[simp] theorem after_nil (p : ConstantPool) : p.after [] = p := rfl

@[simp] theorem after_cons (p : ConstantPool) (op : PoolOp) (ops : List PoolOp) :
    p.after (op :: ops) = (op.perform p).after ops := rfl

/-- New entries come after all others. -/
theorem push_keeps (h : p.entries[i]? = some v) (w : Value) :
    (p.push w).2.entries[i]? = some v := by
  obtain ⟨hi, -⟩ := Array.getElem?_eq_some_iff.1 h
  rw [push, Array.getElem?_push, if_neg (by omega), h]

theorem push_entry (p : ConstantPool) (v : Value) :
    (p.push v).2.entries[(p.push v).1]? = some v := by
  simp [push]

/-- The index of a constant is that of an entry that holds it. -/
theorem constant_entry (p : ConstantPool) (v : Value) :
    (p.constant v).2.entries[(p.constant v).1]? = some v := by
  unfold constant
  cases hfound : p.entries.findIdx? (·.sameLiteral v) with
  | none => exact push_entry p v
  | some index =>
    obtain ⟨hlt, hsame, -⟩ := Array.findIdx?_eq_some_iff_getElem.1 hfound
    rw [Array.getElem?_eq_getElem hlt, Value.eq_of_sameLiteral hsame]

/-- An entry keeps its value unless it is filled in. -/
theorem perform_keeps {op : PoolOp} (hop : ∀ w, op ≠ .fill i w) (h : p.entries[i]? = some v) :
    (op.perform p).entries[i]? = some v := by
  cases op with
  | constant w =>
    rw [PoolOp.perform, constant]
    split
    · exact h
    · exact push_keeps h w
  | function f => exact push_keeps h (.function f)
  | reserve => exact push_keeps h .undefined
  | fill index w =>
    have hne : index ≠ i := fun heq => hop w (heq ▸ rfl)
    rw [PoolOp.perform, fill, Array.getElem?_setIfInBounds_ne hne, h]

/-- By induction on the operations, none of which fills the entry in. -/
theorem after_keeps {ops : List PoolOp} (hops : ∀ w, .fill i w ∉ ops)
    (h : p.entries[i]? = some v) : (p.after ops).entries[i]? = some v := by
  induction ops generalizing p with
  | nil => exact h
  | cons op ops ih =>
    have hop : ∀ w, op ≠ .fill i w := fun w heq => hops w (heq ▸ List.mem_cons_self)
    exact ih (fun w hw => hops w (List.mem_cons_of_mem _ hw)) (perform_keeps hop h)

end ConstantPool

/-! ## Instructions at their offsets -/

/-- The upper part of a number that does not fit a row of bytes is not written. -/
theorem bigEndian_mod (width n : Nat) : bigEndian width (n % 256 ^ width) = bigEndian width n := by
  induction width generalizing n with
  | zero => rfl
  | succ width ih =>
    have hfront : n % 256 ^ (width + 1) / 256 = n / 256 % 256 ^ width := by
      rw [Nat.pow_succ, Nat.mul_comm, Nat.mod_mul_right_div_self]
    have hlast : UInt8.ofNat (n % 256 ^ (width + 1)) = UInt8.ofNat n :=
      UInt8.toNat_inj.1 (by simp)
    rw [bigEndian, bigEndian, hfront, hlast, ih]

/-- In code that is a row of instructions, each is fetched where those before it end. -/
theorem Function.fetch_assembled {f : Function} (front : List Instruction) {back : List Instruction}
    {i : Instruction} (hcode : f.code.toList = assembled (front ++ i :: back))
    (hfront : ∀ j ∈ front, j.Fits) (hi : i.Fits) :
    f.fetch (span front) = .instruction i (span front + i.op.width) := by
  have hdrop : f.code.toList.drop (span front) = i.bytes ++ assembled back := by
    rw [hcode, assembled_append, assembled_cons, List.drop_left' (length_assembled hfront)]
  rw [Instruction.bytes, Opcode.encode, List.cons_append] at hdrop
  have hbyte : f.code[span front]? = some i.op.byte := by
    rw [← Array.getElem?_toList, ← List.head?_drop, hdrop, List.head?_cons]
  have hrest : f.code.toList.drop (span front + 1) =
      encodeOperands i.op.operandWidths i.operands ++ assembled back := by
    rw [← List.tail_drop, hdrop, List.tail_cons]
  unfold fetch
  simp only [hbyte, Opcode.ofByte?_byte, hrest, takeOperands_encodeOperands hi]

/-! ## Loading -/

/-- A top-level function that ends with the constant of an index. -/
def Function.loading (index : Nat) : Function :=
  ((FunctionBuilder.emit {} .constant [index]).emit .halt []).build

namespace Function

variable (index : Nat)

/-- The function loads the constant at the remainder of the index. -/
theorem code_loading : (loading index).code.toList =
    assembled [⟨.constant, [index % 2 ^ 16]⟩, ⟨.halt, []⟩] := by
  have hbytes := bigEndian_mod 2 index
  simp [loading, FunctionBuilder.emit, FunctionBuilder.build, ofCode, Instruction.bytes,
    Opcode.encode, Opcode.operandWidths, encodeOperands, ← hbytes]

/-- The operand that is fetched is what two bytes can hold of the index. -/
theorem fetch_loading_constant :
    (loading index).fetch 0 = .instruction ⟨.constant, [index % 2 ^ 16]⟩ 3 :=
  fetch_assembled [] (code_loading index) (by simp)
    (.cons (Nat.mod_lt _ (by decide)) .nil)

theorem fetch_loading_halt : (loading index).fetch 3 = .instruction ⟨.halt, []⟩ 4 :=
  fetch_assembled [⟨.constant, [index % 2 ^ 16]⟩] (code_loading index)
    (List.forall_mem_singleton.2 (.cons (Nat.mod_lt _ (by decide)) .nil)) .nil

end Function

variable {host : Host} {steps : Nat} {id index : Nat} {globals : Array Value} {h : Heap}

/-- What comes of loading is the constant at the remainder of the index. -/
theorem ConstantPool.run_loading {p : ConstantPool} {v : Value} (hsteps : 2 ≤ steps)
    (hv : p.entries[index % 2 ^ 16]? = some v) :
    (p.finish id (.loading index)).run host steps globals {} h = .ok (v, globals) h := by
  let entered : Machine :=
    ⟨p.entries, ⟨#[], 2048⟩, [.start (.loading index) 0], 1024, globals, none, h⟩
  let loaded : Machine :=
    ⟨p.entries, ⟨#[v], 2048⟩, [⟨.loading index, 3, 0, []⟩], 1024, globals, none, h⟩
  have hstart : Machine.ofUnit (p.finish id (.loading index)) globals {} h = .ok entered := rfl
  have hload : Exec.step host entered = .ok none loaded := by
    rw [Exec.step_eq host (f := .start (.loading index) 0) rfl]
    dsimp only [Frame.start]
    rw [Function.fetch_loading_constant]
    dsimp only [Exec.execute, Exec.goOn, Instruction.first]
    simp only [Exec.bind_eq, Exec.constant_eq, Exec.push_eq]
    have hentry : (entered.goTo 3).constants[[index % 2 ^ 16].getD 0 0]? = some v := hv
    rw [hentry]
    rfl
  have hend : ∃ m, Exec.step host loaded = .ok (some v) m ∧ m.globals = globals ∧ m.heap = h := by
    rw [Exec.step_eq host (f := ⟨.loading index, 3, 0, []⟩) rfl]
    dsimp only
    rw [Function.fetch_loading_halt]
    exact ⟨_, rfl, rfl, rfl⟩
  obtain ⟨ended, hend, hglobals, hheap⟩ := hend
  obtain ⟨n, rfl⟩ : ∃ n, steps = n + 2 := ⟨steps - 2, by omega⟩
  rw [CompiledUnit.run_eq, hstart]
  simp only [RunM.finish, Machine.run, hload, hend, hglobals, hheap]

/-! ## Interned constants -/

namespace ConstantPool

/-- The index of a constant that is interned between other operations, and the pool after all of
them. -/
def interned (earlier : List PoolOp) (v : Value) (later : List PoolOp) : Nat × ConstantPool :=
  let (index, p) := (({} : ConstantPool).after earlier).constant v
  (index, p.after later)

variable {earlier later : List PoolOp} {v : Value} {p : ConstantPool}

/-- The entry holds the constant to the end unless it is filled in. -/
theorem interned_entry (hp : interned earlier v later = (index, p))
    (hlater : ∀ w, .fill index w ∉ later) : p.entries[index]? = some v := by
  cases hp
  exact after_keeps hlater (constant_entry _ v)

/-- A constant whose index fits the operand is the one that is loaded. Where the index does not fit,
the entry at its remainder is loaded, whatever that holds. -/
theorem loads_interned (hp : interned earlier v later = (index, p))
    (hlater : ∀ w, .fill index w ∉ later) (hsteps : 2 ≤ steps) :
    (index < 2 ^ 16 →
      (p.finish id (.loading index)).run host steps globals {} h = .ok (v, globals) h) ∧
    ∃ w, p.entries[index % 2 ^ 16]? = some w ∧
      (p.finish id (.loading index)).run host steps globals {} h = .ok (w, globals) h := by
  have hentry := interned_entry hp hlater
  constructor
  · intro hfits
    exact run_loading hsteps (by rw [Nat.mod_eq_of_lt hfits, hentry])
  · obtain ⟨hlt, -⟩ := Array.getElem?_eq_some_iff.1 hentry
    have hw := Array.getElem?_eq_getElem ((Nat.mod_le index (2 ^ 16)).trans_lt hlt)
    exact ⟨_, hw, run_loading hsteps hw⟩

/-! ### An entry that is filled in before

The number is found in the entry that was reserved first, and is loaded from there after the pool
has grown.
-/

/-- The entry that is found has the index 1 and holds the number to the end. -/
theorem loads_filled :
    (interned [.constant (.string "a"), .reserve, .fill 1 (.int 7)] (.int 7)
        [.reserve, .constant (.int 8), .fill 2 (.int 9)]).1 = 1 ∧
      ((interned [.constant (.string "a"), .reserve, .fill 1 (.int 7)] (.int 7)
          [.reserve, .constant (.int 8), .fill 2 (.int 9)]).2.finish 0 (.loading 1)).run
          sampleHost 2 #[] {} {} = .ok (.int 7, #[]) {} := by
  have hindex : (interned [.constant (.string "a"), .reserve, .fill 1 (.int 7)] (.int 7)
      [.reserve, .constant (.int 8), .fill 2 (.int 9)]).1 = 1 := by decide +kernel
  refine ⟨hindex, (loads_interned (Prod.ext hindex rfl) ?_ (Nat.le_refl 2)).1 (by decide)⟩
  intro w hw
  simp at hw

/-! ### An index that does not fit

After 65536 reserved entries the next index is written as zero, and the first reserved entry is
loaded.
-/

/-- Reserved entries are all alike, and there is one for each time. -/
theorem after_reserving (n : Nat) :
    ({} : ConstantPool).after (List.replicate n .reserve) = ⟨Array.replicate n .undefined⟩ := by
  induction n with
  | zero => rfl
  | succ n ih =>
    rw [after] at ih
    rw [List.replicate_succ', after, List.foldl_append, ih, Array.replicate_succ]
    rfl

/-- A constant that is interned after so many reserved entries comes after all of them. -/
theorem interned_afterReserving (n : Nat) (k : Int64) :
    interned (List.replicate n .reserve) (.int k) [] =
      (n, ⟨(Array.replicate n .undefined).push (.int k)⟩) := by
  have hnone : (Array.replicate n Value.undefined).findIdx? (·.sameLiteral (.int k)) = none := by
    simp [Value.sameLiteral]
  simp [interned, after_reserving, constant, hnone, push]

/-- The constant is in the pool at 65536, and the run ends with what is at 0. -/
theorem loads_wrapped :
    (interned (List.replicate 65536 .reserve) (.int 7) []).1 = 65536 ∧
      (interned (List.replicate 65536 .reserve) (.int 7) []).2.entries[65536]? = some (.int 7) ∧
      ((interned (List.replicate 65536 .reserve) (.int 7) []).2.finish 0 (.loading 65536)).run
          sampleHost 2 #[] {} {} = .ok (.undefined, #[]) {} := by
  rw [interned_afterReserving]
  refine ⟨rfl, by rw [Array.getElem?_push, if_pos (by simp)], run_loading (Nat.le_refl 2) ?_⟩
  rw [Array.getElem?_push, if_neg (by simp)]
  simp

end ConstantPool
end ScriptVM
