import ScriptVM.Bytecode.Builder
import ScriptVM.Proofs.Decoding

/-!
# Assembling functions

A function is assembled by a row of directives to its builder. Some declare what a call needs to
know, some append an instruction, and some point a jump that has been emitted before to its target.
Pointing a jump somewhere changes the middle of the code, and does so again each time it is done.

`instructions` says what a row of directives amounts to without mentioning bytes: the instructions
in the order they are emitted in, each jump with the target that it is pointed to last. The code of
the finished function is read back as exactly these.
-/

namespace ScriptVM

/-! ## Directives -/

inductive Directive where
  | params (n : Nat)
  | locals (n : Nat)
  | collectRest
  | capture (c : Capture)
  | emit (op : Opcode) (operands : List Nat)
  | emitJump (op : Opcode)
  | patchJump (offset target : Nat)
  deriving DecidableEq, Repr

/-- A builder at work, with the offsets that it has told of the jumps emitted so far. -/
structure Assembling where
  builder : FunctionBuilder := {}
  jumps : List Nat := []
  deriving DecidableEq, Repr

namespace Directive

def perform : Directive → Assembling → Assembling
  | params n, s => { s with builder := s.builder.params n }
  | locals n, s => { s with builder := s.builder.locals n }
  | collectRest, s => { s with builder := s.builder.collectRest }
  | capture c, s => { s with builder := s.builder.capture c }
  | emit op operands, s => { s with builder := s.builder.emit op operands }
  | emitJump op, s =>
    let (offset, builder) := s.builder.emitJump op
    ⟨builder, offset :: s.jumps⟩
  | patchJump offset target, s => { s with builder := s.builder.patchJump offset target }

/-- Whether the directive may be given: the operands of an instruction fit, only jumps are emitted
without a target, and only these are pointed somewhere. -/
def Allowed (s : Assembling) : Directive → Prop
  | emit op operands => (⟨op, operands⟩ : Instruction).Fits
  | emitJump op => op.isJump
  | patchJump offset target => offset ∈ s.jumps ∧ target < 2 ^ 32
  | _ => True

instance (s : Assembling) : (d : Directive) → Decidable (d.Allowed s)
  | emit op operands => inferInstanceAs (Decidable (⟨op, operands⟩ : Instruction).Fits)
  | emitJump op => inferInstanceAs (Decidable (op.isJump = true))
  | patchJump offset target => inferInstanceAs (Decidable (offset ∈ s.jumps ∧ target < 2 ^ 32))
  | params _ | locals _ | collectRest | capture _ => inferInstanceAs (Decidable True)

end Directive

namespace Assembling

def after (s : Assembling) (ds : List Directive) : Assembling :=
  ds.foldl (fun s d => d.perform s) s

/-- Each directive may be given when its turn comes. -/
def Possible (s : Assembling) : List Directive → Prop
  | [] => True
  | d :: ds => d.Allowed s ∧ (d.perform s).Possible ds

instance : (s : Assembling) → (ds : List Directive) → Decidable (s.Possible ds)
  | _, [] => inferInstanceAs (Decidable True)
  | s, d :: ds =>
    let := instDecidablePossible (d.perform s) ds
    inferInstanceAs (Decidable (d.Allowed s ∧ (d.perform s).Possible ds))

@[simp] theorem after_nil (s : Assembling) : s.after [] = s := rfl

@[simp] theorem after_append (s : Assembling) (ds ds' : List Directive) :
    s.after (ds ++ ds') = (s.after ds).after ds' :=
  List.foldl_append

@[simp] theorem after_singleton (s : Assembling) (d : Directive) : s.after [d] = d.perform s := rfl

/-- What may be told later depends on what has been told before, and on that alone. -/
theorem possible_append {s : Assembling} {ds ds' : List Directive} :
    s.Possible (ds ++ ds') ↔ s.Possible ds ∧ (s.after ds).Possible ds' := by
  induction ds generalizing s with
  | nil => simp [Possible]
  | cons d ds ih => simp [Possible, ih, after, and_assoc]

end Assembling

/-! ## What directives amount to -/

/-- Where the directive points the jump at an offset, if it does. -/
def Directive.target? (offset : Nat) : Directive → Option Nat
  | patchJump jump target => if jump = offset then some target else none
  | _ => none

/-- The target that the jump at an offset is pointed to last, or zero if it never is. -/
def lastTarget (offset : Nat) (ds : List Directive) : Nat :=
  (ds.filterMap (·.target? offset)).getLast?.getD 0

/-- The instruction that the directive puts at an offset, given the directives that come later. -/
def Directive.instruction? (offset : Nat) (later : List Directive) :
    Directive → Option Instruction
  | emit op operands => some ⟨op, operands⟩
  | emitJump op => some ⟨op, [lastTarget offset later]⟩
  | _ => none

def Directive.width : Directive → Nat
  | emit op _ | emitJump op => op.width
  | _ => 0

/-- The instructions that directives put one after another, the first one at an offset. -/
def instructionsFrom (offset : Nat) : List Directive → List Instruction
  | [] => []
  | d :: ds => (d.instruction? offset ds).toList ++ instructionsFrom (offset + d.width) ds

def instructions (ds : List Directive) : List Instruction := instructionsFrom 0 ds

/-! ## One directive more

The instructions are said over all directives at once, since a later one may point an earlier jump
somewhere. These lemmas say what the last directive changes.
-/

section

variable {d d' : Directive} {ds : List Directive} {offset : Nat}

theorem lastTarget_append (h : d.target? offset = none) :
    lastTarget offset (ds ++ [d]) = lastTarget offset ds := by
  simp [lastTarget, h]

/-- The last directive that points the jump somewhere counts. -/
theorem lastTarget_append_patchJump (target : Nat) :
    lastTarget offset (ds ++ [.patchJump offset target]) = target := by
  simp [lastTarget, Directive.target?]

/-- An instruction stays as it is unless it is a jump that is pointed somewhere. -/
theorem Directive.instruction?_append (h : 0 < d'.width → d.target? offset = none) :
    d'.instruction? offset (ds ++ [d]) = d'.instruction? offset ds := by
  cases d' with
  | emitJump op => simp [instruction?, lastTarget_append (h (Nat.add_pos_left Nat.one_pos _))]
  | _ => rfl

@[simp] theorem Directive.span_instruction? (later : List Directive) :
    span (d.instruction? offset later).toList = d.width := by
  cases d <;> rfl

/-- A directive that points no jump from the offset on somewhere adds its instruction at the
end. -/
theorem instructionsFrom_append (h : ∀ k, offset ≤ k → d.target? k = none) :
    instructionsFrom offset (ds ++ [d]) = instructionsFrom offset ds ++
      (d.instruction? (offset + span (instructionsFrom offset ds)) []).toList := by
  induction ds generalizing offset with
  | nil => simp [instructionsFrom]
  | cons d' ds ih =>
    have hlater : ∀ k, offset + d'.width ≤ k → d.target? k = none := fun k hk =>
      h k (Nat.le_of_add_right_le hk)
    have hd' : d'.instruction? offset (ds ++ [d]) = d'.instruction? offset ds :=
      Directive.instruction?_append fun _ => h offset (Nat.le_refl _)
    simp [instructionsFrom, hd', ih hlater, Nat.add_assoc]

/-- Pointing a jump to a target changes its operand, and nothing else. -/
theorem instructionsFrom_append_patchJump (before after : List Directive) (op : Opcode)
    (offset target : Nat) :
    ∃ front n back, span front = span (instructionsFrom offset before) ∧
      instructionsFrom offset (before ++ .emitJump op :: after) = front ++ ⟨op, [n]⟩ :: back ∧
      instructionsFrom offset
          (before ++ .emitJump op :: after ++ [.patchJump (offset + span front) target]) =
        front ++ ⟨op, [target]⟩ :: back := by
  induction before generalizing offset with
  | nil =>
    refine ⟨[], lastTarget offset after, instructionsFrom (offset + op.width) after, rfl, rfl, ?_⟩
    have hlater : ∀ k, offset + op.width ≤ k →
        (Directive.patchJump offset target).target? k = none := by
      intro k hk
      have : offset ≠ k := by
        simp only [Opcode.width] at hk
        omega
      simp [Directive.target?, this]
    simp [instructionsFrom, Directive.instruction?, Directive.width, lastTarget_append_patchJump,
      instructionsFrom_append hlater]
  | cons d ds ih =>
    obtain ⟨front, n, back, hspan, hunpatched, hpatched⟩ := ih (offset + d.width)
    refine ⟨(d.instruction? offset (ds ++ .emitJump op :: after)).toList ++ front, n, back, ?_, ?_,
      ?_⟩
    · simp [instructionsFrom, hspan]
    · simp [instructionsFrom, hunpatched]
    · -- The jump comes later than the first instruction, which stays as it is.
      have hfirst : (d.instruction? offset (ds ++ .emitJump op :: after ++
          [.patchJump (offset + d.width + span front) target])) =
          d.instruction? offset (ds ++ .emitJump op :: after) := by
        apply Directive.instruction?_append
        intro hpos
        have : offset + d.width + span front ≠ offset := by omega
        simp [Directive.target?, this]
      rw [span_append, Directive.span_instruction?, ← Nat.add_assoc, List.cons_append,
        List.cons_append, instructionsFrom, hfirst, hpatched, List.append_assoc]

end

/-! ## Writing over a target

A target has four bytes whatever it is, so that it can be written over in the middle of the code and
all that follows stays where it is.
-/

/-- New bytes for as many old ones leave what is before and behind. -/
theorem FunctionBuilder.toList_overwrite {code : Array UInt8} {front old new back : List UInt8}
    (hcode : code.toList = front ++ old ++ back) (hlen : old.length = new.length) :
    (overwrite code front.length new).toList = front ++ new ++ back := by
  induction new generalizing code front old with
  | nil =>
    rw [List.length_nil, List.length_eq_zero_iff] at hlen
    simpa [overwrite, hlen] using hcode
  | cons b new ih =>
    obtain _ | ⟨b', old⟩ := old
    · simp at hlen
    have hset : (code.setIfInBounds front.length b).toList = (front ++ [b]) ++ old ++ back := by
      simp [hcode]
    simpa [overwrite] using ih hset (Nat.succ.inj hlen)

namespace Opcode

variable {op : Opcode}

theorem operandWidths_of_isJump (h : op.isJump) : op.operandWidths = [4] := by
  cases op <;> first | rfl | simp [isJump] at h

theorem encode_of_isJump (h : op.isJump) (n : Nat) :
    op.encode [n] = op.byte :: bigEndian 4 n := by
  simp [encode, operandWidths_of_isJump h, encodeOperands]

theorem fits_of_isJump (h : op.isJump) {n : Nat} (hn : n < 2 ^ 32) :
    (⟨op, [n]⟩ : Instruction).Fits := by
  simpa [Instruction.Fits, operandWidths_of_isJump h] using hn

end Opcode

/-- The jump that is encoded in the middle of the code is then encoded with the other target. -/
theorem FunctionBuilder.toList_patchJump {b : FunctionBuilder} {op : Opcode} {n : Nat}
    {front back : List UInt8} (hop : op.isJump)
    (hcode : b.code.toList = front ++ op.encode [n] ++ back) (target : Nat) :
    (b.patchJump front.length target).code.toList = front ++ op.encode [target] ++ back := by
  rw [Opcode.encode_of_isJump hop] at hcode ⊢
  have hsize : front.length + 5 ≤ b.code.size := by
    have := congrArg List.length hcode
    simp [length_bigEndian] at this
    omega
  have hlen : (bigEndian 4 n).length = (bigEndian 4 target).length := by
    simp [length_bigEndian]
  have hfront : b.code.toList = (front ++ [op.byte]) ++ bigEndian 4 n ++ back := by
    simpa using hcode
  simpa [patchJump, hsize] using toList_overwrite hfront hlen

/-! ## What the builder holds -/

namespace Assembling

/-- The code is that of the directives' instructions, whose operands fit, and every offset that has
been told is the one of a jump. -/
structure Represents (s : Assembling) (ds : List Directive) : Prop where
  code : s.builder.code.toList = assembled (instructions ds)
  fits : ∀ i ∈ instructions ds, i.Fits
  jumps : ∀ offset ∈ s.jumps, ∃ before op after, ds = before ++ .emitJump op :: after ∧ op.isJump ∧
    offset = span (instructions before)

variable {s : Assembling} {ds : List Directive} {d : Directive}

theorem represents_nil : ({} : Assembling).Represents [] where
  code := rfl
  fits := by simp [instructions, instructionsFrom]
  jumps := by simp

/-- The next instruction starts where the widths of the ones so far add up to. -/
theorem Represents.position (h : s.Represents ds) :
    s.builder.position = span (instructions ds) := by
  rw [FunctionBuilder.position, ← Array.length_toList, h.code, length_assembled h.fits]

/-- A directive that adds its instruction at the end keeps the builder in line. -/
theorem Represents.append (h : s.Represents ds) {s' : Assembling} (new : Option Instruction)
    (hnew : d.instruction? (span (instructions ds)) [] = new) (hd : ∀ k, d.target? k = none)
    (hfits : ∀ i ∈ new, i.Fits)
    (hcode : s'.builder.code.toList = s.builder.code.toList ++ assembled new.toList)
    (hjumps : ∀ offset ∈ s'.jumps, offset ∈ s.jumps ∨
      ∃ op, d = .emitJump op ∧ op.isJump ∧ offset = span (instructions ds)) :
    s'.Represents (ds ++ [d]) := by
  have hins : instructions (ds ++ [d]) = instructions ds ++ new.toList := by
    rw [instructions, instructionsFrom_append fun k _ => hd k, Nat.zero_add, ← instructions, hnew]
  constructor
  · rw [hcode, h.code, hins, assembled_append]
  · intro i hi
    rw [hins, List.mem_append, Option.mem_toList] at hi
    exact hi.elim (h.fits i) (hfits i)
  · intro offset hoffset
    obtain hold | ⟨op, rfl, hop, rfl⟩ := hjumps offset hoffset
    · obtain ⟨before, op, after, rfl, hop, rfl⟩ := h.jumps offset hold
      exact ⟨before, op, after ++ [d], by simp, hop, rfl⟩
    · exact ⟨ds, op, [], rfl, hop, rfl⟩

/-- Pointing a jump somewhere keeps the builder in line. -/
theorem Represents.patchJump (h : s.Represents ds) {offset target : Nat}
    (hoffset : offset ∈ s.jumps) (htarget : target < 2 ^ 32) :
    ((Directive.patchJump offset target).perform s).Represents
      (ds ++ [.patchJump offset target]) := by
  obtain ⟨before, op, after, rfl, hop, rfl⟩ := h.jumps offset hoffset
  obtain ⟨front, n, back, hspan, hunpatched, hpatched⟩ :=
    instructionsFrom_append_patchJump before after op 0 target
  rw [Nat.zero_add, hspan] at hpatched
  have hcode := h.code
  have hfits := h.fits
  rw [instructions, hunpatched] at hcode hfits
  have hfront : (assembled front).length = span (instructions before) := by
    rw [length_assembled fun i hi => hfits i (by simp [hi]), hspan]
    rfl
  constructor
  · rw [instructions, instructions, hpatched, ← instructions, ← hfront]
    have hbytes : s.builder.code.toList =
        assembled front ++ op.encode [n] ++ assembled back := by
      simpa [Instruction.bytes] using hcode
    simpa [Directive.perform, Instruction.bytes] using
      FunctionBuilder.toList_patchJump hop hbytes target
  · intro i hi
    rw [instructions, instructions, hpatched] at hi
    simp only [List.mem_append, List.mem_cons] at hi hfits
    obtain hi | rfl | hi := hi
    · exact hfits i (.inl hi)
    · exact Opcode.fits_of_isJump hop htarget
    · exact hfits i (.inr (.inr hi))
  · intro k hk
    obtain ⟨before', op', after', heq, hop', hk⟩ := h.jumps k hk
    exact ⟨before', op', after' ++ [_], by rw [heq, List.append_assoc, List.cons_append], hop', hk⟩

/-- Whatever the builder may be told to do, it stays in line with the directives. -/
theorem Represents.perform (h : s.Represents ds) (hd : d.Allowed s) :
    (d.perform s).Represents (ds ++ [d]) := by
  cases d with
  | params | locals | collectRest | capture =>
    exact h.append none rfl (fun _ => rfl) (by simp) (by simp; rfl) fun _ => .inl
  | emit op operands =>
    have hfits : (⟨op, operands⟩ : Instruction).Fits := hd
    refine h.append (some _) rfl (fun _ => rfl) (by simpa using hfits) ?_ fun _ => .inl
    simp [Directive.perform, FunctionBuilder.emit, Instruction.bytes]
  | emitJump op =>
    refine h.append (some _) rfl (fun _ => rfl) ?_ ?_ ?_
    · simpa [lastTarget] using Opcode.fits_of_isJump hd (Nat.two_pow_pos 32)
    · simp [Directive.perform, FunctionBuilder.emitJump, FunctionBuilder.emit, Instruction.bytes,
        lastTarget]
    · intro offset hoffset
      obtain rfl | hoffset := List.mem_cons.1 hoffset
      · exact .inr ⟨op, rfl, hd, h.position⟩
      · exact .inl hoffset
  | patchJump offset target => exact h.patchJump hd.1 hd.2

/-- By induction on the directives, the last one taken off. -/
theorem represents_after (h : ({} : Assembling).Possible ds) :
    (({} : Assembling).after ds).Represents ds := by
  induction ds using List.reverseRecOn with
  | nil => exact represents_nil
  | append_singleton ds d ih =>
    obtain ⟨hds, hd, -⟩ := possible_append.1 h
    rw [after_append, after_singleton]
    exact (ih hds).perform hd

/-- The function that directives assemble is read back as their instructions. Each jump has the
target that it is pointed to last, nothing is left over, and the listing has one line for each
instruction, with its offset, its name and its operands. All along, the builder's position is the
sum of the widths of the instructions so far. -/
theorem lossless (h : ({} : Assembling).Possible ds) :
    decode (({} : Assembling).after ds).builder.build.code.toList = .ok (instructions ds) ∧
      (({} : Assembling).after ds).builder.build.disassemble =
        (instructions ds).mapIdx (fun k i => " ".intercalate
          (ListingLine.padded (span ((instructions ds).take k)) :: i.op.name ::
            i.operands.map toString)) ∧
      ∀ before later, ds = before ++ later →
        (({} : Assembling).after before).builder.position = span (instructions before) := by
  have hrep := represents_after h
  refine ⟨?_, ?_, ?_⟩
  · show decode (({} : Assembling).after ds).builder.code.toList = _
    rw [hrep.code, decode_assembled hrep.fits]
  · show (listingFrom 0 (({} : Assembling).after ds).builder.code.toList).map _ = _
    rw [hrep.code, listingFrom_assembled hrep.fits]
    apply List.ext_getElem
    · simp
    · intro k _ _
      simp [ListingLine.text]
  · rintro before later rfl
    exact (represents_after (possible_append.1 h).1).position

end Assembling

/-! ### A loop

The jump that leaves the loop is pointed to a wrong place at first.
-/

def loopDirectives : List Directive :=
  [.locals 1, .emit .getGlobal [258], .emitJump .jumpFalsy, .patchJump 3 4096, .emit .call [2, 1],
    .emitJump .jump, .patchJump 3 16, .patchJump 11 0, .emit .halt []]

/-- The loop is read back with the targets that its jumps were pointed to last. -/
theorem Assembling.lossless_loopDirectives :
    ({} : Assembling).Possible loopDirectives ∧
      decode (({} : Assembling).after loopDirectives).builder.build.code.toList =
        .ok [⟨.getGlobal, [258]⟩, ⟨.jumpFalsy, [16]⟩, ⟨.call, [2, 1]⟩, ⟨.jump, [0]⟩,
          ⟨.halt, []⟩] ∧
      (({} : Assembling).after loopDirectives).builder.build.disassemble =
        ["0000 GetGlobal 258", "0003 JumpFalsy 16", "0008 Call 2 1", "0011 Jump 0",
          "0016 Halt"] := by
  have h : ({} : Assembling).Possible loopDirectives := by decide
  exact ⟨h, (lossless h).1.trans rfl, (lossless h).2.1.trans rfl⟩

end ScriptVM
