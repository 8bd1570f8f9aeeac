import ScriptVM.Proofs.Launch
import ScriptVM.Proofs.Operands

/-!
# Listed offsets

The listing of code starts a line wherever the one before ends, from the first byte on. A run goes
its own way through the code, since it jumps, but it does not come upon other lines: if each jump in
the listing leads to a line or to the end of the code, so does every move that a run makes. A
listing therefore shows all instructions that are ever executed, and none is hidden within another.
-/

namespace ScriptVM

/-! ## Lines

An offset is that of a line if the reader that goes through the code from the first byte on comes to
it. Whether the jumps of a function lead to lines can be checked on its listing.
-/

def offsets (lines : List ListingLine) : List Nat := lines.map ListingLine.offset

/-- The offset is that of a line, or the end of the code. -/
def AtLine (code : Array UInt8) (offset : Nat) : Prop :=
  offset ∈ offsets (listing code) ∨ offset = code.size

instance (code : Array UInt8) (offset : Nat) : Decidable (AtLine code offset) :=
  inferInstanceAs (Decidable (_ ∨ _))

/-- Where the line's instruction leads if it is a jump. -/
def ListingLine.target? : ListingLine → Option Nat
  | instruction _ op operands => if op.isJump then some (Instruction.first ⟨op, operands⟩) else none
  | _ => none

/-- Every jump in the listing leads to a line or to the end of the code. -/
def JumpsToLines (code : Array UInt8) : Prop :=
  ∀ line ∈ listing code, ∀ target ∈ line.target?, AtLine code target

instance (code : Array UInt8) : Decidable (JumpsToLines code) :=
  inferInstanceAs (Decidable (∀ line ∈ listing code, ∀ target ∈ line.target?, AtLine code target))

/-- Reading operands goes past as many bytes as they are wide. -/
theorem takeOperands_eq_drop {widths : List Nat} {code : List UInt8} {operands : List Nat}
    {next : List UInt8} (h : takeOperands widths code = some (operands, next)) :
    next = code.drop (Opcode.totalWidth widths) := by
  induction widths generalizing code operands with
  | nil => simp_all [takeOperands, Opcode.totalWidth]
  | cons width widths ih =>
    rw [takeOperands] at h
    split at h
    · cases h
    · obtain ⟨⟨os, rest⟩, htaken, heq⟩ := Option.map_eq_some_iff.1 h
      cases heq
      rw [ih htaken, List.drop_drop, Opcode.totalWidth]

/-- A readable instruction is a line, and the next one starts past it. -/
theorem listingFrom_of_taken (offset : Nat) {b : UInt8} {rest next : List UInt8} {op : Opcode}
    {operands : List Nat} (hop : Opcode.ofByte? b = some op)
    (htaken : takeOperands op.operandWidths rest = some (operands, next)) :
    listingFrom offset (b :: rest) =
      .instruction offset op operands :: listingFrom (offset + op.width) next := by
  rw [listingFrom]
  grind

/-- Wherever a line starts, what follows in the listing is the listing from there on. -/
theorem listingFrom_suffix {offset p : Nat} {code : List UInt8}
    (hp : p ∈ offsets (listingFrom offset code)) :
    offset ≤ p ∧ p < offset + code.length ∧
      listingFrom p (code.drop (p - offset)) <:+ listingFrom offset code := by
  have hfirst {offset : Nat} {b : UInt8} {rest : List UInt8} (hp : p = offset) :
      offset ≤ p ∧ p < offset + (b :: rest).length ∧
        listingFrom p ((b :: rest).drop (p - offset)) <:+ listingFrom offset (b :: rest) := by
    subst hp
    simp
  induction offset, code using listingFrom.induct with
  | case1 offset => simp [listingFrom, offsets] at hp
  | case2 offset b rest hop =>
    refine hfirst ?_
    simpa [listingFrom, hop, offsets, ListingLine.offset] using hp
  | case3 offset b rest op hop htaken =>
    refine hfirst ?_
    rw [listingFrom] at hp
    grind [offsets, ListingLine.offset]
  | case4 offset b rest op hop operands next htaken ih =>
    have hline := listingFrom_of_taken offset hop htaken
    rw [hline] at hp
    rcases List.mem_cons.1 hp with hp | hp
    · exact hfirst hp
    · obtain ⟨hle, hlt, hsuffix⟩ := ih hp
      have hlength := length_of_takeOperands htaken
      have hwidth : op.width = 1 + Opcode.totalWidth op.operandWidths := rfl
      have hdrop : (b :: rest).drop (p - offset) = next.drop (p - (offset + op.width)) := by
        rw [takeOperands_eq_drop htaken, List.drop_drop,
          show p - offset =
            Opcode.totalWidth op.operandWidths + (p - (offset + op.width)) + 1 by omega,
          List.drop_succ_cons]
      rw [hdrop, hline]
      refine ⟨by omega, ?_, hsuffix.trans (List.suffix_cons _ _)⟩
      rw [List.length_cons]
      omega

/-- The first byte is that of a line. -/
theorem mem_offsets_first {code : List UInt8} (h : code ≠ []) (offset : Nat) :
    offset ∈ offsets (listingFrom offset code) := by
  cases code with
  | nil => exact absurd rfl h
  | cons b rest =>
    rw [listingFrom]
    grind [offsets, ListingLine.offset]

/-- Empty code ends where it begins, and any other has its first line there. -/
theorem atLine_zero (code : Array UInt8) : AtLine code 0 := by
  by_cases h : code.toList = []
  · right
    rw [← Array.length_toList, h]
    rfl
  · exact .inl (mem_offsets_first h 0)

/-- An instruction that is fetched where a line starts is the one in the line, and past it is
another line or the end. -/
theorem Function.atLine_of_fetch {f : Function} {ip next : Nat} {i : Instruction}
    (hip : AtLine f.code ip) (hfetch : f.fetch ip = .instruction i next) :
    .instruction ip i.op i.operands ∈ listing f.code ∧ AtLine f.code next := by
  have hlt := lt_size_of_fetch hfetch
  have hmem : ip ∈ offsets (listing f.code) := hip.resolve_right (Nat.ne_of_lt hlt)
  obtain ⟨-, -, hsuffix⟩ := listingFrom_suffix hmem
  rw [fetch, Array.getElem?_eq_getElem hlt] at hfetch
  cases hop : Opcode.ofByte? f.code[ip] with
  | none => simp [hop] at hfetch
  | some op =>
    cases htaken : takeOperands op.operandWidths (f.code.toList.drop (ip + 1)) with
    | none => simp [hop, htaken] at hfetch
    | some p =>
      obtain ⟨operands, rest⟩ := p
      simp only [hop, htaken] at hfetch
      cases hfetch
      rw [Nat.sub_zero, List.drop_eq_getElem_cons (by simpa using hlt), Array.getElem_toList,
        listingFrom_of_taken ip hop htaken] at hsuffix
      refine ⟨hsuffix.subset List.mem_cons_self, ?_⟩
      by_cases hrest : rest = []
      · right
        have hlength := length_of_takeOperands htaken
        rw [hrest, List.length_drop, Array.length_toList, List.length_nil] at hlength
        rw [Opcode.width, Opcode.operandsWidth]
        omega
      · left
        have hsub := (List.suffix_cons _ _).trans hsuffix
        exact List.map_subset _ hsub.subset (mem_offsets_first hrest _)

/-! ## Runs

An activation begins at the first byte. From there it goes on past an instruction or where a jump
leads to, and both are lines.
-/

/-- The machines that a run comes to. A run that has ended with a result may be gone on with, one
that has ended in a fault may not. -/
inductive Machine.Continues (host : Host) (start : Machine) : Machine → Prop where
  | start : Continues host start start
  | step {m m' : Machine} {r : Option Value} (h : Continues host start m)
    (hs : Exec.step host m = .ok r m') : Continues host start m'

/-- The activations of some code are at its lines. -/
def Machine.OnLines (code : Array UInt8) (m : Machine) : Prop :=
  ∀ f ∈ m.frames, f.function.code = code → AtLine code f.ip

namespace Machine.OnLines

variable {host : Host} {code : Array UInt8} {m m' start : Machine} {r : Option Value}

/-- Past an instruction on a line, and where it leads as a jump, there is a line or the end. -/
theorem nextOffset {f : Function} {ip next : Nat} {i : Instruction}
    (hjumps : JumpsToLines f.code) (hip : AtLine f.code ip)
    (hfetch : f.fetch ip = .instruction i next) (m : Machine) :
    AtLine f.code (m.nextOffset i next) := by
  obtain ⟨hline, hnext⟩ := Function.atLine_of_fetch hip hfetch
  rw [Machine.nextOffset]
  cases htaken : m.takesJump i.op with
  | false => exact hnext
  | true =>
    cases hj : i.op.isJump with
    | false => rw [m.takesJump_of_not_jump hj] at htaken; cases htaken
    | true => exact hjumps _ hline i.first (by rw [ListingLine.target?, if_pos hj]; rfl)

/-- A step goes on at a line, and a call begins at the first one. -/
theorem step (hjumps : JumpsToLines code) (hm : m.OnLines code)
    (hs : Exec.step host m = .ok r m') : m'.OnLines code := by
  cases hf : m.frames with
  | nil =>
    rw [Exec.step_of_no_frame host hf] at hs
    cases hs
  | cons f rest =>
    have hrest : ∀ g ∈ rest, g.function.code = code → AtLine code g.ip := fun g hg =>
      hm g (hf ▸ List.mem_cons_of_mem f hg)
    rw [Exec.step_eq host hf] at hs
    cases hfetch : f.function.fetch f.ip with
    | fault e ip => simp [hfetch] at hs
    | instruction i next =>
      simp only [hfetch] at hs
      have hframes := Exec.frames_of_execute host (Machine.frames_goTo hf next) hs
      split at hframes
      · rwa [Machine.OnLines, hframes]
      obtain ⟨above, f', hframes, hfun, -, hip, habove⟩ := hframes
      intro g hg hcode
      rw [hframes] at hg
      rcases List.mem_append.1 hg with hg | hg
      · rcases habove with rfl | ⟨-, function, base, rfl⟩
        · cases hg
        · rw [List.mem_singleton.1 hg]
          exact atLine_zero code
      rcases List.mem_cons.1 hg with rfl | hg
      · rw [hfun] at hcode
        subst hcode
        rw [hip]
        exact nextOffset hjumps (hm f (hf ▸ List.mem_cons_self) rfl) hfetch _
      · exact hrest g hg hcode

theorem run (hjumps : JumpsToLines code) (hstart : start.OnLines code)
    (h : start.Continues host m) : m.OnLines code := by
  induction h with
  | start => exact hstart
  | step _ hs ih => exact ih.step hjumps hs

end Machine.OnLines

/-! ## Reading in agreement -/

/-- The machine reads an instruction as the reader of operands does and goes on past it, or where it
jumps to; and it comes upon no instruction that the listing does not show. -/
theorem Launch.reads_listed (host : Host) :
    (∀ m f rest op, m.frames = f :: rest →
      f.function.code[f.ip]?.bind Opcode.ofByte? = some op →
      match op.readOperands (f.function.code.toList.drop (f.ip + 1)) with
      | .error _ =>
        ∃ e ip, Exec.step host m = .error e { m with frames := { f with ip := ip } :: rest }
      | .ok (operands, read) =>
        f.ip + 1 + read = f.ip + op.width ∧
        Exec.step host m =
          Exec.handle host op { m with frames := { f with ip := f.ip + 1 } :: rest } ∧
        Exec.step host m = Exec.execute host ⟨op, operands⟩
          { m with frames := { f with ip := f.ip + op.width } :: rest } ∧
        ∀ r m', Exec.step host m = .ok r m' →
          if op = .ret then m'.frames = rest
          else ∃ above f', m'.frames = above ++ f' :: rest ∧ f'.function = f.function ∧
            f'.base = f.base ∧
            f'.ip = (if m.takesJump op then operands.getD 0 0 else f.ip + op.width) ∧
            (above = [] ∨ op = .call ∧ ∃ g base, above = [.start g base])) ∧
    ∀ code, JumpsToLines code →
      ∀ (l : Launch) pool globals limits heap start m f rest,
        l.enter (.idle pool globals limits heap) = .ok () start → start.Continues host m →
        m.frames = f :: rest → f.function.code = code → f.ip < code.size →
        f.ip ∈ offsets (listing code) := by
  constructor
  · intro m f rest op hf hop
    obtain ⟨hhandle, hread⟩ := Exec.step_of_opcode host hf hop
    rw [Machine.goTo_eq hf] at hhandle
    cases hos : op.readOperands (f.function.code.toList.drop (f.ip + 1)) with
    | error e =>
      simp only [hos, Machine.goTo_eq hf] at hread
      exact ⟨_, _, hread⟩
    | ok p =>
      obtain ⟨operands, read⟩ := p
      simp only [hos] at hread
      obtain ⟨hwidth, -, hstep⟩ := hread
      refine ⟨hwidth, hhandle, by rw [hstep, Machine.goTo_eq hf], ?_⟩
      intro r m' hs
      rw [hstep] at hs
      have hframes := Exec.frames_of_execute host (Machine.frames_goTo hf _) hs
      simpa only [Machine.nextOffset, Machine.takesJump_goTo, Instruction.first] using hframes
  · intro code hjumps l pool globals limits heap start m f rest henter hm hf hcode hlt
    have hstart : start.OnLines code := by
      intro g hg _
      obtain ⟨function, base, rfl⟩ := fresh_of_enter henter g hg
      exact atLine_zero code
    have hip := (hstart.run hjumps hm) f (hf ▸ List.mem_cons_self) hcode
    exact hip.resolve_right (Nat.ne_of_lt hlt)

/-! ### A jump over an instruction

The second operand byte of the instruction that is jumped over could be read as another one, but
neither the listing nor a run does so.
-/

def jumpsOver : Function :=
  .ofCode #[Opcode.jump.byte, 0, 0, 0, 8, Opcode.constant.byte, 0, Opcode.halt.byte,
    Opcode.halt.byte] 0 0

def jumpsOverAt (ip : Nat) : Machine :=
  ⟨#[], ⟨#[], 2048⟩, [⟨jumpsOver, ip, 0, []⟩], 1024, #[], none, {}⟩

/-- Three instructions are listed, and the byte within the second one is none of them. -/
theorem listing_jumpsOver : listing jumpsOver.code =
    [.instruction 0 .jump [8], .instruction 5 .constant [46], .instruction 8 .halt []] := by
  decide +kernel

/-- The jump goes over the line of the second instruction to that of the third. -/
theorem Launch.reads_listed_jumpsOver :
    Exec.step sampleHost (jumpsOverAt 0) =
        Exec.execute sampleHost ⟨.jump, [8]⟩ (jumpsOverAt 5) ∧
      8 ∈ offsets (listing jumpsOver.code) := by
  have hjumps : JumpsToLines jumpsOver.code := by
    unfold JumpsToLines AtLine
    rw [listing_jumpsOver]
    decide
  have hfetch : jumpsOver.fetch 0 = .instruction ⟨.jump, [8]⟩ 5 := by decide
  have hstep : Exec.step sampleHost (jumpsOverAt 0) = .ok none (jumpsOverAt 8) := by
    rw [Exec.step_eq sampleHost (f := ⟨jumpsOver, 0, 0, []⟩) rfl]
    dsimp only
    rw [hfetch]
    rfl
  constructor
  · exact ((Launch.reads_listed sampleHost).1 (jumpsOverAt 0) _ _ .jump rfl rfl).2.2.1
  · exact (Launch.reads_listed sampleHost).2 jumpsOver.code hjumps (.main jumpsOver) #[] #[] {} {}
      (jumpsOverAt 0) (jumpsOverAt 8) _ _ rfl (.step .start hstep) rfl rfl (by decide)

end ScriptVM
