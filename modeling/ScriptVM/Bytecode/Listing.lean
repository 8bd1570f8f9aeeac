import ScriptVM.Bytecode.Encoding

/-!
# Listings

The listing of a function's code has one line for each instruction, from the first byte on. A byte
that is no opcode, or an instruction that the code ends within, is the last line.
-/

namespace ScriptVM

inductive ListingLine where
  | instruction (offset : Nat) (op : Opcode) (operands : List Nat)
  | invalid (offset : Nat) (byte : UInt8)
  | truncated (offset : Nat) (op : Opcode)
  deriving DecidableEq, Repr

namespace ListingLine

/-- Where the line's instruction starts. -/
def offset : ListingLine → Nat
  | instruction offset _ _ | invalid offset _ | truncated offset _ => offset

/-- A number with zeros before it, up to four digits. -/
def padded (n : Nat) : String :=
  let digits := Nat.toDigits 10 n
  String.ofList (List.replicate (4 - digits.length) '0' ++ digits)

def text : ListingLine → String
  | instruction offset op operands =>
    " ".intercalate (padded offset :: op.name :: operands.map toString)
  | invalid offset byte => padded offset ++ " <" ++ (Fault.invalidOpcode byte).message ++ ">"
  | truncated offset op =>
    padded offset ++ " " ++ op.name ++
      " <" ++ (Fault.internal (.truncatedOperand op)).message ++ ">"

end ListingLine

/-- The lines of code that starts at an offset. -/
def listingFrom (offset : Nat) : List UInt8 → List ListingLine
  | [] => []
  | b :: rest =>
    match Opcode.ofByte? b with
    | none => [.invalid offset b]
    | some op =>
      match _taken : takeOperands op.operandWidths rest with
      | none => [.truncated offset op]
      | some (operands, next) =>
        .instruction offset op operands :: listingFrom (offset + op.width) next
termination_by code => code.length
decreasing_by
  have := length_of_takeOperands _taken
  simp only [List.length_cons]
  omega

def listing (code : Array UInt8) : List ListingLine := listingFrom 0 code.toList

end ScriptVM
