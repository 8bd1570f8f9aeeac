/-!
# Signed decimals

How 64-bit integers are written and read as text. Writing is the usual one: a minus sign for
negative numbers and the decimal digits of the absolute value, without leading zeros. Reading takes
one optional sign of either kind and then digits, at least one, leading zeros allowed, and refuses
what does not fit into 64 bits.
-/

namespace ScriptVM.SignedDecimal

/-! ## Writing -/

def digits (n : Nat) : List Char := Nat.toDigits 10 n

def write (n : Int64) : List Char :=
  if n.toInt < 0 then '-' :: digits n.toInt.natAbs else digits n.toInt.natAbs

def text (n : Int64) : String := String.ofList (write n)

/-! ## Reading -/

def digitValue (c : Char) : Nat := c.toNat - '0'.toNat

/-- The number that a row of digits continues, if there are only digits. -/
def readFrom (acc : Nat) : List Char → Option Nat
  | [] => some acc
  | c :: rest => if c.isDigit then readFrom (10 * acc + digitValue c) rest else none

/-- The number that a row of digits stands for. An empty row stands for none. -/
def readNat : List Char → Option Nat
  | [] => none
  | cs => readFrom 0 cs

/-- An integer that fits into 64 bits. -/
def fit (n : Int) : Option Int64 :=
  if Int64.minValue.toInt ≤ n ∧ n ≤ Int64.maxValue.toInt then some (Int64.ofInt n) else none

/-- The integer that a sign and digits stand for. -/
def read : List Char → Option Int64
  | '+' :: rest => (readNat rest).bind fun n => fit n
  | '-' :: rest => (readNat rest).bind fun n => fit (-n)
  | cs => (readNat cs).bind fun n => fit n

end ScriptVM.SignedDecimal
