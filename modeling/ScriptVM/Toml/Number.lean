import ScriptVM.Number.Binary64
import ScriptVM.Number.SignedDecimal
import ScriptVM.Toml.Text

/-!
# Numbers and times

Integers have 64 bits and a sign; they are decimal, without leading zeros, or hexadecimal, octal or
binary after a mark. Floats have a fraction or an exponent. Digits may have single underscores
between them. Dates and times are checked against the calendar and the clock.

Limits are given as integers. Floats, dates and times are read because a document that holds an
ill-formed one gives no limits, wherever in the document it stands.
-/

namespace ScriptVM.Toml

open Reader

/-! ## Digits -/

/-- Digits of a class with single underscores between them, at least one digit. -/
def digitRun (p : Char → Bool) : Reader (List Char) := do
  let first ← one p
  return first :: (← many ((char '_' *> one p) <|> one p))

/-- Decimal digits without a leading zero, or a zero alone. -/
def plainDigits : Reader (List Char) := do
  if ← isNext '0' then List.singleton <$> one (· == '0') else digitRun Char.isDigit

def sign : Reader Bool := (char '-' *> pure true) <|> (char '+' *> pure false) <|> pure false

/-- The number with digits of a base. -/
def ofDigits (base : Nat) (digits : List Char) : Nat :=
  digits.foldl (fun n c => n * base + hexValue c) 0

/-- Digits as an integer that fits into 64 bits. -/
def fitting (n : Int) : Reader Int64 :=
  match SignedDecimal.fit n with
  | some n => pure n
  | none => failure

/-! ## Integers -/

/-- Digits of a base after a zero and the mark of the base. -/
def marked (mark : Char) (base : Nat) (p : Char → Bool) : Reader Int64 := do
  chars ['0', mark]
  fitting (ofDigits base (← digitRun p))

def decimalInteger : Reader Int64 := do
  let negative ← sign
  let n := ofDigits 10 (← plainDigits)
  fitting (if negative then -n else n)

def integer : Reader Int64 :=
  marked 'x' 16 isHexDigit <|> marked 'o' 8 (fun c => decide ('0' ≤ c) && decide (c ≤ '7')) <|>
    marked 'b' 2 (fun c => c == '0' || c == '1') <|> decimalInteger

/-! ## Floats -/

/-- The float nearest to a decimal number. Far beyond the range of floats the exponent alone tells
the answer. -/
def nearestFloat (negative : Bool) (digits : Nat) (exponent : Int) : Binary64 :=
  let places : Int := (Nat.toDigits 10 digits).length + exponent
  if digits = 0 ∨ places < -400 then Binary64.ofParts negative 0
  else if 400 < places then Binary64.infinity negative
  else if 0 ≤ exponent then Binary64.ofRatio negative (digits * Nat.pow 10 exponent.toNat) 1
  else Binary64.ofRatio negative digits (Nat.pow 10 exponent.natAbs)

def fractionPart : Reader (List Char) := char '.' *> digitRun Char.isDigit

def exponentPart : Reader Int := do
  discard (one fun c => c == 'e' || c == 'E')
  let negative ← sign
  let n := ofDigits 10 (← digitRun Char.isDigit)
  return if negative then -n else n

/-- A float with a fraction, an exponent or both. One that would be positive infinity is refused. -/
def finiteFloat : Reader Binary64 := do
  let negative ← sign
  let whole ← plainDigits
  let fraction ← optional fractionPart
  let exponent ← optional exponentPart
  check (fraction.isSome || exponent.isSome)
  let places := fraction.getD []
  let x := nearestFloat negative (ofDigits 10 (whole ++ places))
    (exponent.getD 0 - places.length)
  check (!x.isInfinite || negative)
  return x

/-- An infinity or a NaN by its name. -/
def namedFloat : Reader Binary64 := do
  let negative ← sign
  let x ← (chars ['i', 'n', 'f'] *> pure (Binary64.infinity false)) <|>
    (chars ['n', 'a', 'n'] *> pure (Binary64.invalid.neg))
  return if negative then x.neg else x

def float : Reader Binary64 := finiteFloat <|> namedFloat

/-! ## Dates and times -/

/-- A number of so many digits within bounds. -/
def field (digits low high : Nat) : Reader Nat := do
  let n := ofDigits 10 (← exactly Char.isDigit digits)
  check (low ≤ n && n ≤ high)
  return n

def daysIn (year month : Nat) : Nat :=
  match month with
  | 2 => if year % 4 = 0 ∧ (year % 100 ≠ 0 ∨ year % 400 = 0) then 29 else 28
  | 4 | 6 | 9 | 11 => 30
  | _ => 31

/-- A day of the calendar. -/
def date : Reader Unit := do
  let year ← field 4 0 9999
  char '-'
  let month ← field 2 1 12
  char '-'
  discard (field 2 1 (daysIn year month))

/-- A time of day, which may be a leap second. -/
def time : Reader Unit := do
  discard (field 2 0 23)
  char ':'
  discard (field 2 0 59)
  char ':'
  discard (field 2 0 60)
  discard (optional do
    char '.'
    let digits ← run Char.isDigit
    check !digits.isEmpty)

/-- How far a time is from universal time. -/
def zone : Reader Unit := do
  if ← isNext 'Z' then char 'Z'
  else if ← isNext 'z' then char 'z'
  else
    discard (one fun c => c == '+' || c == '-')
    discard (field 2 0 23)
    char ':'
    discard (field 2 0 59)

/-- The time after a date. -/
def timeAfterDate : Reader Unit := do
  discard (one fun c => c == 'T' || c == 't' || c == ' ')
  time
  discard (optional zone)

/-- A date, a time or both, as it is written. -/
def dateTime : Reader String := fun input =>
  match ((date *> discard (optional timeAfterDate)) <|> time) input with
  | some (_, rest) => some (String.ofList (input.take (input.length - rest.length)), rest)
  | none => none

end ScriptVM.Toml
