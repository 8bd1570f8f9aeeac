/-!
# Binary floating-point numbers of 64 bits

A `Binary64` is a word of 64 bits: a sign, a biased exponent of 11 bits and a fraction of 52. It is
kept as the word and not as a machine number, because a word can be compared bit for bit, NaN
payloads included, and because every operation below is then integer arithmetic.

* `magnitude` reads a finite word as a whole number of the smallest positive step, `2 ^ (-1074)`;
* `ofRatio` goes the other way: it rounds an exact ratio to the nearest word, a tie going to the
  even one. It is the only place where anything is rounded;
* `add`, `sub`, `mul` and `div` compute the exact result of two finite words and hand it to
  `ofRatio`;
* `key` places every word that is a number on the line of integers, so that order and equality of
  floats are order and equality of integers.
-/

namespace ScriptVM

/-- A binary floating-point number, given by its bits. -/
structure Binary64 where
  bits : UInt64
  deriving DecidableEq, Repr, Inhabited

namespace Binary64

/-! ## The fields of a word -/

/-- The word with the sign bit left out. -/
def absBits (x : Binary64) : Nat := x.bits.toNat % (1 <<< 63)

/-- The sign bit. It may be set on zeros and NaNs too. -/
def isNegative (x : Binary64) : Bool := decide ((1 <<< 63) ≤ x.bits.toNat)

def exponent (x : Binary64) : Nat := x.absBits >>> 52

def fraction (x : Binary64) : Nat := x.absBits % (1 <<< 52)

/-- The unsigned word of an infinity. Every larger one is a NaN. -/
def infinityBits : Nat := 2047 <<< 52

/-- Neither a number nor an infinity. -/
def isNaN (x : Binary64) : Bool := decide (infinityBits < x.absBits)

def isInfinite (x : Binary64) : Bool := decide (x.absBits = infinityBits)

def isZero (x : Binary64) : Bool := decide (x.absBits = 0)

/-- The word with a given sign and unsigned part. -/
def ofParts (negative : Bool) (abs : Nat) : Binary64 :=
  ⟨UInt64.ofNat (if negative then (1 <<< 63) + abs else abs)⟩

def infinity (negative : Bool) : Binary64 := ofParts negative infinityBits

/-- The NaN that an operation without an answer makes. -/
def invalid : Binary64 := ⟨0xfff8000000000000⟩

/-- A NaN operand as a result: its payload with the quiet bit set. -/
def quiet (x : Binary64) : Binary64 := ⟨x.bits ||| 0x0008000000000000⟩

/-! ## Exact values -/

/-- A number's significand: the fraction, with the leading bit that a normal word leaves out. -/
def significand (x : Binary64) : Nat :=
  if x.exponent = 0 then x.fraction else (1 <<< 52) + x.fraction

/-- How far the significand is shifted left, in units of the smallest positive step. -/
def shift (x : Binary64) : Nat := x.exponent - 1

/-- The absolute value of a finite word, as a multiple of `2 ^ (-1074)`. -/
def magnitude (x : Binary64) : Nat := x.significand <<< x.shift

/-- The value of a finite word, as a multiple of `2 ^ (-1074)`. -/
def steps (x : Binary64) : Int := if x.isNegative then -(x.magnitude : Int) else x.magnitude

/-- The whole number nearest to `num / den`; a tie goes to the even one. -/
def roundHalfEven (num den : Nat) : Nat :=
  let q := num / den
  let r := num % den
  if 2 * r < den then q
  else if den < 2 * r then q + 1
  else q + q % 2

/-- The word nearest to `num / den` steps of `2 ^ (-1074)`, a tie going to the even word, and to
infinity beyond the largest finite word. A significand of 53 bits that rounds up to `2 ^ 53`
carries into the exponent field by itself. -/
def ofSteps (negative : Bool) (num den : Nat) : Binary64 :=
  -- Without a shift the word is the number of steps itself: subnormal words need no case.
  let shift := (num / den).log2 - 52
  ofParts negative (min infinityBits ((shift <<< 52) + roundHalfEven num (den <<< shift)))

/-- The word nearest to `num / den`. -/
def ofRatio (negative : Bool) (num den : Nat) : Binary64 :=
  ofSteps negative (num <<< 1074) den

/-! ## Arithmetic -/

/-- A NaN operand is the result, the left one before the right; otherwise the operation is done. -/
def unlessNaN (x y : Binary64) (result : Binary64) : Binary64 :=
  if x.isNaN then x.quiet else if y.isNaN then y.quiet else result

/-- Flips the sign, also of zeros, infinities and NaNs. -/
def neg (x : Binary64) : Binary64 := ⟨x.bits ^^^ 0x8000000000000000⟩

/-- The sum. Infinities of different signs have none; two zeros of the same sign keep it, and any
other exact zero is positive. -/
def add (x y : Binary64) : Binary64 :=
  unlessNaN x y <|
    if x.isInfinite then
      if y.isInfinite && x.isNegative != y.isNegative then invalid else x
    else if y.isInfinite then y
    else
      let sum := x.steps + y.steps
      if sum = 0 then ofParts (x.isNegative && y.isNegative) 0
      else ofSteps (decide (sum < 0)) sum.natAbs 1

/-- The difference: the sum with the right operand's sign flipped, where a NaN stays as it is. -/
def sub (x y : Binary64) : Binary64 :=
  if y.isNaN then unlessNaN x y y else x.add y.neg

/-- The product. An infinity times a zero has none. -/
def mul (x y : Binary64) : Binary64 :=
  let negative := x.isNegative != y.isNegative
  unlessNaN x y <|
    if x.isInfinite || y.isInfinite then
      if x.isZero || y.isZero then invalid else infinity negative
    else ofRatio negative (x.magnitude * y.magnitude) (1 <<< 2148)

/-- The quotient. Two zeros or two infinities have none; anything else over zero is infinite. -/
def div (x y : Binary64) : Binary64 :=
  let negative := x.isNegative != y.isNegative
  unlessNaN x y <|
    if x.isInfinite then
      if y.isInfinite then invalid else infinity negative
    else if y.isInfinite then ofParts negative 0
    else if y.isZero then
      if x.isZero then invalid else infinity negative
    else ofRatio negative x.magnitude y.magnitude

/-! ## Order -/

/-- The place of a number on the line of integers: words of one sign are ordered as their unsigned
parts are, and the two zeros share a place. -/
def key (x : Binary64) : Int := if x.isNegative then -(x.absBits : Int) else x.absBits

/-- How two floats are ordered; a NaN is not ordered with anything. -/
def compare? (x y : Binary64) : Option Ordering :=
  if x.isNaN || y.isNaN then none else some (compare x.key y.key)

/-- Equality of numbers: the two zeros are equal, and a NaN differs from itself. -/
def equal (x y : Binary64) : Bool := !x.isNaN && !y.isNaN && decide (x.key = y.key)

theorem equal_comm (x y : Binary64) : x.equal y = y.equal x := by
  simp only [equal, eq_comm (a := x.key), Bool.and_comm (!x.isNaN)]

theorem equal_self (x : Binary64) : x.equal x = !x.isNaN := by
  simp [equal]

theorem equal_trans {x y z : Binary64} (hxy : x.equal y = true) (hyz : y.equal z = true) :
    x.equal z = true := by
  simp only [equal, Bool.and_eq_true, decide_eq_true_eq] at *
  exact ⟨⟨hxy.1.1, hyz.1.2⟩, hxy.2.trans hyz.2⟩

/-! ## Integers -/

def ofInt (n : Int) : Binary64 := ofRatio (decide (n < 0)) n.natAbs 1

/-- The integer toward zero, held within the signed 64-bit range; zero for a NaN. -/
def toInt64 (x : Binary64) : Int64 :=
  if x.isNaN then 0
  else
    -- An infinity has a magnitude beyond every finite one, so it is held like any other.
    let whole : Int := (x.magnitude >>> 1074 : Nat)
    Int64.ofInt (if x.isNegative then max Int64.minValue.toInt (-whole)
      else min Int64.maxValue.toInt whole)

end Binary64
end ScriptVM
