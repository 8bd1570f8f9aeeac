import ScriptVM.Number.Binary64
import ScriptVM.Number.SignedDecimal

/-!
# The shortest decimal of a float

A positive finite float is written with the fewest decimal digits that no other float is nearest
to. The reals that round to a float `x` form an interval: it reaches half way to the two
neighbours, and its ends belong to it when the significand of `x` is even. For 1, 2, … digits in
turn, the two points next to `x` on that decimal grid are tried; the first grid with a point inside
the interval decides, of two such points the nearer one is taken, and of two equally near ones the
greater.

Everything is exact: all quantities are scaled by `10 ^ 400 * 2 ^ 1076`, which makes whole numbers
of the float, of the ends of its interval and of every grid point that is tried.
-/

namespace ScriptVM

/-- A positive decimal number, `digits * 10 ^ exponent`. -/
structure Decimal where
  digits : Nat
  exponent : Int
  deriving DecidableEq, Repr

namespace Decimal

/-- The digits with as many zeros taken off the end as `exponent` then makes up for. -/
def trim (d : Decimal) : List Char × Int :=
  let all := (SignedDecimal.digits d.digits).reverse
  (((all.dropWhile (· == '0')).reverse), d.exponent + (all.takeWhile (· == '0')).length)

/-- Positional notation, whatever the size: no exponent, and a point only before digits. -/
def positional (d : Decimal) : List Char :=
  let (ds, e) := d.trim
  if 0 ≤ e then ds ++ List.replicate e.toNat '0'
  else
    let places := e.natAbs
    if places < ds.length then
      ds.take (ds.length - places) ++ '.' :: ds.drop (ds.length - places)
    else '0' :: '.' :: (List.replicate (places - ds.length) '0' ++ ds)

end Decimal

namespace Binary64

/-! ## The interval of a float -/

/-- The scale of one unit of `magnitude`, which is `2 ^ (-1074)`. -/
def unitScale : Nat := 4 * Nat.pow 10 400

/-- The scale of `10 ^ (-400)`. -/
def tenScale : Nat := 1 <<< 1076

/-- The float itself, scaled. -/
def scaledValue (x : Binary64) : Nat := x.magnitude * unitScale

/-- Half way to the float above, scaled. -/
def scaledUpper (x : Binary64) : Nat := x.scaledValue + (unitScale <<< x.shift) / 2

/-- Half way to the float below, scaled. Below a power of two the floats are twice as dense, except
among the smallest. -/
def scaledLower (x : Binary64) : Nat :=
  if x.fraction = 0 ∧ 1 < x.exponent then x.scaledValue - (unitScale <<< x.shift) / 4
  else x.scaledValue - (unitScale <<< x.shift) / 2

/-- Whether a scaled real rounds to the float. -/
def covers (x : Binary64) (point : Nat) : Bool :=
  if x.significand % 2 = 0 then
    decide (x.scaledLower ≤ point ∧ point ≤ x.scaledUpper)
  else decide (x.scaledLower < point ∧ point < x.scaledUpper)

/-! ## The search -/

/-- The float as a multiple of `10 ^ (-400)`, rounded down: its decimal digits, the first of which
are the ones that matter. -/
def longDigits (x : Binary64) : Nat := x.scaledValue / tenScale

/-- How many digits `longDigits` has. -/
def longLength (x : Binary64) : Nat := (SignedDecimal.digits x.longDigits).length

/-- The grid point of `count` digits that stands for the float, if one does. -/
def gridPoint (x : Binary64) (count : Nat) : Option Decimal :=
  let drop := x.longLength - count
  let below := x.longDigits / Nat.pow 10 drop
  let above := below + 1
  -- Where `above` is a power of ten it has a digit more, but no nonzero digit more.
  let scaled (n : Nat) : Nat := n * Nat.pow 10 drop * tenScale
  let exponent : Int := (drop : Int) - 400
  match x.covers (scaled below), x.covers (scaled above) with
  | true, true =>
    if x.scaledValue - scaled below < scaled above - x.scaledValue then some ⟨below, exponent⟩
    else some ⟨above, exponent⟩
  | true, false => some ⟨below, exponent⟩
  | false, true => some ⟨above, exponent⟩
  | false, false => none

/-- The first grid with a point that stands for the float. Seventeen digits always do. -/
def shortest (x : Binary64) : Decimal :=
  ((List.range 17).findSome? fun i => x.gridPoint (i + 1)).getD ⟨0, 0⟩

/-! ## Text -/

/-- The characters of a float: positional, a sign also on a negative zero, and names for what is
not a finite number. -/
def write (x : Binary64) : List Char :=
  if x.isNaN then ['N', 'a', 'N']
  else
    let unsigned :=
      if x.isInfinite then ['i', 'n', 'f']
      else if x.isZero then ['0']
      else x.shortest.positional
    if x.isNegative then '-' :: unsigned else unsigned

def text (x : Binary64) : String := String.ofList x.write

end Binary64
end ScriptVM
