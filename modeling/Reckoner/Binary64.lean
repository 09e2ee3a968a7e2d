/-
**Double precision numbers as decimals, in both directions.**

The pattern of a finite double without its sign bit is a natural number below `infinity`, and the
doubles grow with their patterns.  Every such double is a whole number of units of `2 ^ -1074`, the
smallest positive one.  A decimal is read as the double nearest to it, a tie going to the even
pattern, and a double is written as the decimal with the fewest significant digits that reads back
as that double.  Both directions are exact computations on natural numbers.

Main definitions:

* `Reckoner.Binary64.nearest` — the pattern that a decimal is read as;
* `Reckoner.Binary64.exact` — the decimal equal to the double with a given pattern;
* `Reckoner.Binary64.shortest` — the decimal that a double is written as;
* `Reckoner.Binary64.ofDecimal`, `Reckoner.Binary64.chars` — the same on doubles themselves, with
  sign, infinities and the value that is not a number.
-/

import Reckoner.Decimal

set_option relaxedAutoImplicit false
set_option autoImplicit false

namespace Reckoner.Binary64

/-! ### Reading -/

/-- The number of patterns that share a sign and an exponent. -/
def binade : Nat := Nat.pow 2 52

/-- The pattern of positive infinity, the first one behind the finite doubles. -/
def infinity : Nat := 2047 * binade

/-- The quotient `num / den` rounded to a whole number, a half going to the even neighbour. -/
def roundHalfEven (num den : Nat) : Nat :=
  let quotient := num / den
  let rest := 2 * (num % den)
  if rest < den then quotient
  else if den < rest then quotient + 1
  else quotient + quotient % 2

/-- The pattern of the double nearest to `d`; what lies beyond the finite doubles is read as
infinity.

With `u` units in `d`, the significand keeps the leading 53 binary digits of `u`, or all of them
where there are fewer, and `scale` says how many are given up.  A significand that rounds up to
`2 ^ 53` carries into the exponent field by itself. -/
def nearest (d : Decimal) : Nat :=
  let num := d.digits * Nat.pow 2 1074
  let den := Nat.pow 10 d.places
  let scale := (num / den).log2 - 52
  min (scale * binade + roundHalfEven num (den * Nat.pow 2 scale)) infinity

/-! ### Writing -/

/-- The significand of the finite double with pattern `bits`, its leading one included. -/
def significand (bits : Nat) : Nat :=
  if bits < binade then bits else binade + bits % binade

/-- The power of two that scales the significand to units. -/
def scale (bits : Nat) : Nat := bits / binade - 1

/-- The decimal equal to the finite double with pattern `bits`. -/
def exact (bits : Nat) : Decimal :=
  ⟨significand bits * Nat.pow 2 (scale bits - 1074) * Nat.pow 5 (1074 - scale bits),
    1074 - scale bits⟩

/-- The better of the two neighbours of `d` that end in `zeros` zeros and read back as `bits`: the
nearer one, and the larger one of two equally near. -/
def neighbour? (bits : Nat) (d : Decimal) (zeros : Nat) : Option Decimal :=
  let grid := Nat.pow 10 zeros
  let low : Decimal := ⟨d.digits / grid * grid, d.places⟩
  let high : Decimal := ⟨(d.digits / grid + 1) * grid, d.places⟩
  if nearest low = bits ∧ (nearest high ≠ bits ∨ 2 * (d.digits % grid) < grid) then some low
  else if nearest high = bits then some high
  else none

/-- The first neighbour of `d` that reads back as `bits`, trying `zeros` zeros at the end, then
fewer; `d` itself when only all of its digits will do. -/
def shorten (bits : Nat) (d : Decimal) (zeros : Nat) : Decimal :=
  ((List.range' 1 zeros).reverse.findSome? (neighbour? bits d)).getD d

/-- The decimal with the fewest significant digits that reads back as `bits`, and of those the
nearest to the double. -/
def shortest (bits : Nat) : Decimal :=
  let d := exact bits
  let short := shorten bits d ((Nat.toDigits 10 d.digits).length - 1)
  Decimal.trim short.digits short.places

/-! ### Doubles -/

/-- The double nearest to `d`. -/
def ofDecimal (d : Decimal) : Float := Float.ofBits (UInt64.ofNat (nearest d))

/-- The pattern of the sign bit. -/
def signBit : Nat := Nat.pow 2 63

/-- The pattern of a double without its sign bit. -/
def magnitude (x : Float) : Nat := x.toBits.toNat % signBit

/-- Does the double carry a minus sign, as a negative zero does? -/
def isNegative (x : Float) : Bool := decide (signBit ≤ x.toBits.toNat)

/-- The written form of a double. -/
def chars (x : Float) : List Char :=
  if x.isNaN then ['N', 'a', 'N']
  else
    let sign := if isNegative x then ['-'] else []
    let size := if x.isInf then ['i', 'n', 'f'] else (shortest (magnitude x)).chars
    sign ++ size

end Reckoner.Binary64
