/-
**Decimal fractions and their written form.**

A decimal fraction is a whole number of tenths, hundredths and so on.  It is read from digits with
at most one point among them, and written with the point always present and at least one digit on
either side of it; no exponent is ever used.

Main definitions:

* `Reckoner.Decimal` — `digits / 10 ^ places`;
* `Reckoner.Decimal.ofText` — reading;
* `Reckoner.Decimal.trim` — the same fraction without the zeros at its end;
* `Reckoner.Decimal.chars` — writing.
-/

set_option relaxedAutoImplicit false
set_option autoImplicit false

namespace Reckoner

/-- The non-negative decimal fraction `digits / 10 ^ places`. -/
structure Decimal where
  digits : Nat
  places : Nat
deriving DecidableEq

namespace Decimal

/-- The value of a row of digits. -/
def wholeOfText (text : List Char) : Nat := Nat.ofDigitChars 10 text 0

/-- The fraction written by digits with at most one point among them.  Nothing need follow the
point. -/
def ofText (text : List Char) : Decimal :=
  let whole := text.takeWhile (· != '.')
  let fraction := (text.dropWhile (· != '.')).drop 1
  ⟨wholeOfText (whole ++ fraction), fraction.length⟩

/-- The fraction `digits / 10 ^ places` with as few places as it can be written with. -/
def trim (digits : Nat) : Nat → Decimal
  | 0 => ⟨digits, 0⟩
  | places + 1 => if digits % 10 = 0 then trim (digits / 10) places else ⟨digits, places + 1⟩

/-- The written form: all places of the fraction, or a single zero where it has none. -/
def chars (d : Decimal) : List Char :=
  if d.places = 0 then
    Nat.toDigits 10 d.digits ++ ['.', '0']
  else
    let one := Nat.pow 10 d.places
    Nat.toDigits 10 (d.digits / one) ++
      '.' :: (Nat.toDigits 10 (d.digits % one)).leftpad d.places '0'

end Decimal

end Reckoner
