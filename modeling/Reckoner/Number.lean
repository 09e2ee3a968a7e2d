/-
**Numbers: exact while they fit a machine word, rounded once they do not.**

A number is an integer of 64 bits or a double.  This module holds the two kinds, the way a literal
chooses between them and the way either is written; arithmetic is in `Reckoner/Operation.lean`.

Main definitions:

* `Reckoner.Number` — the two kinds of number;
* `Reckoner.Number.ofLiteral` — the number that a literal denotes;
* `Reckoner.Number.toFloat` — the double that a number stands for;
* `Reckoner.Number.agrees` — equality as arithmetic sees it, under which the value that is not a
  number differs from itself and the two zeros are one;
* `Reckoner.Number.chars` — the written form.
-/

import Reckoner.Binary64

set_option relaxedAutoImplicit false
set_option autoImplicit false

namespace Reckoner

/-- A number of an expression. -/
inductive Number where
  | int (value : Int64)
  | float (value : Float)
deriving DecidableEq

/-! ### Machine integers -/

/-- The machine integer equal to `n`, if there is one. -/
def fitted? (n : Int) : Option Int64 :=
  if Int64.minValue.toInt ≤ n ∧ n ≤ Int64.maxValue.toInt then some (Int64.ofInt n) else none

/-- A machine integer is the fitting one for the integer that it is, and for no other. -/
theorem fitted?_eq_some_iff {n : Int} {value : Int64} :
    fitted? n = some value ↔ n = value.toInt := by
  constructor
  · intro h
    rw [fitted?] at h
    split at h
    next hrange =>
      have hmin : Int64.minValue.toInt = -2 ^ 63 := Int64.toInt_minValue
      have hmax : Int64.maxValue.toInt = 2 ^ 63 - 1 := Int64.toInt_maxValue
      rw [← Option.some.inj h, Int64.toInt_ofInt_of_le (by omega) (by omega)]
    next => cases h
  · rintro rfl
    rw [fitted?, if_pos ⟨value.minValue_le_toInt, value.toInt_le⟩, Int64.ofInt_toInt]

/-- The double nearest to a machine integer. -/
def nearestFloat (n : Int64) : Float :=
  let size := n.toInt.natAbs.toUInt64.toFloat
  if n.toInt < 0 then -size else size

namespace Number

/-- Is the number an exact integer? -/
def isInt : Number → Bool
  | int _ => true
  | float _ => false

/-- Is the number a double? -/
def isFloat : Number → Bool
  | int _ => false
  | float _ => true

/-- The double that a number stands for, rounded to nearest if it is an integer. -/
def toFloat : Number → Float
  | int value => nearestFloat value
  | float value => value

/-- Are two numbers equal as arithmetic sees it?  An integer and a double never are. -/
def agrees : Number → Number → Bool
  | int a, int b => decide (a = b)
  | float a, float b => a == b
  | _, _ => false

/-! ### Literals -/

/-- The number written by digits with at most one point: an integer if there is no point and the
value fits, and the nearest double otherwise. -/
def ofLiteral (text : List Char) : Number :=
  if '.' ∈ text then float (Binary64.ofDecimal (Decimal.ofText text))
  else
    match fitted? (Decimal.wholeOfText text) with
    | some value => int value
    | none => float (Binary64.ofDecimal (Decimal.ofText text))

/-! ### Written form -/

/-- The written form of a number, as characters. -/
def chars : Number → List Char
  | int value =>
      (if value.toInt < 0 then ['-'] else []) ++ Nat.toDigits 10 value.toInt.natAbs
  | float value => Binary64.chars value

/-- The written form of a number. -/
def text (n : Number) : String := String.ofList n.chars

end Number

end Reckoner
