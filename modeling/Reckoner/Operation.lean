/-
**Operations and signs, and the arithmetic they stand for.**

On two integers the operations other than division are exact whenever the exact result fits a
machine integer.  Where it does not, the operation is done again on the nearest doubles and the
result stays a double from there on; this event is an *overflow*.  Division always works on
doubles, so it never fails either.

Main definitions:

* `Reckoner.Operation`, `Reckoner.Sign` — the four operations and the two signs;
* `Reckoner.Overflow` — why a result left the integers;
* `Reckoner.Operation.compute`, `Reckoner.Sign.compute` — a result with the overflow behind it;
* `Reckoner.Operation.apply`, `Reckoner.Sign.apply` — the result alone.
-/

import Reckoner.Number

set_option relaxedAutoImplicit false
set_option autoImplicit false

namespace Reckoner

/-- An operation between two operands. -/
inductive Operation where
  | add
  | sub
  | mul
  | div
deriving DecidableEq

/-- A sign in front of an operand. -/
inductive Sign where
  | plus
  | minus
deriving DecidableEq

/-- An exact result that fits no machine integer. -/
inductive Overflow where
  /-- The result of an operation on two integers. -/
  | operation (left : Int64) (op : Operation) (right : Int64)
  /-- The opposite of an integer. -/
  | negation (value : Int64)
deriving DecidableEq

/-! ### Operations -/

namespace Operation

/-- The character that writes the operation. -/
def symbol : Operation → Char
  | add => '+'
  | sub => '-'
  | mul => '*'
  | div => '/'

/-- The exact result of an operation on integers.  Division has none. -/
def onIntegers? : Operation → Int → Int → Option Int
  | add, a, b => some (a + b)
  | sub, a, b => some (a - b)
  | mul, a, b => some (a * b)
  | div, _, _ => none

/-- The operation on doubles. -/
def rounded : Operation → Float → Float → Float
  | add, a, b => a + b
  | sub, a, b => a - b
  | mul, a, b => a * b
  | div, a, b => a / b

/-- The result of an operation, with the overflow that forced it to be a double, if one did. -/
def compute (op : Operation) (left right : Number) : Number × Option Overflow :=
  let inexact := Number.float (op.rounded left.toFloat right.toFloat)
  match left, right with
  | .int a, .int b =>
      match op.onIntegers? a.toInt b.toInt with
      | none => (inexact, none)
      | some n =>
          match fitted? n with
          | some value => (.int value, none)
          | none => (inexact, some (.operation a op b))
  | _, _ => (inexact, none)

/-- The result of an operation. -/
def apply (op : Operation) (left right : Number) : Number := (op.compute left right).1

end Operation

/-! ### Signs -/

namespace Sign

/-- The character that writes the sign. -/
def symbol : Sign → Char
  | plus => '+'
  | minus => '-'

/-- The operand under a sign, with the overflow that forced it to be a double, if one did. -/
def compute : Sign → Number → Number × Option Overflow
  | plus, operand => (operand, none)
  | minus, .float value => (.float (-value), none)
  | minus, .int value =>
      match fitted? (-value.toInt) with
      | some opposite => (.int opposite, none)
      | none => (.float (-nearestFloat value), some (.negation value))

/-- The operand under a sign. -/
def apply (sign : Sign) (operand : Number) : Number := (sign.compute operand).1

end Sign

end Reckoner
