/-
**Expression trees.**

A tree is a literal, an operand under a sign, or two operands joined by an operation.  Brackets
leave no trace in a tree.  Each node carries the place of the token it was made from: its literal,
its sign or the character of its operation.

Main definitions:

* `Reckoner.Expr` — trees;
* `Reckoner.Expr.agrees` — equality of trees in which numbers are compared as arithmetic does;
* `Reckoner.Expr.write`, `Reckoner.Expr.chars` — the written form, with a pair of brackets around
  every operation and every sign.
-/

import Reckoner.Operation
import Reckoner.Position

set_option relaxedAutoImplicit false
set_option autoImplicit false

namespace Reckoner

/-- An expression. -/
inductive Expr where
  | literal (value : Number) (position : Position)
  | signed (sign : Sign) (operand : Expr) (position : Position)
  | joined (op : Operation) (left right : Expr) (position : Position)
deriving DecidableEq

namespace Expr

/-- The place of the token that the root was made from. -/
def position : Expr → Position
  | literal _ p => p
  | signed _ _ p => p
  | joined _ _ _ p => p

/-- Are two trees equal, with numbers compared as arithmetic does?  A tree that holds the value
which is not a number does not even agree with itself. -/
def agrees : Expr → Expr → Bool
  | literal a p, literal b q => decide (p = q) && a.agrees b
  | signed s x p, signed t y q => decide (s = t ∧ p = q) && x.agrees y
  | joined o l r p, joined o' l' r' q => decide (o = o' ∧ p = q) && r.agrees r' && l.agrees l'
  | _, _ => false

/-! ### Written form -/

/-- Writes a tree between `opened` brackets, which are due before it, and the text `after` it.

The brackets of a chain of operations all stand before its first operand.  They are counted on the
way down the left operands, so that a chain of any length is written without nesting; only right
operands and operands under a sign are written on their own. -/
def write : Expr → Nat → List Char → List Char
  | literal value _, opened, after => List.replicate opened '(' ++ value.chars ++ after
  | signed sign operand _, opened, after =>
      List.replicate (opened + 1) '(' ++ sign.symbol :: operand.write 0 (')' :: after)
  | joined op left right _, opened, after =>
      left.write (opened + 1) (' ' :: op.symbol :: ' ' :: right.write 0 (')' :: after))

/-- The written form of a tree, as characters. -/
def chars (e : Expr) : List Char := e.write 0 []

/-- The written form of a tree. -/
def text (e : Expr) : String := String.ofList e.chars

end Expr

end Reckoner
