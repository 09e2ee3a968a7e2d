/-
**The value of an expression.**

Operands are evaluated before what joins them, the left one first.  Every operation is reported
just before it is done and an overflow just after, so the events tell the order of the work.

Main definitions:

* `Reckoner.Expr.Progress` — a value with the events so far;
* `Reckoner.Expr.evaluateThen` — evaluation along the left operands;
* `Reckoner.Expr.evaluate` — the value of a tree, with the events of finding it.
-/

import Reckoner.Event
import Reckoner.Expr

set_option relaxedAutoImplicit false
set_option autoImplicit false

namespace Reckoner.Expr

/-- The value found last, and the events so far, the last one first. -/
structure Progress where
  value : Number
  events : List Event
deriving DecidableEq

namespace Progress

/-- Puts the value under a sign. -/
def signed (sign : Sign) (operand : Progress) : Progress :=
  let (value, overflow) := sign.compute operand.value
  ⟨value, overflow.toList.map Event.overflow ++ operand.events⟩

/-- Joins the value `left`, found before `right`, with the value found now. -/
def joined (op : Operation) (left : Number) (right : Progress) : Progress :=
  let (value, overflow) := op.compute left right.value
  ⟨value, overflow.toList.map Event.overflow ++ .operation left op right.value :: right.events⟩

end Progress

/-- Evaluates a tree after the given events, then does what is still `pending` with its value.

A chain of operations is walked down its left operands to the first one, which leaves the rest of
the chain pending, innermost operation first; a chain of any length is then worked off by a loop.
Only right operands and operands under a sign are evaluated on their own. -/
def evaluateThen : Expr → List (Progress → Progress) → List Event → Progress
  | literal value _, pending, events =>
      pending.foldl (fun progress next => next progress) ⟨value, events⟩
  | signed sign operand _, pending, events =>
      pending.foldl (fun progress next => next progress)
        (.signed sign (operand.evaluateThen [] events))
  | joined op left right _, pending, events =>
      left.evaluateThen
        ((fun progress => .joined op progress.value (right.evaluateThen [] progress.events)) ::
          pending)
        events

/-- The value of a tree. -/
def evaluate (e : Expr) : Logged Number :=
  let done := e.evaluateThen [] []
  ⟨done.value, (.evaluated done.value :: done.events).reverse⟩

end Reckoner.Expr
