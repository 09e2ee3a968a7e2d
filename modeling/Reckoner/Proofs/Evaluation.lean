/-
**Evaluation is the plain recursion over the tree.**

The evaluator of `Reckoner/Expr/Value.lean` walks a chain of operations down its left operands and
keeps what is still to be done in a list, which it works off from the innermost operation on.  This
module shows that nothing comes of it that is not plain to see in the tree: the value of a node is
its operation, or its sign, applied to the values of its operands, and the events are those of its
operands, the left one first, and then its own.

The plain recursion is also written down as a program, which reports events as it goes along the
tree.  It is what the evaluator would be if chains could not be longer than there is room to nest.

Main definitions:

* `Reckoner.Expr.result` — the value of a tree, operands first;
* `Reckoner.Expr.workings` — the events of finding it, oldest first;
* `Reckoner.Expr.visit`, `Reckoner.Expr.evaluatePlainly` — the plain recursion as a program.

Main results:

* `Reckoner.Expr.evaluateThen_eq` — **the evaluator follows the tree**, in value and in events;
* `Reckoner.Expr.value_evaluate` — the value of a tree is its result;
* `Reckoner.Expr.run_visit` — the plain recursion comes to the result and reports the workings;
* `Reckoner.Expr.evaluate_eq_plain` — **the evaluator is the plain recursion**, in value and in
  events.
-/

import Reckoner.Expr.Value

set_option relaxedAutoImplicit false
set_option autoImplicit false

namespace Reckoner.Expr

/-- The value of a tree: operands are evaluated before what joins them. -/
def result : Expr → Number
  | literal value _ => value
  | signed sign operand _ => sign.apply operand.result
  | joined op left right _ => op.apply left.result right.result

/-- The events of evaluating a tree, oldest first.  Those of a node come after those of its
operands; an operation is followed by the overflow that it causes. -/
def workings : Expr → List Event
  | literal _ _ => []
  | signed sign operand _ =>
      operand.workings ++ (sign.compute operand.result).2.toList.map .overflow
  | joined op left right _ =>
      left.workings ++ right.workings ++ .operation left.result op right.result ::
        (op.compute left.result right.result).2.toList.map .overflow

theorem reverse_map_toList {α β : Type} (f : α → β) (o : Option α) :
    (o.toList.map f).reverse = o.toList.map f := by
  cases o <;> rfl

/-- **The evaluator follows the tree**: it finds the value of the tree, adds its events to the
earlier ones and then does what is pending. -/
theorem evaluateThen_eq (e : Expr) : ∀ (pending : List (Progress → Progress)) (events : List Event),
    e.evaluateThen pending events =
      pending.foldl (fun progress next => next progress)
        ⟨e.result, e.workings.reverse ++ events⟩ := by
  induction e with
  | literal value p =>
      intro pending events
      rfl
  | signed sign operand p ih =>
      intro pending events
      rw [evaluateThen, ih, List.foldl_nil, Progress.signed]
      simp [result, workings, Sign.apply, reverse_map_toList]
  | joined op left right p ihl ihr =>
      intro pending events
      -- the chain below leaves this node pending, innermost first, so it is done first of all
      rw [evaluateThen, ihl, List.foldl_cons]
      simp [ihr, Progress.joined, result, workings, Operation.apply, reverse_map_toList]

/-- The value of a tree is its result. -/
theorem value_evaluate (e : Expr) : e.evaluate.value = e.result := by
  rw [evaluate, evaluateThen_eq, List.foldl_nil]

/-- The events of a tree are its workings and the final value. -/
theorem events_evaluate (e : Expr) : e.evaluate.events = e.workings ++ [.evaluated e.result] := by
  rw [evaluate, evaluateThen_eq, List.foldl_nil]
  simp

/-! ### The plain recursion -/

/-- Computations that report events, which are kept with the oldest first. -/
abbrev Reporting := StateM (List Event)

/-- What a computation comes to, and what it reports. -/
def Reporting.logged {α : Type} (x : Reporting α) : Logged α :=
  let (value, events) := (x.run []).run
  ⟨value, events⟩

/-- Reports an event. -/
def report (event : Event) : Reporting Unit := modify fun events => events ++ [event]

/-- Reports an overflow, if there was one. -/
def reportOverflow : Option Overflow → Reporting Unit
  | some cause => report (.overflow cause)
  | none => pure ()

/-- Evaluates a tree by plain recursion: the operands, the left one before the right one, and then
the node itself. -/
def visit : Expr → Reporting Number
  | literal value _ => pure value
  | signed sign operand _ => do
      let x ← operand.visit
      reportOverflow (sign.compute x).2
      return sign.apply x
  | joined op left right _ => do
      let x ← left.visit
      let y ← right.visit
      report (.operation x op y)
      reportOverflow (op.compute x y).2
      return op.apply x y

/-- Evaluates a tree by plain recursion and reports its value. -/
def evaluatePlainly (e : Expr) : Reporting Number := do
  let value ← e.visit
  report (.evaluated value)
  return value

@[simp] theorem run_report (event : Event) (events : List Event) :
    ((report event).run events).run = ((), events ++ [event]) := rfl

@[simp] theorem run_reportOverflow (overflow : Option Overflow) (events : List Event) :
    ((reportOverflow overflow).run events).run =
      ((), events ++ overflow.toList.map .overflow) := by
  cases overflow with
  | none => simp [reportOverflow]
  | some cause => rfl

/-- **The plain recursion comes to the result and reports the workings.** -/
@[simp] theorem run_visit (e : Expr) : ∀ events : List Event,
    (e.visit.run events).run = (e.result, events ++ e.workings) := by
  induction e with
  | literal value p =>
      intro events
      simp [visit, result, workings]
  | signed sign operand p ih =>
      intro events
      simp [visit, ih, result, workings]
  | joined op left right p ihl ihr =>
      intro events
      simp [visit, ihl, ihr, result, workings]

/-- **The evaluator is the plain recursion.**  That it walks chains by a loop shows neither in the
value that it finds nor in what it reports, nor in the order of the reports. -/
theorem evaluate_eq_plain (e : Expr) : e.evaluate = e.evaluatePlainly.logged := by
  have hplain : (e.evaluatePlainly.run []).run =
      (e.result, e.workings ++ [.evaluated e.result]) := by
    simp [evaluatePlainly]
  calc e.evaluate = ⟨e.evaluate.value, e.evaluate.events⟩ := rfl
    _ = ⟨e.result, e.workings ++ [.evaluated e.result]⟩ := by rw [value_evaluate, events_evaluate]
    _ = e.evaluatePlainly.logged := by rw [Reporting.logged, hplain]

end Reckoner.Expr
