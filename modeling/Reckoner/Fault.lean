/-
**Faults: why a text has no value.**

Only the text can be at fault, in one of two ways: a character belongs to no token, or the tokens
form no expression.  Arithmetic has no faults.  A fault knows its cause; the wording is made here
and nowhere else.

Main definitions:

* `Reckoner.Lapse` — why tokens form no expression;
* `Reckoner.Cause`, `Reckoner.Fault` — a cause, and a cause with its place;
* `Reckoner.Fault.message`, `Reckoner.Fault.text` — the short and the full wording.
-/

import Reckoner.Position

set_option relaxedAutoImplicit false
set_option autoImplicit false

namespace Reckoner

/-- Why a list of tokens is not an expression. -/
inductive Lapse where
  /-- An operand is due. -/
  | operandDue
  /-- A bracket has to be closed. -/
  | closingDue
  /-- An expression is complete and more follows. -/
  | operationDue
  /-- Signs and brackets are open beyond the given limit. -/
  | tooDeep (limit : Nat)
  /-- A reason in words of the caller's own. -/
  | other (reason : String)
deriving DecidableEq

namespace Lapse

/-- The wording of a lapse. -/
def message : Lapse → String
  | operandDue => "expected int or float"
  | closingDue => "expected ')'"
  | operationDue => "expected '+', '-', '*', or '/'"
  | tooDeep limit => "maximum nesting depth of " ++ toString limit ++ " exceeded"
  | other reason => reason

end Lapse

/-- Why a text has no value. -/
inductive Cause where
  /-- The character belongs to no token. -/
  | illegal (c : Char)
  /-- The tokens form no expression. -/
  | ungrammatical (lapse : Lapse)
deriving DecidableEq

/-- A cause, the name of the text it was found in, and the place there. -/
structure Fault where
  cause : Cause
  source : String
  position : Position
deriving DecidableEq

namespace Fault

/-- The line of the fault. -/
def line (f : Fault) : Nat := f.position.line

/-- The wording of the cause alone. -/
def message (f : Fault) : String :=
  match f.cause with
  | .illegal c => "illegal character '" ++ c.toString ++ "'"
  | .ungrammatical lapse => lapse.message

/-- The wording of the cause as the heading of a report. -/
def heading (f : Fault) : String :=
  match f.cause with
  | .illegal c => "Illegal character: '" ++ c.toString ++ "'"
  | .ungrammatical lapse => "Invalid syntax: " ++ lapse.message

/-- The report of a fault: its heading and, on a second line, where it is. -/
def text (f : Fault) : String :=
  f.heading ++ "\nFile " ++ f.source ++ ", line " ++ toString f.line

end Fault

end Reckoner
