/-
**Events: the account a calculation gives of itself.**

Every stage of a calculation returns, beside its result, the events it went through, oldest first.
An event is a value; what it says and how loudly is decided here and nowhere else.

Main definitions:

* `Reckoner.Event` — what can happen;
* `Reckoner.Event.level`, `Reckoner.Event.text`, `Reckoner.Event.entry` — how it is reported;
* `Reckoner.Logged` — a result with the events behind it.
-/

import Reckoner.Token

set_option relaxedAutoImplicit false
set_option autoImplicit false

namespace Reckoner

/-- How loudly an event is reported. -/
inductive Level where
  | debug
  | trace
deriving DecidableEq

/-- A step of a calculation. -/
inductive Event where
  /-- A text of so many characters is about to be cut into tokens. -/
  | scanning (size : Nat) (source : String)
  /-- A literal without a point fits no machine integer. -/
  | oversize (literal : List Char)
  /-- A token was cut off. -/
  | token (t : Token)
  /-- The text is used up. -/
  | scanned (count : Nat)
  /-- So many tokens are about to be read as an expression. -/
  | reading (count : Nat) (source : String)
  /-- The token stands where an operand is due. -/
  | offered (t : Token)
  /-- The tokens are an expression whose root is at the given place. -/
  | read (root : Position)
  /-- A result left the integers. -/
  | overflow (cause : Overflow)
  /-- An operation is about to be done. -/
  | operation (left : Number) (op : Operation) (right : Number)
  /-- An expression has its value. -/
  | evaluated (value : Number)
  /-- A text has its value. -/
  | answered (preview : List Char) (value : Number)
deriving DecidableEq

namespace Event

/-- Single tokens and single operations are reported more quietly than the rest. -/
def level : Event → Level
  | token _ | offered _ | operation .. => .trace
  | _ => .debug

/-- An integer in decimal. -/
def integerText (n : Int64) : String := (Number.int n).text

/-- What an event says. -/
def text : Event → String
  | scanning size source => "Lexing " ++ toString size ++ " chars from " ++ source
  | oversize literal =>
      "integer literal " ++ String.ofList literal ++ " exceeds i64, storing as float"
  | token t =>
      "token " ++ t.text ++ " at " ++ toString t.position.line ++ ":" ++ toString t.position.column
  | scanned count => "Produced " ++ toString count ++ " tokens"
  | reading count source => "Parsing " ++ toString count ++ " tokens from " ++ source
  | offered t => "factor at " ++ t.text
  | read root =>
      "Parsed expression rooted at " ++ toString root.line ++ ":" ++ toString root.column
  | overflow (.operation left op right) =>
      "integer overflow in " ++ integerText left ++ " " ++ op.symbol.toString ++ " " ++
        integerText right ++ ", promoting to float"
  | overflow (.negation value) =>
      "integer overflow negating " ++ integerText value ++ ", promoting to float"
  | operation left op right => left.text ++ " " ++ op.symbol.toString ++ " " ++ right.text
  | evaluated value => "Evaluated to " ++ value.text
  | answered preview value => String.ofList preview ++ " => " ++ value.text

/-- The entry of an event in a report. -/
def entry (e : Event) : String :=
  match e.level with
  | .debug => "DEBUG " ++ e.text
  | .trace => "TRACE " ++ e.text

end Event

/-- A result and the events that led to it, oldest first. -/
structure Logged (α : Type) where
  value : α
  events : List Event

end Reckoner
