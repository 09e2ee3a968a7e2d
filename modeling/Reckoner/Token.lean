/-
**Tokens.**

A token is a unit of an expression's text: a literal with its number, one of the four operation
characters, a bracket, or the mark behind the last of them.  Nothing ties a token's kind to its
number; `Reckoner/Lexeme.lean` gives a number to literals only, while a list of tokens made by hand
may hold others.

Main definitions:

* `Reckoner.Kind`, `Reckoner.Token` — kinds and tokens;
* `Reckoner.Kind.ofSymbol?` — the kind of a character that is a token by itself;
* `Reckoner.Kind.operation?`, `Reckoner.Kind.sign?` — the operation and the sign that a kind
  stands for;
* `Reckoner.Token.text` — how a token is shown.
-/

import Reckoner.Operation
import Reckoner.Position

set_option relaxedAutoImplicit false
set_option autoImplicit false

namespace Reckoner

/-- The kind of a token. -/
inductive Kind where
  /-- A literal without a point. -/
  | integer
  /-- A literal with a point. -/
  | decimal
  | plus
  | minus
  | star
  | slash
  | opening
  | closing
  /-- The end of the text. -/
  | ending
deriving DecidableEq

namespace Kind

/-- The kind of the token that the character makes by itself. -/
def ofSymbol? : Char → Option Kind
  | '+' => some plus
  | '-' => some minus
  | '*' => some star
  | '/' => some slash
  | '(' => some opening
  | ')' => some closing
  | _ => none

/-- How a kind is shown. -/
def text : Kind → String
  | integer => "INT"
  | decimal => "FLOAT"
  | plus => "+"
  | minus => "-"
  | star => "*"
  | slash => "/"
  | opening => "("
  | closing => ")"
  | ending => "EOF"

/-- The operation that joins weakly bound operands. -/
def additive? : Kind → Option Operation
  | plus => some .add
  | minus => some .sub
  | _ => none

/-- The operation that joins tightly bound operands. -/
def multiplicative? : Kind → Option Operation
  | star => some .mul
  | slash => some .div
  | _ => none

/-- The operation that a kind stands for between two operands. -/
def operation? (k : Kind) : Option Operation := k.additive?.or k.multiplicative?

/-- The sign that a kind stands for in front of an operand. -/
def sign? : Kind → Option Sign
  | plus => some .plus
  | minus => some .minus
  | _ => none

end Kind

theorem Sign.exists_kind (sign : Sign) :
    ∃ kind, Kind.ofSymbol? sign.symbol = some kind ∧ kind.sign? = some sign := by
  cases sign <;> exact ⟨_, rfl, rfl⟩

theorem Operation.exists_kind (op : Operation) :
    ∃ kind, Kind.ofSymbol? op.symbol = some kind ∧ kind.operation? = some op := by
  cases op <;> exact ⟨_, rfl, rfl⟩

/-- A unit of an expression's text, with the place of its first character. -/
structure Token where
  kind : Kind
  value : Option Number
  position : Position
deriving DecidableEq

namespace Token

/-- How a token is shown: its kind, then its number if it has one. -/
def text (t : Token) : String :=
  match t.value with
  | some value => t.kind.text ++ ":" ++ value.text
  | none => t.kind.text

end Token

/-! ### Kinds that stand for no operator -/

/-- A kind was taken for an operator that it is not. -/
inductive NotOperator where
  | operation (kind : Kind)
  | sign (kind : Kind)
deriving DecidableEq

namespace NotOperator

/-- The wording of the complaint. -/
def message : NotOperator → String
  | operation kind => "Unknown binary operator: " ++ kind.text
  | sign kind => "Unknown unary operator: " ++ kind.text

end NotOperator

/-- The operation that a kind stands for, or the complaint that it stands for none. -/
def Operation.ofKind (k : Kind) : Except NotOperator Operation :=
  match k.operation? with
  | some op => .ok op
  | none => .error (.operation k)

/-- The sign that a kind stands for, or the complaint that it stands for none. -/
def Sign.ofKind (k : Kind) : Except NotOperator Sign :=
  match k.sign? with
  | some sign => .ok sign
  | none => .error (.sign k)

end Reckoner
