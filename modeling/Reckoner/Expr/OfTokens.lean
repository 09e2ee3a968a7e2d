/-
**Expressions from tokens.**

Tokens are read by recursive descent along the grammar

    expression := term (('+' | '-') term)*
    term       := factor (('*' | '/') factor)*
    factor     := ('+' | '-') factor | NUMBER | '(' expression ')'

whose chains associate to the left.  Signs and brackets may be open at once only up to a limit,
which bounds the recursion whatever the tokens are.  An array of tokens need not be one that a text
gave: behind the last token the reader goes on seeing that token, and of no tokens at all it sees
the end mark.

Main definitions:

* `Reckoner.Expr.Cursor`, `Reckoner.Expr.Outcome`, `Reckoner.Expr.Rule` — where a reader stands,
  where it gets to, and a rule of the grammar as the step between them;
* `Reckoner.Expr.chain`, `Reckoner.Expr.primary`, `Reckoner.Expr.deeper` — the three ways in which
  the grammar makes rules from rules;
* `Reckoner.Expr.factor`, `Reckoner.Expr.term`, `Reckoner.Expr.expression` — the grammar;
* `Reckoner.Expr.ofTokens` — the expression that all tokens up to the end mark form, with the
  events of reading it.
-/

import Reckoner.Event
import Reckoner.Expr
import Reckoner.Fault

set_option relaxedAutoImplicit false
set_option autoImplicit false

namespace Reckoner.Expr

/-! ### Reading a token array -/

/-- Where a reader of tokens stands. -/
structure Cursor where
  /-- The number of tokens passed. -/
  index : Nat
  /-- The number of signs and brackets open around this place. -/
  depth : Nat
  /-- The places where an operand was due, the last one first. -/
  offered : List Nat
deriving DecidableEq

/-- The reader before the first token. -/
def Cursor.start : Cursor := ⟨0, 0, []⟩

/-- What reading comes to: a tree and the place behind it, or a lapse and the place of it. -/
inductive Outcome where
  | tree (tree : Expr) (next : Cursor)
  | lapse (lapse : Lapse) (stop : Cursor)
deriving DecidableEq

/-- A rule of the grammar. -/
abbrev Rule := Cursor → Outcome

/-- The token at place `i`; behind the end it is the last one. -/
def tokenAt? (tokens : Array Token) (i : Nat) : Option Token := tokens[i]?.or tokens.back?

/-- The kind of the token at place `i`. -/
def kindAt (tokens : Array Token) (i : Nat) : Kind :=
  match tokenAt? tokens i with
  | some t => t.kind
  | none => .ending

/-- The position of the token at place `i`. -/
def positionAt (tokens : Array Token) (i : Nat) : Position :=
  match tokenAt? tokens i with
  | some t => t.position
  | none => Position.start

namespace Cursor

/-- Passes a token, if there is one left. -/
def advance (tokens : Array Token) (c : Cursor) : Cursor :=
  if c.index < tokens.size then { c with index := c.index + 1 } else c

/-- Notes that an operand is due at this place. -/
def offer (c : Cursor) : Cursor := { c with offered := c.index :: c.offered }

end Cursor

/-! ### Rules from rules -/

/-- Reads on after the operand `left` of a chain, as long as a `joint?` follows.

An operation that the reader still sees behind the last token is followed by no operand, so every
joint passes a token; the test for it only makes plain that a chain ends. -/
def chainFrom (tokens : Array Token) (joint? : Kind → Option Operation) (operand : Rule)
    (left : Expr) (c : Cursor) : Outcome :=
  match joint? (kindAt tokens c.index) with
  | none => .tree left c
  | some op =>
      match operand (c.advance tokens) with
      | .lapse lapse stop => .lapse lapse stop
      | .tree right next =>
          let both := joined op left right (positionAt tokens c.index)
          if _moved : c.index < next.index ∧ c.index < tokens.size then
            chainFrom tokens joint? operand both next
          else .tree both next
termination_by tokens.size - c.index

/-- One or more operands with a `joint?` between any two, joined from the left. -/
def chain (tokens : Array Token) (joint? : Kind → Option Operation) (operand : Rule) : Rule :=
  fun c =>
    match operand c with
    | .lapse lapse stop => .lapse lapse stop
    | .tree left next => chainFrom tokens joint? operand left next

/-- Operands joined by tightly bound operations, these joined by weakly bound ones. -/
def sum (tokens : Array Token) (operand : Rule) : Rule :=
  chain tokens Kind.additive? (chain tokens Kind.multiplicative? operand)

/-- An operand: a literal, or a sign with what `behindSign` reads after it, or a pair of brackets
with what `inBrackets` reads between them. -/
def primary (tokens : Array Token) (behindSign inBrackets : Rule) : Rule := fun c =>
  match tokenAt? tokens c.index with
  | none => .lapse .operandDue c
  | some token =>
      let c := c.offer
      match token.kind.sign?, token.kind, token.value with
      | some sign, _, _ =>
          match behindSign (c.advance tokens) with
          | .lapse lapse stop => .lapse lapse stop
          | .tree operand next => .tree (signed sign operand token.position) next
      | none, .integer, some value => .tree (literal value token.position) (c.advance tokens)
      | none, .decimal, some value => .tree (literal value token.position) (c.advance tokens)
      | none, .opening, _ =>
          match inBrackets (c.advance tokens) with
          | .lapse lapse stop => .lapse lapse stop
          | .tree inner next =>
              if kindAt tokens next.index = .closing then .tree inner (next.advance tokens)
              else .lapse .closingDue next
      | none, _, _ => .lapse .operandDue c

/-- What a rule comes to one sign or bracket further in. -/
def deeper (rule : Rule) : Rule := fun c =>
  match rule { c with depth := c.depth + 1 } with
  | .tree tree next => .tree tree { next with depth := next.depth - 1 }
  | .lapse lapse stop => .lapse lapse { stop with depth := stop.depth - 1 }

/-- No sign or bracket may be opened here.  As many are open as the limit allows. -/
def barred : Rule := fun c => .lapse (.tooDeep c.depth) c

/-! ### The grammar -/

/-- Reads a factor, inside which `room` more signs and brackets may be open at once. -/
def factor (tokens : Array Token) : Nat → Cursor → Outcome
  | 0, c => primary tokens barred barred c
  | room + 1, c =>
      primary tokens (deeper (factor tokens room)) (deeper (sum tokens (factor tokens room))) c

/-- Reads a term, inside which `room` more signs and brackets may be open at once. -/
def term (tokens : Array Token) (room : Nat) : Rule :=
  chain tokens Kind.multiplicative? (factor tokens room)

/-- Reads an expression, inside which `room` more signs and brackets may be open at once. -/
def expression (tokens : Array Token) (room : Nat) : Rule := sum tokens (factor tokens room)

/-- Reads an expression and the end mark behind it. -/
def whole (tokens : Array Token) (limit : Nat) : Outcome :=
  match expression tokens limit Cursor.start with
  | .lapse lapse stop => .lapse lapse stop
  | .tree tree next =>
      if kindAt tokens next.index = .ending then .tree tree next else .lapse .operationDue next

/-! ### The reader -/

/-- The tree that the tokens of the text named `source` form, with at most `limit` signs and
brackets open at once. -/
def ofTokens (source : String) (limit : Nat) (tokens : Array Token) :
    Logged (Except Fault Expr) :=
  let events := fun (c : Cursor) =>
    .reading tokens.size source ::
      (c.offered.reverse.filterMap (tokenAt? tokens)).map Event.offered
  match whole tokens limit with
  | .lapse lapse stop =>
      ⟨.error ⟨.ungrammatical lapse, source, positionAt tokens stop.index⟩, events stop⟩
  | .tree tree next => ⟨.ok tree, events next ++ [.read tree.position]⟩

end Reckoner.Expr
