/-
**Lexemes: cutting a text into tokens.**

A text is read once, character by character, by a scanner that remembers where it is, the lexemes
cut off so far, the numeral it may be in the middle of, and the character that it could not place,
if it met one.  Such a character ends the scan for good.  Spaces, tabs and line feeds separate
lexemes and mean nothing else.  A numeral is a row of ASCII digits with at most one point behind
its first digit, as long as it can be made.

Main definitions:

* `Reckoner.Lexeme` — a stretch of text with the token it makes;
* `Reckoner.Numeral` — a numeral in the middle of being read;
* `Reckoner.Scan`, `Reckoner.Scan.step`, `Reckoner.Scan.ofText` — the scanner, its step, and the
  scan of a whole text;
* `Reckoner.tokenize` — the tokens of a text, with the events of cutting them.
-/

import Reckoner.Event
import Reckoner.Fault

set_option relaxedAutoImplicit false
set_option autoImplicit false

namespace Reckoner

/-- A stretch of text and the token it makes. -/
structure Lexeme where
  text : List Char
  token : Token
deriving DecidableEq

/-! ### Numerals -/

/-- A numeral in the middle of being read. -/
structure Numeral where
  /-- The place of its first digit. -/
  position : Position
  /-- Its characters so far, the last one first. -/
  reversed : List Char
  /-- Is there a point among them? -/
  pointed : Bool
deriving DecidableEq

namespace Numeral

/-- Does the numeral go on with the character `c`? -/
def continuesWith (n : Numeral) (c : Char) : Bool :=
  c.isDigit || (c == '.' && !n.pointed)

/-- The numeral with one more character. -/
def push (n : Numeral) (c : Char) : Numeral :=
  { n with reversed := c :: n.reversed, pointed := n.pointed || c == '.' }

/-- The lexeme that a numeral makes when it goes on no further. -/
def lexeme (n : Numeral) : Lexeme :=
  let text := n.reversed.reverse
  let kind := if n.pointed then Kind.decimal else Kind.integer
  ⟨text, ⟨kind, some (Number.ofLiteral text), n.position⟩⟩

end Numeral

/-! ### The scanner -/

/-- Is the character a mere separator? -/
def isSeparator (c : Char) : Bool :=
  c == ' ' || c == '\t' || c == '\n'

/-- A scan under way. -/
structure Scan where
  /-- The place of the next character, or of the one that could not be placed. -/
  position : Position
  /-- The lexemes cut off so far, the last one first. -/
  lexemes : List Lexeme
  /-- The numeral that is not finished yet. -/
  numeral : Option Numeral
  /-- The character that belongs to no lexeme. -/
  offender : Option Char
deriving DecidableEq

namespace Scan

/-- The scan of no text yet. -/
def start : Scan := ⟨Position.start, [], none, none⟩

/-- Finishes the open numeral, if there is one. -/
def close (s : Scan) : Scan :=
  match s.numeral with
  | some n => { s with lexemes := n.lexeme :: s.lexemes, numeral := none }
  | none => s

/-- Reads a character while no numeral is open. -/
def enter (s : Scan) (c : Char) : Scan :=
  if isSeparator c then { s with position := s.position.advance c }
  else if c.isDigit then
    { s with position := s.position.advance c, numeral := some ⟨s.position, [c], false⟩ }
  else
    match Kind.ofSymbol? c with
    | some kind =>
        { s with
          position := s.position.advance c
          lexemes := ⟨[c], ⟨kind, none, s.position⟩⟩ :: s.lexemes }
    | none => { s with offender := some c }

/-- Reads a character. -/
def step (s : Scan) (c : Char) : Scan :=
  match s.offender, s.numeral with
  | some _, _ => s
  | none, none => s.enter c
  | none, some n =>
      if n.continuesWith c then
        { s with position := s.position.advance c, numeral := some (n.push c) }
      else s.close.enter c

/-- The scan of a whole text. -/
def ofText (text : List Char) : Scan := (text.foldl step start).close

/-- The tokens of a finished scan with the end mark behind them, or the fault that ended it. -/
def tokens (s : Scan) (source : String) : Except Fault (Array Token) :=
  match s.offender with
  | some c => .error ⟨.illegal c, source, s.position⟩
  | none =>
      let mark : Token := ⟨.ending, none, s.position⟩
      .ok ((s.lexemes.map Lexeme.token).reverse ++ [mark]).toArray

end Scan

/-! ### Events -/

namespace Lexeme

/-- The events of cutting off a lexeme. -/
def events (l : Lexeme) : List Event :=
  match l.token with
  | ⟨.integer, some (.float _), _⟩ => [.oversize l.text, .token l.token]
  | _ => [.token l.token]

end Lexeme

/-- Cuts the text named `source` into tokens. -/
def tokenize (source text : String) : Logged (Except Fault (Array Token)) :=
  let scan := Scan.ofText text.toList
  let opened := .scanning text.length source :: scan.lexemes.reverse.flatMap Lexeme.events
  match scan.tokens source with
  | .error fault => ⟨.error fault, opened⟩
  | .ok tokens => ⟨.ok tokens, opened ++ [.scanned tokens.size]⟩

theorem value_tokenize (source text : String) :
    (tokenize source text).value = (Scan.ofText text.toList).tokens source := by
  simp only [tokenize]
  cases (Scan.ofText text.toList).tokens source <;> rfl

end Reckoner
