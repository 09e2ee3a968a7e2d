/-
**Positions in a text.**

A position says how many characters precede a place in a text, on which line the place is and how
far into that line.  Characters are Unicode scalar values, and only the line feed ends a line.

Main definitions:

* `Reckoner.Position` — an offset, a line and a column;
* `Reckoner.Position.advance`, `Reckoner.Position.advanceOver` — the position behind one character,
  and behind a stretch of text;
* `Reckoner.Position.trail` — every position passed on the way over a stretch of text.
-/

set_option relaxedAutoImplicit false
set_option autoImplicit false

namespace Reckoner

/-- A place in a text.  Offset and column count from `0`, the line counts from `1`. -/
structure Position where
  /-- The number of characters before the place. -/
  offset : Nat
  /-- One more than the number of line feeds before the place. -/
  line : Nat
  /-- The number of characters between the last line feed, or the start, and the place. -/
  column : Nat
deriving DecidableEq

namespace Position

/-- The place of the first character of a text. -/
def start : Position := ⟨0, 1, 0⟩

/-- The place behind the character `c`: a line feed opens the next line, all else moves along the
current one. -/
def advance (p : Position) (c : Char) : Position :=
  if c = '\n' then ⟨p.offset + 1, p.line + 1, 0⟩ else ⟨p.offset + 1, p.line, p.column + 1⟩

/-- The place behind a stretch of text. -/
def advanceOver (p : Position) (text : List Char) : Position :=
  text.foldl advance p

@[simp] theorem advanceOver_nil (p : Position) : p.advanceOver [] = p := rfl

@[simp] theorem advanceOver_cons (p : Position) (c : Char) (text : List Char) :
    p.advanceOver (c :: text) = (p.advance c).advanceOver text := rfl

theorem advanceOver_append (p : Position) (first second : List Char) :
    p.advanceOver (first ++ second) = (p.advanceOver first).advanceOver second := by
  simp [advanceOver, List.foldl_append]

/-- The places passed while moving over a stretch of text, its two ends included. -/
def trail (p : Position) : List Char → List Position
  | [] => [p]
  | c :: text => p :: trail (p.advance c) text

end Position

end Reckoner
