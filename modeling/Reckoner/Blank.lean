/-
**White space.**

The characters with the Unicode property *White_Space*, which decide what the end of a text is and
which lines are blank.  They are more than the separators of tokens.

Main definitions:

* `Reckoner.isBlank` — the property;
* `Reckoner.trimEnd` — a text without the white space at its end.
-/

set_option relaxedAutoImplicit false
set_option autoImplicit false

namespace Reckoner

/-- Does the character have the property *White_Space*? -/
def isBlank (c : Char) : Bool :=
  let n := c.toNat
  decide (0x09 ≤ n ∧ n ≤ 0x0D) || n == 0x20 || n == 0x85 || n == 0xA0 || n == 0x1680 ||
    decide (0x2000 ≤ n ∧ n ≤ 0x200A) || n == 0x2028 || n == 0x2029 || n == 0x202F || n == 0x205F ||
    n == 0x3000

/-- Drops the characters that satisfy `p` from the end of a text. -/
def dropEndWhile (p : Char → Bool) (text : List Char) : List Char :=
  (text.reverse.dropWhile p).reverse

/-- A text without the white space at its end. -/
def trimEnd (text : List Char) : List Char := dropEndWhile isBlank text

end Reckoner
