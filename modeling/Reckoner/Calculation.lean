/-
**Calculations: from a text to its value.**

A calculation cuts a text into tokens, reads these as an expression and evaluates it; the first
fault ends it.  Calculations share nothing, so a batch of them is a list of single ones.

Main definitions:

* `Reckoner.Settings` — the name of the text and the limit on nesting;
* `Reckoner.readTree` — the tree of a text;
* `Reckoner.calculate`, `Reckoner.calculateAll` — the value of a text, and of each of several;
* `Reckoner.preview` — a text as reports quote it.
-/

import Reckoner.Blank
import Reckoner.Expr.OfTokens
import Reckoner.Expr.Value
import Reckoner.Lexeme

set_option relaxedAutoImplicit false
set_option autoImplicit false

namespace Reckoner

/-- What a calculation needs to know beside its text. -/
structure Settings where
  /-- The name of the text in reports of faults. -/
  source : String := "<stdin>"
  /-- How many signs and brackets may be open at once. -/
  maxDepth : Nat := 256
deriving DecidableEq

namespace Settings

/-- The settings for a text from standard input. -/
def standard : Settings := {}

/-- The standard settings for a text of another name. -/
def named (source : String) : Settings := { source }

end Settings

/-! ### Quoting a text -/

/-- The number of characters of a text that reports quote. -/
def previewSize : Nat := 64

/-- The beginning of a text; a longer text is followed by its length.  White space at the end of
the text does not count. -/
def preview (text : List Char) : List Char :=
  let kept := trimEnd text
  if previewSize < kept.length then
    kept.take previewSize ++
      ("... (" ++ toString kept.length ++ " chars)").toList
  else kept

/-! ### Calculating -/

/-- The tree of a text. -/
def readTree (settings : Settings) (text : String) : Logged (Except Fault Expr) :=
  match tokenize settings.source text with
  | ⟨.error fault, cutting⟩ => ⟨.error fault, cutting⟩
  | ⟨.ok tokens, cutting⟩ =>
      let tree := Expr.ofTokens settings.source settings.maxDepth tokens
      ⟨tree.value, cutting ++ tree.events⟩

theorem value_readTree (settings : Settings) (text : String) :
    (readTree settings text).value = (tokenize settings.source text).value.bind fun tokens =>
      (Expr.ofTokens settings.source settings.maxDepth tokens).value := by
  rw [readTree]
  split <;> next h => rw [h]; rfl

theorem readTree_of_tokenize {settings : Settings} {text : String} {tokens : Array Token}
    (h : (tokenize settings.source text).value = .ok tokens) :
    (readTree settings text).value =
      (Expr.ofTokens settings.source settings.maxDepth tokens).value := by
  rw [value_readTree, h]
  rfl

/-- The value of a text. -/
def calculate (settings : Settings) (text : String) : Logged (Except Fault Number) :=
  match readTree settings text with
  | ⟨.error fault, reading⟩ => ⟨.error fault, reading⟩
  | ⟨.ok tree, reading⟩ =>
      let ⟨value, evaluating⟩ := tree.evaluate
      ⟨.ok value, reading ++ evaluating ++ [.answered (preview text.toList) value]⟩

theorem value_calculate (settings : Settings) (text : String) :
    (calculate settings text).value =
      (readTree settings text).value.map fun tree => tree.evaluate.value := by
  rw [calculate]
  split <;> next h => rw [h]; rfl

/-- A text that is read as a tree has the value of the tree. -/
theorem calculate_of_readTree {settings : Settings} {text : String} {e : Expr}
    (h : (readTree settings text).value = .ok e) :
    (calculate settings text).value = .ok e.evaluate.value := by
  rw [value_calculate, h]
  rfl

/-- A text that is not cut into tokens has no value. -/
theorem calculate_of_tokenize_error {settings : Settings} {text : String} {fault : Fault}
    (h : (tokenize settings.source text).value = .error fault) :
    (calculate settings text).value = .error fault := by
  rw [value_calculate, value_readTree, h]
  rfl

/-- The values of several texts, in their order. -/
def calculateAll (settings : Settings) (texts : List String) : List (Except Fault Number) :=
  texts.map fun text => (calculate settings text).value

end Reckoner
