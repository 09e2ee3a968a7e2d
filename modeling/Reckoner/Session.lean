/-
**Interactive sessions.**

A session prompts for a line, answers it and prompts again until its input ends.  A line is an
expression, whose value is the answer, or a request to show the tree of one; a blank line gets no
answer.  No line has an influence on another, so a session is the sequence of its answers.

An input is a text.  A standard input holds bytes, and where these are no text in UTF-8 a session
cannot read its next line: it ends there with an error of input, and without the farewell.  No
definition of this module has that error, so what is shown of sessions is about texts only.

Main definitions:

* `Reckoner.Session.answer` — the answer to a line;
* `Reckoner.Session.lines` — the lines of an input;
* `Reckoner.Session.transcript` — all that a session prints on an input.
-/

import Reckoner.Calculation

set_option relaxedAutoImplicit false
set_option autoImplicit false

namespace Reckoner.Session

/-- What is printed before a line is read. -/
def prompt : String := "calc > "

/-- What is printed when the input ends. -/
def farewell : String := "\n"

/-- The beginning of a line that asks for a tree. -/
def treeRequest : List Char := [':', 'a', 's', 't']

/-- The result of a calculation, or the report of its fault, on a line of its own. -/
def reply {α : Type} (text : α → String) : Except Fault α → String
  | .ok result => text result ++ "\n"
  | .error fault => fault.text ++ "\n"

/-- The answer to a line, whose line feed may still be at its end. -/
def answer (settings : Settings) (line : List Char) : String :=
  let content := dropEndWhile (fun c => c == '\n' || c == '\r') line
  if content.all isBlank then ""
  else if treeRequest.isPrefixOf content then
    let source := String.ofList (content.drop treeRequest.length)
    reply Expr.text (readTree settings source).value
  else reply Number.text (calculate settings (String.ofList content)).value

/-- The lines of an input, each with the line feed that ends it.  The last one may lack it. -/
def lines : List Char → List (List Char)
  | [] => []
  | c :: rest =>
      if c = '\n' then [c] :: lines rest
      else
        match lines rest with
        | [] => [[c]]
        | line :: more => (c :: line) :: more

/-- All that a session prints on an input. -/
def transcript (settings : Settings) (input : String) : String :=
  let turns := (lines input.toList).map fun line => prompt ++ answer settings line
  String.join turns ++ prompt ++ farewell

end Reckoner.Session
