/-
**The command line: an interactive session on standard input and output.**

Lines are read as texts, as `Reckoner/Session.lean` takes them.  Bytes that are no text in UTF-8 are
not told apart here: the stream gives other characters in their place, and the session goes on.

Main definitions:

* `Reckoner.Session.converse` — a session that reads line by line;
* `main` — such a session with the standard settings.
-/

import Reckoner.Session

set_option relaxedAutoImplicit false
set_option autoImplicit false

namespace Reckoner.Session

/-- Prompts, reads a line and answers it, until the input ends. -/
partial def converse (settings : Settings) (input output : IO.FS.Stream) : IO Unit := do
  output.putStr prompt
  output.flush
  let line ← input.getLine
  if line.isEmpty then
    output.putStr farewell
    output.flush
  else
    output.putStr (answer settings line.toList)
    converse settings input output

end Reckoner.Session

/-- Holds a session on standard input and output. -/
def main : IO Unit := do
  Reckoner.Session.converse Reckoner.Settings.standard (← IO.getStdin) (← IO.getStdout)
