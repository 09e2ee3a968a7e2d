/-
**Sessions are made of turns.**

An interactive session is a loop.  In each turn it prompts and reads a line, which it then answers;
where it finds nothing to read, it takes its leave.  What it prints in a turn is told by the line
alone, so that the whole of it is known as soon as the lines are.

This module follows the loop.  A turn passes over one line and leaves everything behind it as it
was, so a session that has got to the end of a line goes on as one that begins there.  This holds
as well where the input ends, or where one input is continued by another, and whatever the answers
were: a value, a tree, the report of a fault, or nothing at all.

Main definitions:

* `Reckoner.Session.readLine`, `Reckoner.Session.proceed` — the loop;
* `Reckoner.Session.turns` — what a session prints in its turns;
* `Reckoner.Session.WholeLines` — texts at the end of which no line is under way.

Main results:

* `Reckoner.Session.proceed_line`, `Reckoner.Session.proceed_last` — a single turn;
* `Reckoner.Session.transcript_eq_proceed` — the loop prints the transcript of its input;
* `Reckoner.Session.proceed_append` — **the loop gets through whole lines as if nothing followed**;
* `Reckoner.Session.transcript_append` — **sessions on two inputs make a session on both**.
-/

import Reckoner.Session

set_option relaxedAutoImplicit false
set_option autoImplicit false

namespace Reckoner.Session

/-! ### The loop -/

/-- Reads a line: the characters up to the first line feed, with it, or all that there are.  The
rest is left unread. -/
def readLine : List Char → List Char × List Char
  | [] => ([], [])
  | c :: rest =>
      if c = '\n' then ([c], rest)
      else
        let (line, unread) := readLine rest
        (c :: line, unread)

/-- A line that ends is read without a look at what follows it. -/
theorem readLine_line {content : List Char} (h : '\n' ∉ content) (rest : List Char) :
    readLine (content ++ '\n' :: rest) = (content ++ ['\n'], rest) := by
  induction content with
  | nil => rfl
  | cons c content ih =>
      rw [List.mem_cons, not_or] at h
      simp [readLine, ih h.2, Ne.symm h.1]

theorem readLine_last {content : List Char} (h : '\n' ∉ content) :
    readLine content = (content, []) := by
  induction content with
  | nil => rfl
  | cons c content ih =>
      rw [List.mem_cons, not_or] at h
      simp [readLine, ih h.2, Ne.symm h.1]

/-- A line is taken off what there is to read. -/
theorem length_readLine (text : List Char) :
    (readLine text).1.length + (readLine text).2.length = text.length := by
  induction text with
  | nil => rfl
  | cons c text ih =>
      rw [readLine]
      split
      · simp [Nat.add_comm]
      · simp only [List.length_cons]
        omega

/-- Holds a session that has printed something already: prompts and reads a line, which it answers
before it begins again; where there is none, it takes its leave. -/
def proceed (settings : Settings) (printed : String) (unread : List Char) : String :=
  match _read : readLine unread with
  | ([], _) => printed ++ prompt ++ farewell
  | (c :: line, rest) => proceed settings (printed ++ prompt ++ answer settings (c :: line)) rest
termination_by unread.length
decreasing_by
  have hlength := length_readLine unread
  rw [_read, List.length_cons] at hlength
  simp only at hlength ⊢
  omega

/-- Line feeds at the end of a line make no difference to its answer. -/
theorem answer_lineFeed (settings : Settings) (content : List Char) :
    answer settings (content ++ ['\n']) = answer settings content := by
  simp [answer, dropEndWhile]

section Turns

variable {settings : Settings} {content : List Char}

/-! ### Turns -/

theorem proceed_nil (settings : Settings) (printed : String) :
    proceed settings printed [] = printed ++ prompt ++ farewell := by
  rw [proceed]
  rfl

theorem proceed_of_readLine {unread line rest : List Char} (h : readLine unread = (line, rest))
    (hne : line ≠ []) (printed : String) : proceed settings printed unread =
      proceed settings (printed ++ prompt ++ answer settings line) rest := by
  obtain ⟨c, line, rfl⟩ := List.exists_cons_of_ne_nil hne
  rw [proceed]
  split
  · next hread => rw [h] at hread; cases hread
  · next hread => rw [h] at hread; cases hread; rfl

/-- **A turn answers its line and leaves what is behind it as it was.** -/
theorem proceed_line (h : '\n' ∉ content) (printed : String) (rest : List Char) :
    proceed settings printed (content ++ '\n' :: rest) =
      proceed settings (printed ++ prompt ++ answer settings content) rest := by
  rw [proceed_of_readLine (readLine_line h rest) (by simp), answer_lineFeed]

/-- The last line of an input need not end. -/
theorem proceed_last (h : '\n' ∉ content) (hne : content ≠ []) (printed : String) :
    proceed settings printed content =
      printed ++ prompt ++ answer settings content ++ prompt ++ farewell := by
  rw [proceed_of_readLine (readLine_last h) hne, proceed_nil]

/-! ### Lines -/

/-- **The lines of an input are what the loop reads.** -/
theorem lines_eq_cons {text : List Char} (hne : text ≠ []) :
    lines text = (readLine text).1 :: lines (readLine text).2 := by
  induction text with
  | nil => exact absurd rfl hne
  | cons c text ih =>
      rw [lines, readLine]
      split
      · rfl
      · cases text with
        | nil => rfl
        | cons d text => rw [ih (by simp)]

theorem lines_line (h : '\n' ∉ content) (rest : List Char) :
    lines (content ++ '\n' :: rest) = (content ++ ['\n']) :: lines rest := by
  rw [lines_eq_cons (by simp), readLine_line h]

theorem lines_last (h : '\n' ∉ content) (hne : content ≠ []) : lines content = [content] := by
  rw [lines_eq_cons hne, readLine_last h, lines]

/-- A text is empty, or a single line that does not end, or begins with one that does. -/
@[elab_as_elim]
theorem linesInduction {motive : List Char → Prop} (nil : motive [])
    (last : ∀ content, '\n' ∉ content → content ≠ [] → motive content)
    (line : ∀ content rest, '\n' ∉ content → motive rest → motive (content ++ '\n' :: rest))
    (text : List Char) : motive text := by
  induction hn : text.length using Nat.strongRecOn generalizing text with
  | ind n ih =>
      by_cases hmem : '\n' ∈ text
      · obtain ⟨content, rest, rfl, h⟩ := List.eq_append_cons_of_mem hmem
        have hshorter : rest.length < n := by
          rw [← hn, List.length_append, List.length_cons]
          omega
        exact line content rest h (ih rest.length hshorter rest rfl)
      · by_cases hne : text = []
        · rw [hne]
          exact nil
        · exact last text hmem hne

/-- What a session prints in its turns. -/
def turns (settings : Settings) (input : List Char) : String :=
  String.join ((lines input).map fun line => prompt ++ answer settings line)

theorem transcript_eq_turns (settings : Settings) (input : String) :
    transcript settings input = turns settings input.toList ++ prompt ++ farewell := rfl

theorem turns_nil (settings : Settings) : turns settings [] = "" := rfl

theorem turns_line (h : '\n' ∉ content) (rest : List Char) :
    turns settings (content ++ '\n' :: rest) =
      prompt ++ answer settings content ++ turns settings rest := by
  rw [turns, lines_line h, List.map_cons, answer_lineFeed, String.join_cons, turns]

theorem turns_last (h : '\n' ∉ content) (hne : content ≠ []) :
    turns settings content = prompt ++ answer settings content := by
  rw [turns, lines_last h hne, List.map_singleton, String.join_cons, String.join_nil,
    String.append_empty]

/-- **The loop goes from turn to turn.** -/
theorem proceed_eq (settings : Settings) (unread : List Char) : ∀ printed : String,
    proceed settings printed unread = printed ++ turns settings unread ++ prompt ++ farewell := by
  induction unread using linesInduction with
  | nil =>
      intro printed
      rw [proceed_nil, turns_nil, String.append_empty]
  | last content h hne =>
      intro printed
      rw [proceed_last h hne, turns_last h hne, ← String.append_assoc]
  | line content rest h ih =>
      intro printed
      rw [proceed_line h, ih, turns_line h]
      simp only [String.append_assoc]

/-- The loop prints the transcript of its input. -/
theorem transcript_eq_proceed (settings : Settings) (input : String) :
    transcript settings input = proceed settings "" input.toList := by
  rw [proceed_eq, String.empty_append, transcript_eq_turns]

/-! ### Inputs in two parts -/

/-- At the end of the text no line is under way. -/
def WholeLines (text : List Char) : Prop := text = [] ∨ text.getLast? = some '\n'

theorem WholeLines.of_line {rest : List Char} (h : WholeLines (content ++ '\n' :: rest)) :
    WholeLines rest := by
  rcases List.eq_nil_or_concat rest with rfl | ⟨rest, c, rfl⟩
  · exact Or.inl rfl
  · right
    rw [WholeLines, List.concat_eq_append, ← List.cons_append, ← List.append_assoc,
      List.getLast?_concat] at h
    rw [List.concat_eq_append, List.getLast?_concat]
    exact h.resolve_left (by simp)

/-- **The loop gets through whole lines as if nothing followed**, and begins with what follows them
as it would begin on its own. -/
theorem proceed_append {first : List Char} (h : WholeLines first) (second : List Char) :
    ∀ printed : String, proceed settings printed (first ++ second) =
      proceed settings (printed ++ turns settings first) second := by
  induction first using linesInduction with
  | nil =>
      intro printed
      rw [turns_nil, String.append_empty, List.nil_append]
  | last content hcontent hne =>
      -- the line would have to end with a line feed
      rcases h with h | h
      · exact absurd h hne
      · exact absurd (List.mem_of_getLast? h) hcontent
  | line content rest hcontent ih =>
      intro printed
      rw [List.append_assoc, List.cons_append, proceed_line hcontent, ih h.of_line,
        turns_line hcontent]
      simp only [String.append_assoc]

section Transcripts

variable {first line : String}

theorem transcript_of_wholeLines (h : WholeLines first.toList) (second : String) :
    transcript settings (first ++ second) =
      turns settings first.toList ++ transcript settings second := by
  rw [transcript_eq_proceed, String.toList_append, proceed_append h, String.empty_append,
    proceed_eq, transcript_eq_turns]
  simp only [String.append_assoc]

theorem transcript_line (h : '\n' ∉ line.toList) (second : String) :
    transcript settings (line ++ "\n" ++ second) =
      prompt ++ answer settings line.toList ++ transcript settings second := by
  have hsplit : (line ++ "\n" ++ second).toList = line.toList ++ '\n' :: second.toList := by
    simp
  rw [transcript_eq_turns, hsplit, turns_line h, transcript_eq_turns]
  simp only [String.append_assoc]

theorem transcript_last (h : '\n' ∉ line.toList) (hne : line ≠ "") :
    transcript settings line = prompt ++ answer settings line.toList ++ prompt ++ farewell := by
  rw [transcript_eq_turns, turns_last h (by simpa using hne)]

end Transcripts

end Turns

/-- **Sessions on two inputs make a session on both.**  If no line is under way at the end of the
first input, then what is printed on the two in a row is what is printed in the turns of the first
one, its last prompt and the leave left out, and then all that is printed on the second one.  So a
line adds its own prompt and its own answer, wherever it stands and whether or not it ends. -/
theorem transcript_append (settings : Settings) (first second : String)
    (h : first = "" ∨ first.toList.getLast? = some '\n') :
    ∃ printed, transcript settings first = printed ++ "calc > \n" ∧
      transcript settings (first ++ second) = printed ++ transcript settings second ∧
      ∀ line : String, '\n' ∉ line.toList →
        transcript settings (first ++ (line ++ "\n" ++ second)) =
          printed ++ ("calc > " ++ answer settings line.toList ++ transcript settings second) ∧
        (line ≠ "" → transcript settings (first ++ line) =
          printed ++ ("calc > " ++ answer settings line.toList ++ "calc > " ++ "\n")) := by
  have hwhole : WholeLines first.toList := h.imp_left fun hempty => by rw [hempty]; rfl
  refine ⟨turns settings first.toList, ?_, transcript_of_wholeLines hwhole second, ?_⟩
  · have hend : "calc > \n" = prompt ++ farewell := by decide
    rw [transcript_eq_turns, hend, String.append_assoc]
  · intro line hline
    constructor
    · rw [transcript_of_wholeLines hwhole, transcript_line hline, prompt]
    · intro hne
      rw [transcript_of_wholeLines hwhole, transcript_last hline hne, prompt, farewell]

/-- A report on two lines, a blank line, a tree, and a line that does not end. -/
theorem transcript_append_unended :
    "1+\n \n:ast 2-3*4\n".toList.getLast? = some '\n' ∧
    transcript .standard ("1+\n \n:ast 2-3*4\n" ++ "6/4") =
      "calc > Invalid syntax: expected int or float\nFile <stdin>, line 1\n" ++ "calc > " ++
        "calc > (2 - (3 * 4))\n" ++ "calc > 1.5\ncalc > \n" := by
  have hends : "1+\n \n:ast 2-3*4\n".toList.getLast? = some '\n' := by decide
  have hfirst : transcript .standard "1+\n \n:ast 2-3*4\n" =
      ("calc > Invalid syntax: expected int or float\nFile <stdin>, line 1\n" ++ "calc > " ++
        "calc > (2 - (3 * 4))\n") ++ "calc > \n" := by
    decide +kernel
  have hsecond : transcript .standard "6/4" = "calc > 1.5\ncalc > \n" := by decide +kernel
  obtain ⟨printed, hprinted, hboth, -⟩ :=
    transcript_append .standard "1+\n \n:ast 2-3*4\n" "6/4" (Or.inr hends)
  rw [hfirst, String.append_left_inj] at hprinted
  rw [hboth, hsecond, ← hprinted]
  exact ⟨hends, rfl⟩

end Reckoner.Session
