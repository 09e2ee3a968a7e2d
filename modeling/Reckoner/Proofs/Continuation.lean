/-
**A text that goes on is cut as before.**

Putting one text behind another does not change what has been cut off the first, nor how the second
is cut.  A fault of the first text stays the fault of both.  If the first text has none, its tokens
come first, without the mark behind them, and then those of the second text, or the fault of this
one, each at its place in the whole.  Only a numeral that reaches to the end of the first text might
go on, and it can do so only if the second one begins with a digit or a point.

The place of an item changes in a way that depends on the first text alone.  Its offset grows by the
length of that text, its line by the number of line feeds there, and its column by what follows the
last of these, but the column only if the item is on the first line of its own text.

Main definitions:

* `Reckoner.Position.shifted`, `Reckoner.Token.shifted`, `Reckoner.Fault.shifted` — items of a text
  as items of a longer one;
* `Reckoner.EndsInNumeral`, `Reckoner.BeginsAsNumeral` — texts between which a numeral may go on.

Main results:

* `Reckoner.Scan.tokens_behind` — the tokens of a scan behind another one;
* `Reckoner.tokenize_append` — **the tokens of a text in two parts, with their places**.
-/

import Reckoner.Proofs.Separation

set_option relaxedAutoImplicit false
set_option autoImplicit false

namespace Reckoner

/-! ### Places in a longer text -/

/-- The place of an item of a text, once the text `before` stands in front of it. -/
def Position.shifted (before : List Char) (q : Position) : Position where
  offset := q.offset + before.length
  line := q.line + before.count '\n'
  column :=
    if q.line = 1 then q.column + (before.reverse.takeWhile fun c => c != '\n').length
    else q.column

/-- The token at its place behind the text `before`. -/
def Token.shifted (before : List Char) (t : Token) : Token :=
  { t with position := t.position.shifted before }

/-- The fault at its place behind the text `before`. -/
def Fault.shifted (before : List Char) (f : Fault) : Fault :=
  { f with position := f.position.shifted before }

namespace Position

theorem one_le_line_advanceOver (text : List Char) : ∀ {p : Position}, 1 ≤ p.line →
    1 ≤ (p.advanceOver text).line := by
  induction text with
  | nil => exact fun h => h
  | cons c text ih => exact fun h => ih (one_le_line_advance h c)

/-- What is reached behind a text is moved by what the text consists of. -/
theorem beyond_eq_shifted {q : Position} (h : 1 ≤ q.line) (before : List Char) :
    (start.advanceOver before).beyond q = q.shifted before := by
  rw [advanceOver_start, beyond, shifted, behind]
  congr 1
  · exact Nat.add_comm _ _
  · dsimp only
    omega
  · split_ifs
    · exact Nat.add_comm _ _
    · rfl

end Position

/-- A tiling has no place before its first line. -/
theorem Tiles.one_le_line {p : Position} {text : List Char} {ls : List Lexeme}
    (h : Tiles p text ls) (hp : 1 ≤ p.line) : ∀ l ∈ ls, 1 ≤ l.token.position.line := by
  induction h with
  | done => simp
  | separator _ _ ih => exact ih (Position.one_le_line_advance hp _)
  | lexeme placed _ _ _ ih =>
      refine List.forall_mem_cons.2 ⟨by rwa [placed], ?_⟩
      exact ih (Position.one_le_line_advanceOver _ hp)

/-! ### Tokens in a longer text -/

namespace Scan

theorem one_le_line_ofText (text : List Char) : 1 ≤ (ofText text).position.line := by
  cases ho : (ofText text).offender with
  | none =>
      rw [position_ofText ho]
      exact Position.one_le_line_advanceOver text (Nat.le_refl 1)
  | some c =>
      obtain ⟨read, rest, -, -, hposition⟩ := exists_offender ho
      rw [hposition]
      exact Position.one_le_line_advanceOver read (Nat.le_refl 1)

theorem one_le_line_lexemes {text : List Char} (h : (ofText text).offender = none) :
    ∀ l ∈ (ofText text).lexemes, 1 ≤ l.token.position.line := by
  rw [offender_ofText] at h
  obtain ⟨ls, hls, htiles⟩ := tiles_of_foldl sound_start h
  intro l hl
  rw [ofText, hls] at hl
  exact htiles.one_le_line (Nat.le_refl 1) l (by simpa [start] using hl)

theorem offender_of_tokens {s : Scan} {source : String} {ts : Array Token}
    (h : s.tokens source = .ok ts) : s.offender = none := by
  cases ho : s.offender with
  | none => rfl
  | some c => simp [tokens, ho] at h

/-- **The tokens of a text behind another one**: the mark behind the tokens of the first text is
left out, and all places of the second one are moved. -/
theorem tokens_behind {first second : List Char} {source : String} {ts : Array Token}
    (h : (ofText first).tokens source = .ok ts) :
    ((ofText first).behind (ofText second)).tokens source =
      match (ofText second).tokens source with
      | .ok us => .ok (ts.pop ++ us.map (Token.shifted first))
      | .error fault => .error (fault.shifted first) := by
  have ho := offender_of_tokens h
  simp only [tokens, ho, Except.ok.injEq] at h
  subst h
  have hmoved {q : Position} (hq : 1 ≤ q.line) :
      (ofText first).position.beyond q = q.shifted first := by
    rw [position_ofText ho, Position.beyond_eq_shifted hq]
  have hend := hmoved (one_le_line_ofText second)
  cases hs : (ofText second).offender with
  | some c => simp [tokens, behind, hs, hend, Fault.shifted]
  | none =>
      have hlexemes : (ofText second).lexemes.map
            (fun l => (l.beyond (ofText first).position).token) =
          (ofText second).lexemes.map fun l => l.token.shifted first := by
        refine List.map_congr_left fun l hl => ?_
        rw [Lexeme.beyond, Token.shifted, hmoved (one_le_line_lexemes hs l hl)]
      simp [tokens, behind, hs, hend, Function.comp_def, hlexemes, Token.shifted]

end Scan

/-! ### Texts that go on -/

/-- A numeral reaches to the end of the text. -/
def EndsInNumeral (text : List Char) : Prop :=
  ∃ l ∈ (Scan.ofText text).lexemes, l.token.value.isSome ∧
    l.token.position.offset + l.text.length = text.length

/-- The text begins with a digit or a point. -/
def BeginsAsNumeral (text : List Char) : Prop := ∃ c ∈ text.head?, c.isDigit = true ∨ c = '.'

/-- The numeral that is open at the end of a text reaches to it. -/
theorem endsInNumeral_of_numeral {text : List Char} {n : Numeral}
    (h : (text.foldl Scan.step Scan.start).numeral = some n) : EndsInNumeral text := by
  refine ⟨n.lexeme, ?_, rfl, Scan.offset_of_numeral h⟩
  rw [Scan.ofText, Scan.close_of_some h]
  exact List.mem_cons_self

theorem seam_of_not_endsInNumeral {first second : List Char}
    (h : ¬ (EndsInNumeral first ∧ BeginsAsNumeral second)) : Seam first second := by
  intro n hn c hc
  have hplain : ¬ (c.isDigit = true ∨ c = '.') := fun hplain =>
    h ⟨endsInNumeral_of_numeral hn, c, hc, hplain⟩
  rw [not_or, Bool.not_eq_true] at hplain
  simp [Numeral.continuesWith, hplain]

/-- **A text that goes on is cut as before.**  A fault of the first part is the fault of the whole.
Otherwise the tokens of the first part end with a mark, and if no numeral goes on from one part into
the other, the whole is cut into the tokens before that mark and then into those of the second part,
or has the fault of the second part, with the places of the whole. -/
theorem tokenize_append (source first second : String) :
    (∀ fault, (tokenize source first).value = .error fault →
      (tokenize source (first ++ second)).value = .error fault) ∧
    ∀ tokens, (tokenize source first).value = .ok tokens →
      tokens.back? = some ⟨.ending, none, Position.behind first.toList⟩ ∧
      (¬ (EndsInNumeral first.toList ∧ BeginsAsNumeral second.toList) →
        (tokenize source (first ++ second)).value =
          match (tokenize source second).value with
          | .ok more => .ok (tokens.pop ++ more.map (Token.shifted first.toList))
          | .error fault => .error (fault.shifted first.toList)) := by
  constructor
  · intro fault h
    obtain ⟨c, ho, rfl⟩ := tokenize_eq_error_iff.1 h
    have hscan := Scan.ofText_append_of_offender ho second.toList
    rw [← String.toList_append] at hscan
    exact tokenize_eq_error_iff.2 ⟨c, by rwa [hscan], by rw [hscan]⟩
  · intro tokens h
    constructor
    · obtain ⟨ls, -, rfl⟩ := tokenize_eq_ok_iff.1 h
      simp [endMark, Position.advanceOver_start]
    · intro hpoint
      rw [value_tokenize] at h
      rw [value_tokenize, value_tokenize, String.toList_append, Scan.ofText_append
        (Scan.offender_of_tokens h) (seam_of_not_endsInNumeral hpoint), Scan.tokens_behind h]

/-- The first text ends with a numeral that ends with its point, and the second does not go on with
it.  Columns change on the first line of the second text only. -/
theorem tokenize_append_lines :
    (tokenize "sums" "1\n7.").value = .ok #[⟨.integer, some (.int 1), ⟨0, 1, 0⟩⟩,
      ⟨.decimal, some (.float 7), ⟨2, 2, 0⟩⟩, ⟨.ending, none, ⟨4, 2, 2⟩⟩] ∧
    (tokenize "sums" "*\n2").value = .ok #[⟨.star, none, ⟨0, 1, 0⟩⟩,
      ⟨.integer, some (.int 2), ⟨2, 2, 0⟩⟩, ⟨.ending, none, ⟨3, 2, 1⟩⟩] ∧
    (tokenize "sums" ("1\n7." ++ "*\n2")).value = .ok #[⟨.integer, some (.int 1), ⟨0, 1, 0⟩⟩,
      ⟨.decimal, some (.float 7), ⟨2, 2, 0⟩⟩, ⟨.star, none, ⟨4, 2, 2⟩⟩,
      ⟨.integer, some (.int 2), ⟨6, 3, 0⟩⟩, ⟨.ending, none, ⟨7, 3, 1⟩⟩] := by
  have hfirst : (tokenize "sums" "1\n7.").value = .ok #[⟨.integer, some (.int 1), ⟨0, 1, 0⟩⟩,
      ⟨.decimal, some (.float 7), ⟨2, 2, 0⟩⟩, ⟨.ending, none, ⟨4, 2, 2⟩⟩] := by
    decide +kernel
  have hsecond : (tokenize "sums" "*\n2").value = .ok #[⟨.star, none, ⟨0, 1, 0⟩⟩,
      ⟨.integer, some (.int 2), ⟨2, 2, 0⟩⟩, ⟨.ending, none, ⟨3, 2, 1⟩⟩] := by
    decide +kernel
  have hbegins : ¬ BeginsAsNumeral "*\n2".toList := by
    rintro ⟨c, hc, hplain⟩
    cases hc
    exact absurd hplain (by decide)
  have hboth := ((tokenize_append "sums" "1\n7." "*\n2").2 _ hfirst).2 fun h => hbegins h.2
  rw [hsecond] at hboth
  exact ⟨hfirst, hsecond, hboth.trans (by decide +kernel)⟩

end Reckoner
