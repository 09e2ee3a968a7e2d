/-
**A scan tiles its text.**

The scanner of `Reckoner/Lexeme.lean` reads characters one by one into a state with an open numeral
and a position.  This module describes what it comes to without a state.  A text is a *tiling* if
it can be read off from the left as separators and lexemes, where a lexeme is one of the six
symbols or a numeral, and a numeral is as long as it can be made.  A tiling tells which lexemes it
consists of and where each of them stands, and every text has at most one.

Both directions are proved by following the text from the left.  A scan that stands inside a
numeral is treated as if it stood before that numeral: its characters read so far are put back in
front of the text, and the position is that of the first of them.

Main definitions:

* `Reckoner.Spells` — the characters that a token may be written with;
* `Reckoner.EndsNumeral` — no numeral goes on into a text;
* `Reckoner.Tiles` — **tilings**, with the place of the first character;
* `Reckoner.Position.behind` — the position behind a text in terms of its line feeds;
* `Reckoner.IsTiling` — the pieces of a whole text, and the tokens they make.

Main results:

* `Reckoner.Scan.tiles_of_foldl`, `Reckoner.Scan.foldl_of_tiles` — the scans that place every
  character are the tilings;
* `Reckoner.tokenize_eq_ok_iff` — so are the texts that are cut into tokens;
* `Reckoner.Position.advanceOver_start` — a position counts characters and line feeds;
* `Reckoner.tokenize_tiles` — **cutting a text into tokens leaves no character out, uses none
  twice, makes every numeral as long as it can be, and tells every place rightly**.
-/

import Reckoner.Lexeme
import Mathlib.Data.List.Induction
import Mathlib.Tactic.SplitIfs

set_option relaxedAutoImplicit false
set_option autoImplicit false

namespace Reckoner

/-! ### Tilings -/

/-- A row of digits, or two with a point between them of which the second may be empty.  The flag
tells whether there is a point. -/
inductive IsNumeral : List Char → Bool → Prop
  | whole {whole : List Char} (hne : whole ≠ []) (hw : ∀ c ∈ whole, c.isDigit = true) :
      IsNumeral whole false
  | pointed {whole fraction : List Char} (hne : whole ≠ []) (hw : ∀ c ∈ whole, c.isDigit = true)
      (hf : ∀ c ∈ fraction, c.isDigit = true) : IsNumeral (whole ++ '.' :: fraction) true

/-- The characters that a token may be written with.  The position of the token is left open. -/
inductive Spells : List Char → Token → Prop
  /-- A symbol is a token by itself. -/
  | symbol {c : Char} {kind : Kind} {p : Position} (h : Kind.ofSymbol? c = some kind) :
      Spells [c] ⟨kind, none, p⟩
  /-- A numeral is a token with the number it denotes. -/
  | numeral {text : List Char} {pointed : Bool} {p : Position} (h : IsNumeral text pointed) :
      Spells text ⟨if pointed then .decimal else .integer, some (Number.ofLiteral text), p⟩

/-- A numeral before this text is complete: the text does not begin with a digit or a point. -/
def EndsNumeral (text : List Char) : Prop := ∀ c ∈ text.head?, c.isDigit = false ∧ c ≠ '.'

/-- **Tilings**: the text whose first character stands at `p` consists of separators and of these
lexemes in their order, each with the place of its first character, and no numeral among them could
have been longer. -/
inductive Tiles : Position → List Char → List Lexeme → Prop
  | done {p : Position} : Tiles p [] []
  | separator {p : Position} {c : Char} {rest : List Char} {ls : List Lexeme}
      (h : isSeparator c = true) (more : Tiles (p.advance c) rest ls) : Tiles p (c :: rest) ls
  | lexeme {p : Position} {l : Lexeme} {rest : List Char} {ls : List Lexeme}
      (placed : l.token.position = p) (spelled : Spells l.text l.token)
      (ends : l.token.value.isSome → EndsNumeral rest)
      (more : Tiles (p.advanceOver l.text) rest ls) : Tiles p (l.text ++ rest) (l :: ls)

/-! ### Numerals -/

theorem ne_point_of_isDigit {c : Char} (h : c.isDigit = true) : (c == '.') = false := by
  refine beq_false_of_ne ?_
  rintro rfl
  exact absurd h (by decide)

theorem IsNumeral.ne_nil {text : List Char} {pointed : Bool} (h : IsNumeral text pointed) :
    text ≠ [] := by
  cases h with
  | whole hne _ => exact hne
  | pointed hne _ _ => simp

/-- A numeral has no characters but digits and a point. -/
theorem IsNumeral.not_mem {text : List Char} {pointed : Bool} {c : Char}
    (h : IsNumeral text pointed) (hd : c.isDigit = false) (hp : c ≠ '.') : c ∉ text := by
  have hdigits {ds : List Char} (hds : ∀ d ∈ ds, d.isDigit = true) : c ∉ ds := fun hc =>
    Bool.false_ne_true (hd.symm.trans (hds c hc))
  cases h with
  | whole _ hw => exact hdigits hw
  | pointed _ hw hf =>
      rw [List.mem_append, List.mem_cons, not_or, not_or]
      exact ⟨hdigits hw, hp, hdigits hf⟩

/-- A numeral goes on with a digit. -/
theorem IsNumeral.append_digit {text : List Char} {pointed : Bool} {c : Char}
    (h : IsNumeral text pointed) (hc : c.isDigit = true) : IsNumeral (text ++ [c]) pointed := by
  have hsnoc {ds : List Char} (hd : ∀ d ∈ ds, d.isDigit = true) :
      ∀ d ∈ ds ++ [c], d.isDigit = true := by
    intro d hmem
    rcases List.mem_append.1 hmem with hmem | hmem
    · exact hd d hmem
    · rwa [List.mem_singleton.1 hmem]
  cases h with
  | whole hne hw => exact .whole (by simp) (hsnoc hw)
  | pointed hne hw hf =>
      rw [List.append_assoc, List.cons_append]
      exact .pointed hne hw (hsnoc hf)

/-- A numeral without a point goes on with one. -/
theorem IsNumeral.append_point {text : List Char} (h : IsNumeral text false) :
    IsNumeral (text ++ ['.']) true := by
  cases h with
  | whole hne hw => exact .pointed hne hw (by simp)

namespace Numeral

/-- The characters of a numeral in their order. -/
def chars (n : Numeral) : List Char := n.reversed.reverse

theorem lexeme_text (n : Numeral) : n.lexeme.text = n.chars := rfl

theorem chars_push (n : Numeral) (c : Char) : (n.push c).chars = n.chars ++ [c] := by
  simp [chars, push]

theorem position_push (n : Numeral) (c : Char) : (n.push c).position = n.position := rfl

theorem isNumeral_push {n : Numeral} {c : Char} (h : IsNumeral n.chars n.pointed)
    (hc : n.continuesWith c = true) : IsNumeral (n.push c).chars (n.push c).pointed := by
  rw [chars_push]
  simp only [continuesWith, Bool.or_eq_true, Bool.and_eq_true, beq_iff_eq, Bool.not_eq_true'] at hc
  rcases hc with hc | ⟨rfl, hp⟩
  · simpa [push, ne_point_of_isDigit hc] using h.append_digit hc
  · rw [hp] at h
    simpa [push] using h.append_point

theorem spells_lexeme {n : Numeral} (h : IsNumeral n.chars n.pointed) :
    Spells n.lexeme.text n.lexeme.token := .numeral h

end Numeral

theorem endsNumeral_cons {c : Char} (hd : c.isDigit = false) (hp : c ≠ '.') (rest : List Char) :
    EndsNumeral (c :: rest) := by
  intro d hmem
  rw [List.head?_cons, Option.mem_some_iff] at hmem
  subst hmem
  exact ⟨hd, hp⟩

/-- No numeral goes on into a text that begins with something else. -/
theorem EndsNumeral.continuesWith {text : List Char} (h : EndsNumeral text)
    (n : Numeral) : ∀ c ∈ text.head?, n.continuesWith c = false := by
  intro c hc
  simp [Numeral.continuesWith, h c hc]

/-! ### From scans to tilings -/

namespace Scan

/-- The characters of the open numeral. -/
def pending (s : Scan) : List Char :=
  match s.numeral with
  | some n => n.chars
  | none => []

/-- The place of the first character of the open numeral, or of the next character. -/
def base (s : Scan) : Position :=
  match s.numeral with
  | some n => n.position
  | none => s.position

/-- The open numeral is one, and the scan stands behind it. -/
structure Sound (s : Scan) : Prop where
  placed : s.position = s.base.advanceOver s.pending
  isNumeral : ∀ n, s.numeral = some n → IsNumeral n.chars n.pointed

/-- A scan that met a character which it could not place has ended. -/
theorem foldl_step_of_offender {s : Scan} {c : Char} (h : s.offender = some c) (text : List Char) :
    text.foldl step s = s := by
  induction text with
  | nil => rfl
  | cons d text ih =>
      have hstep : s.step d = s := by simp only [step, h]
      rw [List.foldl_cons, hstep, ih]

theorem offender_eq_none_of_foldl (s : Scan) (text : List Char)
    (h : (text.foldl step s).offender = none) : s.offender = none := by
  cases ho : s.offender with
  | none => rfl
  | some c =>
      rw [foldl_step_of_offender ho, ho] at h
      cases h

/-- What becomes of a scan between lexemes when it reads a character that it can place. -/
theorem enter_cases {s : Scan} {c : Char} (h : (s.enter c).offender = none) :
    isSeparator c = true ∧ s.enter c = { s with position := s.position.advance c } ∨
    c.isDigit = true ∧ s.enter c =
      { s with position := s.position.advance c, numeral := some ⟨s.position, [c], false⟩ } ∨
    ∃ kind, Kind.ofSymbol? c = some kind ∧ s.enter c =
      { s with
        position := s.position.advance c
        lexemes := ⟨[c], ⟨kind, none, s.position⟩⟩ :: s.lexemes } := by
  simp only [enter] at h ⊢
  split_ifs with hs hd
  · exact Or.inl ⟨hs, rfl⟩
  · exact Or.inr (Or.inl ⟨hd, rfl⟩)
  · rw [if_neg hs, if_neg hd] at h
    cases hk : Kind.ofSymbol? c with
    | none => simp [hk] at h
    | some kind => exact Or.inr (Or.inr ⟨kind, rfl, rfl⟩)

/-- Reading a character between lexemes leaves a numeral open only if the character begins one. -/
theorem sound_enter {s : Scan} {c : Char} (hn : s.numeral = none)
    (ho : (s.enter c).offender = none) : (s.enter c).Sound := by
  rcases enter_cases ho with ⟨-, he⟩ | ⟨hd, he⟩ | ⟨kind, -, he⟩
  · rw [he]
    exact ⟨by simp [base, pending, hn], by simp [hn]⟩
  · have hnumeral : IsNumeral [c] false := .whole (by simp) (by simpa using hd)
    rw [he]
    exact ⟨rfl, fun n h => by rw [Option.some.injEq] at h; subst h; exact hnumeral⟩
  · rw [he]
    exact ⟨by simp [base, pending, hn], by simp [hn]⟩

/-- The lexemes that a scan cuts off a text are a tiling of it, the open numeral in front. -/
def Tiled (s : Scan) (text : List Char) : Prop :=
  ∃ ls, (text.foldl step s).close.lexemes = ls.reverse ++ s.lexemes ∧
    Tiles s.base (s.pending ++ text) ls

/-- Between lexemes, the next character is a separator or begins a lexeme. -/
theorem tiled_of_enter {s : Scan} {c : Char} {text : List Char} (hn : s.numeral = none)
    (ho : (s.enter c).offender = none) (ih : (s.enter c).Sound → (s.enter c).Tiled text) :
    ∃ ls, (text.foldl step (s.enter c)).close.lexemes = ls.reverse ++ s.lexemes ∧
      Tiles s.position (c :: text) ls := by
  obtain ⟨ls, hls, ht⟩ := ih (sound_enter hn ho)
  rcases enter_cases ho with ⟨hs, he⟩ | ⟨hd, he⟩ | ⟨kind, hk, he⟩
  · rw [he] at hls ht ⊢
    simp only [base, pending, hn, List.nil_append] at ht
    exact ⟨ls, hls, .separator hs ht⟩
  · rw [he] at hls ht ⊢
    exact ⟨ls, hls, ht⟩
  · rw [he] at hls ht ⊢
    simp only [base, pending, hn, List.nil_append] at ht
    refine ⟨⟨[c], ⟨kind, none, s.position⟩⟩ :: ls, by simp [hls], ?_⟩
    exact .lexeme (l := ⟨[c], ⟨kind, none, s.position⟩⟩) rfl (.symbol hk) (by simp) ht

/-- No numeral goes on into a text of which the next character begins something else. -/
theorem endsNumeral_of_enter {s : Scan} {n : Numeral} {c : Char} (text : List Char)
    (hc : n.continuesWith c = false) (ho : (s.enter c).offender = none) :
    EndsNumeral (c :: text) := by
  have hd : c.isDigit = false := by
    simp only [Numeral.continuesWith, Bool.or_eq_false_iff] at hc
    exact hc.1
  intro d hmem
  rw [List.head?_cons, Option.mem_some_iff] at hmem
  subst hmem
  refine ⟨hd, ?_⟩
  rintro rfl
  -- a point that no numeral takes up is the character that ends the scan
  simp [enter, isSeparator, hd, Kind.ofSymbol?] at ho

theorem close_of_none {s : Scan} (h : s.numeral = none) : s.close = s := by
  simp only [close, h]

theorem close_of_some {s : Scan} {n : Numeral} (h : s.numeral = some n) :
    s.close = { s with lexemes := n.lexeme :: s.lexemes, numeral := none } := by
  simp only [close, h]

theorem position_close (s : Scan) : s.close.position = s.position := by
  cases hn : s.numeral with
  | none => rw [close_of_none hn]
  | some n => rw [close_of_some hn]

theorem offender_close (s : Scan) : s.close.offender = s.offender := by
  cases hn : s.numeral with
  | none => rw [close_of_none hn]
  | some n => rw [close_of_some hn]

theorem numeral_close (s : Scan) : s.close.numeral = none := by
  cases hn : s.numeral with
  | none => rwa [close_of_none hn]
  | some n => rw [close_of_some hn]

theorem step_of_none {s : Scan} {c : Char} (ho : s.offender = none) (hn : s.numeral = none) :
    s.step c = s.enter c := by
  simp only [step, ho, hn]

theorem step_of_continues {s : Scan} {n : Numeral} {c : Char} (ho : s.offender = none)
    (hn : s.numeral = some n) (hc : n.continuesWith c = true) :
    s.step c = { s with position := s.position.advance c, numeral := some (n.push c) } := by
  simp only [step, ho, hn, hc, if_true]

theorem step_of_ends {s : Scan} {n : Numeral} {c : Char} (ho : s.offender = none)
    (hn : s.numeral = some n) (hc : n.continuesWith c = false) :
    s.step c = s.close.enter c := by
  simp only [step, ho, hn, hc, Bool.false_eq_true, if_false]

theorem Sound.push {s : Scan} {n : Numeral} {c : Char} (hs : s.Sound) (hn : s.numeral = some n)
    (hc : n.continuesWith c = true) :
    Sound { s with position := s.position.advance c, numeral := some (n.push c) } := by
  have hplaced := hs.placed
  simp only [base, pending, hn] at hplaced
  constructor
  · simp only [base, pending, Numeral.chars_push, Numeral.position_push,
      Position.advanceOver_append, ← hplaced, Position.advanceOver_cons, Position.advanceOver_nil]
  · rintro _ ⟨⟩
    exact Numeral.isNumeral_push (hs.isNumeral n hn) hc

theorem Sound.step {s : Scan} {c : Char} (hs : s.Sound) (ho : s.offender = none)
    (h : (s.step c).offender = none) : (s.step c).Sound := by
  cases hn : s.numeral with
  | none =>
      rw [step_of_none ho hn] at h ⊢
      exact sound_enter hn h
  | some n =>
      cases hc : n.continuesWith c with
      | true =>
          rw [step_of_continues ho hn hc]
          exact hs.push hn hc
      | false =>
          rw [step_of_ends ho hn hc] at h ⊢
          exact sound_enter (numeral_close s) h

theorem Sound.foldl {text : List Char} : ∀ {s : Scan}, s.Sound →
    (text.foldl Scan.step s).offender = none → (text.foldl Scan.step s).Sound := by
  induction text with
  | nil => intro s hs _; exact hs
  | cons c text ih =>
      intro s hs ho
      have hclean := offender_eq_none_of_foldl s (c :: text) ho
      exact ih (hs.step hclean (offender_eq_none_of_foldl (s.step c) text ho)) ho

theorem sound_start : start.Sound := ⟨rfl, fun n h => by cases h⟩

/-- **The lexemes of a scan that can place every character tile the text.** -/
theorem tiles_of_foldl {text : List Char} : ∀ {s : Scan}, s.Sound →
    (text.foldl step s).offender = none → s.Tiled text := by
  induction text with
  | nil =>
      intro s hs _
      cases hn : s.numeral with
      | none =>
          refine ⟨[], by simp [close_of_none hn], ?_⟩
          simpa [pending, hn] using Tiles.done
      | some n =>
          refine ⟨[n.lexeme], by simp [close_of_some hn], ?_⟩
          simp only [base, pending, hn]
          have hends : EndsNumeral [] := by simp [EndsNumeral]
          exact .lexeme rfl (Numeral.spells_lexeme (hs.isNumeral n hn)) (fun _ => hends) .done
  | cons c text ih =>
      intro s hs ho
      have hstep := offender_eq_none_of_foldl (s.step c) text ho
      have hclean := offender_eq_none_of_foldl s (c :: text) ho
      rw [List.foldl_cons] at ho
      rw [Tiled, List.foldl_cons]
      cases hn : s.numeral with
      | none =>
          -- the character begins a lexeme or is a separator
          rw [step_of_none hclean hn] at ho hstep ⊢
          simp only [base, pending, hn, List.nil_append]
          exact tiled_of_enter hn hstep fun h => ih h ho
      | some n =>
          simp only [base, pending, hn]
          cases hc : n.continuesWith c with
          | true =>
              -- the numeral stays open and keeps its place
              rw [step_of_continues hclean hn hc] at ho ⊢
              obtain ⟨ls, hls, ht⟩ := ih (hs.push hn hc) ho
              refine ⟨ls, hls, ?_⟩
              simpa [base, pending, Numeral.chars_push, Numeral.position_push] using ht
          | false =>
              -- the numeral ends here, and the scan goes on as it does between lexemes
              rw [step_of_ends hclean hn hc] at ho hstep ⊢
              obtain ⟨ls, hls, ht⟩ := tiled_of_enter (numeral_close s) hstep fun h => ih h ho
              have hends := endsNumeral_of_enter text hc hstep
              have hplaced := hs.placed
              simp only [base, pending, hn] at hplaced
              refine ⟨n.lexeme :: ls, ?_, ?_⟩
              · rw [hls]
                simp [close_of_some hn]
              · rw [← Numeral.lexeme_text] at hplaced ⊢
                refine .lexeme rfl (Numeral.spells_lexeme (hs.isNumeral n hn)) (fun _ => hends) ?_
                rw [← hplaced]
                simpa [close_of_some hn] using ht

theorem position_enter {s : Scan} {c : Char} (h : (s.enter c).offender = none) :
    (s.enter c).position = s.position.advance c := by
  rcases enter_cases h with ⟨-, he⟩ | ⟨-, he⟩ | ⟨_, -, he⟩ <;> rw [he]

theorem position_step {s : Scan} {c : Char} (ho : s.offender = none)
    (h : (s.step c).offender = none) : (s.step c).position = s.position.advance c := by
  cases hn : s.numeral with
  | none =>
      rw [step_of_none ho hn] at h ⊢
      exact position_enter h
  | some n =>
      cases hc : n.continuesWith c with
      | true => rw [step_of_continues ho hn hc]
      | false =>
          rw [step_of_ends ho hn hc] at h ⊢
          rw [position_enter h, position_close]

/-- A scan that can place every character stands behind the text. -/
theorem position_foldl {text : List Char} : ∀ {s : Scan}, (text.foldl step s).offender = none →
    (text.foldl step s).position = s.position.advanceOver text := by
  induction text with
  | nil => intro s _; rfl
  | cons c text ih =>
      intro s ho
      have hclean := offender_eq_none_of_foldl s (c :: text) ho
      have hstep := offender_eq_none_of_foldl (s.step c) text ho
      rw [List.foldl_cons, ih ho, position_step hclean hstep, Position.advanceOver_cons]

/-! ### From tilings to scans -/

theorem not_isSeparator_of_isDigit {c : Char} (h : c.isDigit = true) : isSeparator c = false := by
  have hne {d : Char} (hd : d.isDigit = false) : (c == d) = false := by
    refine beq_false_of_ne ?_
    rintro rfl
    rw [h] at hd
    cases hd
  simp [isSeparator, hne]

theorem enter_separator {s : Scan} {c : Char} (h : isSeparator c = true) :
    s.enter c = { s with position := s.position.advance c } := by
  simp only [enter, h, if_true]

theorem enter_digit {s : Scan} {c : Char} (h : c.isDigit = true) : s.enter c =
    { s with position := s.position.advance c, numeral := some ⟨s.position, [c], false⟩ } := by
  simp only [enter, not_isSeparator_of_isDigit h, h, Bool.false_eq_true, if_false, if_true]

theorem enter_symbol {s : Scan} {c : Char} {kind : Kind} (h : Kind.ofSymbol? c = some kind) :
    s.enter c = { s with
      position := s.position.advance c
      lexemes := ⟨[c], ⟨kind, none, s.position⟩⟩ :: s.lexemes } := by
  have hplain : isSeparator c = false ∧ c.isDigit = false := by
    simp only [Kind.ofSymbol?] at h
    split at h <;> first | decide | cases h
  simp only [enter, hplain, h, Bool.false_eq_true, if_false]

/-- An open numeral takes up all digits. -/
theorem foldl_digits {ds : List Char} (hd : ∀ d ∈ ds, d.isDigit = true) :
    ∀ (p : Position) (ls : List Lexeme) (n : Numeral), ds.foldl step ⟨p, ls, some n, none⟩ =
      ⟨p.advanceOver ds, ls, some ⟨n.position, ds.reverse ++ n.reversed, n.pointed⟩, none⟩ := by
  induction ds with
  | nil => intro p ls n; rfl
  | cons d ds ih =>
      intro p ls n
      have hdigit := hd d List.mem_cons_self
      have hc : n.continuesWith d = true := by simp [Numeral.continuesWith, hdigit]
      have hrest : ∀ e ∈ ds, e.isDigit = true := fun e he => hd e (List.mem_cons_of_mem _ he)
      rw [List.foldl_cons, step_of_continues rfl rfl hc, ih hrest]
      simp [Numeral.push, ne_point_of_isDigit hdigit]

/-- A numeral is open behind its last character. -/
theorem foldl_isNumeral {text : List Char} {pointed : Bool} (h : IsNumeral text pointed)
    (p : Position) (ls : List Lexeme) : text.foldl step ⟨p, ls, none, none⟩ =
      ⟨p.advanceOver text, ls, some ⟨p, text.reverse, pointed⟩, none⟩ := by
  have hwhole {ds : List Char} (hne : ds ≠ []) (hd : ∀ d ∈ ds, d.isDigit = true) :
      ds.foldl step ⟨p, ls, none, none⟩ =
        ⟨p.advanceOver ds, ls, some ⟨p, ds.reverse, false⟩, none⟩ := by
    obtain ⟨d, ds, rfl⟩ := List.exists_cons_of_ne_nil hne
    rw [List.foldl_cons, step_of_none rfl rfl, enter_digit (hd d List.mem_cons_self),
      foldl_digits fun e he => hd e (List.mem_cons_of_mem _ he)]
    simp
  cases h with
  | whole hne hw => exact hwhole hne hw
  | @pointed whole fraction hne hw hf =>
      rw [List.foldl_append, hwhole hne hw, List.foldl_cons,
        step_of_continues rfl rfl (by simp [Numeral.continuesWith]), foldl_digits hf]
      simp [Numeral.push, Position.advanceOver_append]

/-- An open numeral that does not go on may as well be finished at once. -/
theorem close_foldl_of_ends {s : Scan} {text : List Char} (ho : s.offender = none)
    (h : ∀ n, s.numeral = some n → ∀ c ∈ text.head?, n.continuesWith c = false) :
    (text.foldl step s).close = (text.foldl step s.close).close := by
  cases hn : s.numeral with
  | none => rw [close_of_none hn]
  | some n =>
      have hclose := numeral_close s
      cases text with
      | nil => rw [List.foldl_nil, List.foldl_nil, close_of_none hclose]
      | cons c text =>
          have ho' : s.close.offender = none := by rw [offender_close, ho]
          rw [List.foldl_cons, List.foldl_cons, step_of_ends ho hn (h n hn c rfl),
            step_of_none ho' hclose]

/-- **A tiling is scanned as it is.** -/
theorem foldl_of_tiles {p : Position} {text : List Char} {ls : List Lexeme}
    (h : Tiles p text ls) : ∀ cut : List Lexeme, (text.foldl step ⟨p, cut, none, none⟩).close =
      ⟨p.advanceOver text, ls.reverse ++ cut, none, none⟩ := by
  induction h with
  | done => intro cut; rfl
  | separator hs _ ih =>
      intro cut
      rw [List.foldl_cons, step_of_none rfl rfl, enter_separator hs, ih, Position.advanceOver_cons]
  | @lexeme p l rest ls placed spelled ends _ ih =>
      intro cut
      obtain ⟨text, token⟩ := l
      subst placed
      change Spells text token at spelled
      rw [List.foldl_append, Position.advanceOver_append, List.reverse_cons, List.append_assoc]
      cases spelled with
      | symbol hk =>
          rw [List.foldl_cons, step_of_none rfl rfl, enter_symbol hk]
          exact ih _
      | @numeral _ pointed p hnumeral =>
          have hclose (q : Position) :
              (Scan.mk q cut (some ⟨p, text.reverse, pointed⟩) none).close =
                ⟨q, ⟨text, ⟨if pointed then .decimal else .integer,
                  some (Number.ofLiteral text), p⟩⟩ :: cut, none, none⟩ := by
            simp [close, Numeral.lexeme]
          rw [foldl_isNumeral hnumeral,
            close_foldl_of_ends rfl fun n _ => (ends rfl).continuesWith n, hclose]
          exact ih _

end Scan

/-! ### Tokens of a text -/

/-- The end mark behind a text. -/
def endMark (text : List Char) : Token := ⟨.ending, none, Position.start.advanceOver text⟩

/-- The tokens of a text are those of its tiling, with the end mark behind them. -/
theorem tokenize_eq_ok_iff {source text : String} {tokens : Array Token} :
    (tokenize source text).value = .ok tokens ↔ ∃ ls, Tiles Position.start text.toList ls ∧
      tokens = (ls.map Lexeme.token ++ [endMark text.toList]).toArray := by
  rw [value_tokenize]
  constructor
  · intro h
    have ho : (Scan.ofText text.toList).offender = none := by
      cases ho : (Scan.ofText text.toList).offender with
      | none => rfl
      | some c =>
          simp only [Scan.tokens, ho] at h
          cases h
    have hfold : (text.toList.foldl Scan.step Scan.start).offender = none := by
      rwa [Scan.ofText, Scan.offender_close] at ho
    obtain ⟨ls, hls, ht⟩ := Scan.tiles_of_foldl Scan.sound_start hfold
    refine ⟨ls, ht, ?_⟩
    simp only [Scan.tokens, ho, Except.ok.injEq] at h
    rw [← h, Scan.ofText, hls, Scan.position_close, Scan.position_foldl hfold]
    simp [Scan.start, endMark]
  · rintro ⟨ls, ht, rfl⟩
    have hscan := Scan.foldl_of_tiles ht []
    rw [Scan.ofText, Scan.start, hscan]
    simp [Scan.tokens, endMark]

/-- Cutting a text into tokens leaves an end mark behind them. -/
theorem exists_ending_of_tokenize {source text : String} {tokens : Array Token}
    (h : (tokenize source text).value = .ok tokens) : ∃ t ∈ tokens.toList, t.kind = .ending := by
  obtain ⟨ls, -, rfl⟩ := tokenize_eq_ok_iff.1 h
  exact ⟨endMark text.toList, by simp, rfl⟩

/-! ### Places -/

theorem Position.offset_advance (p : Position) (c : Char) :
    (p.advance c).offset = p.offset + 1 := by
  simp only [Position.advance]
  split_ifs <;> rfl

theorem Position.offset_advanceOver (text : List Char) : ∀ p : Position,
    (p.advanceOver text).offset = p.offset + text.length := by
  induction text with
  | nil => intro p; rfl
  | cons c text ih =>
      intro p
      rw [Position.advanceOver_cons, ih, Position.offset_advance, List.length_cons]
      omega

/-- The position behind a text: its length, one more than the number of its line feeds, and the
length of what follows the last of these. -/
def Position.behind (text : List Char) : Position :=
  ⟨text.length, 1 + text.count '\n', (text.reverse.takeWhile fun c => c != '\n').length⟩

/-- **A position counts characters and line feeds.** -/
theorem Position.advanceOver_start (text : List Char) :
    Position.start.advanceOver text = Position.behind text := by
  induction text using List.reverseRecOn with
  | nil => rfl
  | append_singleton text c ih =>
      rw [Position.advanceOver_append, ih, Position.advanceOver_cons, Position.advanceOver_nil]
      by_cases hc : c = '\n'
      · simp [Position.advance, Position.behind, hc, Nat.add_assoc]
      · simp [Position.advance, Position.behind, hc]

theorem Spells.ne_nil {text : List Char} {t : Token} (h : Spells text t) : text ≠ [] := by
  cases h with
  | symbol _ => simp
  | numeral h => exact h.ne_nil

theorem Tiles.spelled {p : Position} {text : List Char} {ls : List Lexeme}
    (h : Tiles p text ls) : ∀ l ∈ ls, Spells l.text l.token := by
  induction h with
  | done => simp
  | separator _ _ ih => exact ih
  | lexeme _ spelled _ _ ih => exact List.forall_mem_cons.2 ⟨spelled, ih⟩

/-- The lexemes of a tiling stand in the text, one behind the other. -/
theorem Tiles.offsets {p : Position} {text : List Char} {ls : List Lexeme}
    (h : Tiles p text ls) :
    (∀ l ∈ ls, p.offset ≤ l.token.position.offset ∧
      l.token.position.offset < p.offset + text.length) ∧
    ls.Pairwise fun l m => l.token.position.offset < m.token.position.offset := by
  induction h with
  | done => simp
  | separator _ _ ih =>
      rw [Position.offset_advance] at ih
      refine ⟨fun l hl => ?_, ih.2⟩
      have := ih.1 l hl
      rw [List.length_cons]
      omega
  | @lexeme p l rest ls placed spelled _ _ ih =>
      rw [Position.offset_advanceOver] at ih
      have hpos := List.length_pos_iff.2 spelled.ne_nil
      subst placed
      refine ⟨fun m hm => ?_, List.pairwise_cons.2 ⟨fun m hm => ?_, ih.2⟩⟩
      · rw [List.length_append]
        rcases List.mem_cons.1 hm with rfl | hm
        · omega
        · have := ih.1 m hm
          omega
      · have := ih.1 m hm
        omega

/-! ### Pieces of a text -/

/-- The text of some lexemes, each with the characters between it and the next one. -/
def piecesText (pieces : List (Lexeme × List Char)) : List Char :=
  pieces.flatMap fun piece => piece.1.text ++ piece.2

/-- The text from `p` on is a `gap` and then these pieces, lexemes with the gaps behind them. -/
structure IsTiling (p : Position) (text gap : List Char) (pieces : List (Lexeme × List Char)) :
    Prop where
  /-- No character is left out, and none is used twice. -/
  text_eq : text = gap ++ piecesText pieces
  /-- The gap before the first lexeme consists of separators. -/
  blank : ∀ c ∈ gap, isSeparator c = true
  /-- So do the gaps behind the lexemes. -/
  blanks : ∀ piece ∈ pieces, ∀ c ∈ piece.2, isSeparator c = true
  /-- The lexemes are symbols and numerals. -/
  spelled : ∀ piece ∈ pieces, Spells piece.1.text piece.1.token
  /-- A token is placed behind all characters before its lexeme. -/
  placed : ∀ before l gap' after, pieces = before ++ (l, gap') :: after →
    l.token.position = p.advanceOver (gap ++ piecesText before)
  /-- A numeral is as long as it can be. -/
  maximal : ∀ before l gap' after, pieces = before ++ (l, gap') :: after →
    l.token.value.isSome → EndsNumeral (gap' ++ piecesText after)

/-- A separator in front of a text makes its first gap longer. -/
theorem IsTiling.cons_separator {p : Position} {c : Char} {text gap : List Char}
    {pieces : List (Lexeme × List Char)} (h : IsTiling (p.advance c) text gap pieces)
    (hc : isSeparator c = true) : IsTiling p (c :: text) (c :: gap) pieces where
  text_eq := by rw [h.text_eq, List.cons_append]
  blank := by
    intro d hd
    rcases List.mem_cons.1 hd with rfl | hd
    · exact hc
    · exact h.blank d hd
  blanks := h.blanks
  spelled := h.spelled
  placed := by
    intro before l gap' after hp
    rw [h.placed before l gap' after hp, List.cons_append, Position.advanceOver_cons]
  maximal := h.maximal

/-- A lexeme in front of a text makes a piece with its first gap. -/
theorem IsTiling.cons_lexeme {l : Lexeme} {text gap : List Char}
    {pieces : List (Lexeme × List Char)}
    (h : IsTiling (l.token.position.advanceOver l.text) text gap pieces)
    (spelled : Spells l.text l.token) (ends : l.token.value.isSome → EndsNumeral text) :
    IsTiling l.token.position (l.text ++ text) [] ((l, gap) :: pieces) where
  text_eq := by simp [h.text_eq, piecesText]
  blank := by simp
  blanks := by
    intro piece hp
    rcases List.mem_cons.1 hp with rfl | hp
    · exact h.blank
    · exact h.blanks piece hp
  spelled := by
    intro piece hp
    rcases List.mem_cons.1 hp with rfl | hp
    · exact spelled
    · exact h.spelled piece hp
  placed := by
    intro before m gap' after hp
    cases before with
    | nil =>
        rw [List.nil_append, List.cons.injEq, Prod.mk.injEq] at hp
        rw [← hp.1.1]
        rfl
    | cons piece before =>
        rw [List.cons_append, List.cons.injEq] at hp
        obtain ⟨rfl, hp⟩ := hp
        rw [h.placed before m gap' after hp, ← Position.advanceOver_append]
        simp [piecesText]
  maximal := by
    intro before m gap' after hp
    cases before with
    | nil =>
        rw [List.nil_append, List.cons.injEq, Prod.mk.injEq] at hp
        obtain ⟨⟨rfl, rfl⟩, rfl⟩ := hp
        rwa [← h.text_eq]
    | cons piece before =>
        rw [List.cons_append, List.cons.injEq] at hp
        exact h.maximal before m gap' after hp.2

/-- A tiling falls into pieces. -/
theorem Tiles.exists_isTiling {p : Position} {text : List Char} {ls : List Lexeme}
    (h : Tiles p text ls) :
    ∃ gap pieces, IsTiling p text gap pieces ∧ pieces.map Prod.fst = ls := by
  induction h with
  | done => exact ⟨[], [], ⟨rfl, by simp, by simp, by simp, by simp, by simp⟩, rfl⟩
  | separator hc _ ih =>
      obtain ⟨gap, pieces, h, hls⟩ := ih
      exact ⟨_, pieces, h.cons_separator hc, hls⟩
  | @lexeme p l _ _ placed spelled ends _ ih =>
      subst placed
      obtain ⟨gap, pieces, h, hls⟩ := ih
      exact ⟨_, _, h.cons_lexeme spelled ends, by rw [List.map_cons, hls]⟩

/-! ### Kinds, values and lexemes -/

/-- The kinds of the tokens that are symbols. -/
def symbolKinds : List Kind := [.plus, .minus, .star, .slash, .opening, .closing]

/-- A lexeme is the one character that shows the kind of its token, which then has no number, or a
numeral, whose token has one and is a decimal exactly if there is a point in the numeral. -/
def Lexeme.WellSpelled (l : Lexeme) : Prop :=
  l.token.kind ∈ symbolKinds ∧ l.token.value = none ∧ l.text = l.token.kind.text.toList ∧
      l.text.length = 1 ∨
    l.token.kind = .integer ∧ l.token.value.isSome ∧ IsNumeral l.text false ∧ '.' ∉ l.text ∨
    l.token.kind = .decimal ∧ l.token.value.isSome ∧ IsNumeral l.text true ∧ '.' ∈ l.text

theorem mem_symbolKinds_of_ofSymbol? {c : Char} {kind : Kind} (h : Kind.ofSymbol? c = some kind) :
    kind ∈ symbolKinds ∧ [c] = kind.text.toList := by
  simp only [Kind.ofSymbol?] at h
  split at h <;> first | (cases h; decide) | cases h

theorem IsNumeral.mem_point_iff {text : List Char} {pointed : Bool} (h : IsNumeral text pointed) :
    '.' ∈ text ↔ pointed = true := by
  cases h with
  | whole _ hw =>
      refine iff_of_false (fun hmem => ?_) (by simp)
      exact absurd (hw '.' hmem) (by decide)
  | pointed _ _ _ => simp

theorem Spells.wellSpelled {l : Lexeme} (h : Spells l.text l.token) : l.WellSpelled := by
  obtain ⟨text, token⟩ := l
  change Spells text token at h
  cases h with
  | symbol h =>
      obtain ⟨hk, ht⟩ := mem_symbolKinds_of_ofSymbol? h
      exact Or.inl ⟨hk, rfl, ht, rfl⟩
  | @numeral _ pointed _ h =>
      have hpoint := h.mem_point_iff
      cases pointed with
      | false => exact Or.inr (Or.inl ⟨rfl, rfl, h, by simpa using hpoint⟩)
      | true => exact Or.inr (Or.inr ⟨rfl, rfl, h, by simpa using hpoint⟩)

theorem Lexeme.WellSpelled.kind_ne_ending {l : Lexeme} (h : l.WellSpelled) :
    l.token.kind ≠ .ending := by
  rcases h with ⟨hk, -⟩ | ⟨hk, -⟩ | ⟨hk, -⟩
  · rintro he
    rw [he] at hk
    exact absurd hk (by decide)
  · simp [hk]
  · simp [hk]

theorem Lexeme.WellSpelled.isSome_value_iff {l : Lexeme} (h : l.WellSpelled) :
    l.token.value.isSome ↔ l.token.kind = .integer ∨ l.token.kind = .decimal := by
  rcases h with ⟨hk, hv, -⟩ | ⟨hk, hv, -⟩ | ⟨hk, hv, -⟩
  · rw [hv]
    refine iff_of_false (by simp) ?_
    rintro (he | he) <;> rw [he] at hk <;> exact absurd hk (by decide)
  · simp [hk, hv]
  · simp [hk, hv]

/-- **Cutting a text into tokens tiles it.**  The text is made of separators and lexemes and nothing
else; the tokens are those of the lexemes with a single end mark behind them; a lexeme is a symbol
or a numeral as long as it can be, and this is told by its token; and the place of a token, which
is that behind all characters before it, counts these characters and their line feeds. -/
theorem tokenize_tiles {source text : String} {tokens : Array Token}
    (h : (tokenize source text).value = .ok tokens) :
    ∃ gap pieces, IsTiling Position.start text.toList gap pieces ∧
      tokens.toList = pieces.map (fun piece => piece.1.token) ++
        [⟨.ending, none, Position.start.advanceOver text.toList⟩] ∧
      (∀ piece ∈ pieces, piece.1.WellSpelled ∧ piece.1.token.kind ≠ .ending) ∧
      (∀ t ∈ tokens.toList, t.value.isSome ↔ t.kind = .integer ∨ t.kind = .decimal) ∧
      tokens.toList.Pairwise (fun t u => t.position.offset < u.position.offset) ∧
      ∀ read, Position.start.advanceOver read = Position.behind read := by
  obtain ⟨ls, ht, rfl⟩ := tokenize_eq_ok_iff.1 h
  obtain ⟨gap, pieces, hp, rfl⟩ := ht.exists_isTiling
  have hspelled : ∀ piece ∈ pieces, piece.1.WellSpelled :=
    fun piece hmem => (hp.spelled piece hmem).wellSpelled
  refine ⟨gap, pieces, hp, by simp [endMark], fun piece hmem =>
    ⟨hspelled piece hmem, (hspelled piece hmem).kind_ne_ending⟩, ?_, ?_,
    Position.advanceOver_start⟩
  · intro t hmem
    rcases List.mem_append.1 hmem with hmem | hmem
    · rw [List.map_map, List.mem_map] at hmem
      obtain ⟨piece, hpiece, rfl⟩ := hmem
      exact (hspelled piece hpiece).isSome_value_iff
    · rw [List.mem_singleton.1 hmem]
      simp [endMark]
  · obtain ⟨hbound, hpair⟩ := ht.offsets
    refine List.pairwise_append.2 ⟨List.pairwise_map.2 hpair, List.pairwise_singleton _ _, ?_⟩
    intro t hmem mark hmark
    obtain ⟨l, hl, rfl⟩ := List.mem_map.1 hmem
    rw [List.mem_singleton.1 hmark, endMark, Position.offset_advanceOver]
    exact (hbound l hl).2

/-- Two lines, with separators of all sorts and a numeral that ends with its point. -/
theorem tokenize_tiles_two_lines :
    (tokenize "sums" "12 +\n\t3.").value = .ok #[⟨.integer, some (.int 12), ⟨0, 1, 0⟩⟩,
      ⟨.plus, none, ⟨3, 1, 3⟩⟩, ⟨.decimal, some (.float 3.0), ⟨6, 2, 1⟩⟩,
      ⟨.ending, none, ⟨8, 2, 3⟩⟩] ∧
    ∃ gap pieces, IsTiling Position.start "12 +\n\t3.".toList gap pieces := by
  have hcut : (tokenize "sums" "12 +\n\t3.").value = .ok #[⟨.integer, some (.int 12), ⟨0, 1, 0⟩⟩,
      ⟨.plus, none, ⟨3, 1, 3⟩⟩, ⟨.decimal, some (.float 3.0), ⟨6, 2, 1⟩⟩,
      ⟨.ending, none, ⟨8, 2, 3⟩⟩] := by
    decide +kernel
  obtain ⟨gap, pieces, htiling, -⟩ := tokenize_tiles hcut
  exact ⟨hcut, gap, pieces, htiling⟩

end Reckoner
