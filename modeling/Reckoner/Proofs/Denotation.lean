/-
**Every literal denotes what its digits say.**

`Reckoner/Number.lean` reads a literal by functions that give a number for any text.  This module
says what the number is, digit by digit.  A digit counts for the power of ten of its place, and what
a row of digits comes to may be of any size, however many of the digits are zeros in front.  A
literal without a point denotes this whole number, exactly if a machine integer can hold it and as
the nearest double otherwise; a literal with a point denotes the nearest double.

A reader of integers or of doubles that takes any text has to fail on some, and whoever uses it must
say which numbers stand in then.  Read in this way, a literal has the same value whatever stands in:
the scanner makes no literal on which both readers fail.

Main definitions:

* `Reckoner.wholeValue`, `Reckoner.fractionValue` — what digits count for before and behind a point;
* `Reckoner.integerOf?`, `Reckoner.doubleOf?` — readers of machine integers and of doubles, which
  can fail;
* `Reckoner.Number.ofLiteralOr` — a literal read by these, with doubles that stand in;
* `Reckoner.Denotes` — **what a literal denotes**;
* `Reckoner.Lexeme.Oversize` — the literals that only lack the room of a machine integer.

Main results:

* `Reckoner.Decimal.toRat_ofText_whole`, `Reckoner.Decimal.toRat_ofText_point` — a decimal is read
  for what its digits count for;
* `Reckoner.Number.ofLiteralOr_eq` — **nothing ever stands in for the value of a literal**;
* `Reckoner.denotes_ofLiteral`, `Reckoner.Denotes.eq_ofLiteral` — a literal denotes the number that
  it is read as, and no other;
* `Reckoner.tokenize_literals` — **the tokens of a text have the numbers that its literals denote**,
  and the events tell which of the literals are oversize.
-/

import Reckoner.Proofs.Nearest
import Mathlib

set_option relaxedAutoImplicit false
set_option autoImplicit false

namespace Reckoner

open Binary64 (IsNearest isNegative)

/-! ### The places of digits -/

/-- What a digit counts for at the place of the units. -/
def digitValue (c : Char) : Nat := c.toNat - '0'.toNat

/-- The whole number that digits come to: each counts for the power of ten that is given by the
number of digits behind it. -/
def wholeValue : List Char → Nat
  | [] => 0
  | c :: digits => digitValue c * 10 ^ digits.length + wholeValue digits

/-- What digits come to behind a point: the first counts for tenths, and every other one for a tenth
of what it would count for in the place before. -/
def fractionValue : List Char → ℚ
  | [] => 0
  | c :: digits => (digitValue c + fractionValue digits) / 10

theorem wholeValue_append (first second : List Char) :
    wholeValue (first ++ second) =
      wholeValue first * 10 ^ second.length + wholeValue second := by
  induction first with
  | nil => simp [wholeValue]
  | cons c first ih =>
      rw [List.cons_append, wholeValue, ih, wholeValue, List.length_append, Nat.pow_add]
      ring

theorem fractionValue_eq (digits : List Char) :
    fractionValue digits = wholeValue digits / 10 ^ digits.length := by
  induction digits with
  | nil => simp [fractionValue, wholeValue]
  | cons c digits ih =>
      rw [fractionValue, ih, wholeValue, List.length_cons]
      push_cast
      field_simp
      ring

namespace Decimal

/-- Reading digits from the left comes to the same. -/
theorem wholeOfText_eq (digits : List Char) : wholeOfText digits = wholeValue digits := by
  induction digits with
  | nil => rfl
  | cons c digits ih =>
      rw [wholeOfText] at ih
      rw [wholeOfText, Nat.ofDigitChars_cons, Nat.ofDigitChars_eq_ofDigitChars_zero, ih, wholeValue,
        Nat.mul_zero, Nat.zero_add, Nat.mul_comm]
      rfl

/-- **A row of digits is read as the whole number that it comes to.** -/
theorem toRat_ofText_whole {digits : List Char} (h : '.' ∉ digits) :
    (ofText digits).toRat = wholeValue digits := by
  rw [ofText_of_not_mem h, toRat, wholeOfText_eq, pow_zero, div_one]

/-- **Digits with a point are read as what they come to before and behind it.** -/
theorem toRat_ofText_point {whole : List Char} (fraction : List Char)
    (h : ∀ c ∈ whole, c.isDigit = true) :
    (ofText (whole ++ '.' :: fraction)).toRat = wholeValue whole + fractionValue fraction := by
  have hunit : (10 : ℚ) ^ fraction.length ≠ 0 := by positivity
  rw [ofText_point h, toRat, wholeOfText_eq, wholeValue_append, fractionValue_eq]
  push_cast
  field_simp

end Decimal

/-! ### Readers that can fail -/

/-- Is the text a row of digits, or two with a point between them of which the second may be
empty? -/
def isNumeral (text : List Char) : Bool :=
  !(text.takeWhile Char.isDigit).isEmpty &&
    match text.dropWhile Char.isDigit with
    | [] => true
    | c :: fraction => c == '.' && fraction.all Char.isDigit

/-- The machine integer that a text writes: nothing unless the text is a row of digits and their
value fits. -/
def integerOf? (text : List Char) : Option Int64 :=
  if text ≠ [] ∧ text.all Char.isDigit then fitted? (wholeValue text) else none

/-- The double nearest to what a text writes: nothing unless the text is a row of digits with at
most one point behind the first. -/
def doubleOf? (text : List Char) : Option Float :=
  if isNumeral text then some (Binary64.ofDecimal (Decimal.ofText text)) else none

/-- The number that a literal is read as if the doubles `invalid` and `huge` stand in where a
literal with a point or one without it cannot be read. -/
def Number.ofLiteralOr (invalid huge : Float) (literal : List Char) : Number :=
  if '.' ∈ literal then float ((doubleOf? literal).getD invalid)
  else
    match integerOf? literal with
    | some value => int value
    | none => float ((doubleOf? literal).getD huge)

theorem isNumeral_of_whole {whole : List Char} (hne : whole ≠ [])
    (hw : ∀ c ∈ whole, c.isDigit = true) : isNumeral whole = true := by
  simp [isNumeral, List.takeWhile_eq_self_iff.2 hw, List.dropWhile_eq_nil_iff.2 hw, hne]

theorem isNumeral_of_point {whole fraction : List Char} (hne : whole ≠ [])
    (hw : ∀ c ∈ whole, c.isDigit = true) (hf : ∀ c ∈ fraction, c.isDigit = true) :
    isNumeral (whole ++ '.' :: fraction) = true := by
  have hpoint : Char.isDigit '.' = false := by decide
  simp [isNumeral, List.takeWhile_append_of_pos hw, List.dropWhile_append_of_pos hw,
    List.dropWhile_cons_of_neg, hpoint, hne]
  exact hf

/-- **Doubles are read from numerals and from nothing else.** -/
theorem isNumeral_iff {text : List Char} :
    isNumeral text = true ↔ ∃ pointed, IsNumeral text pointed := by
  constructor
  · intro h
    have hsplit := List.takeWhile_append_dropWhile (p := Char.isDigit) (l := text)
    have hw : ∀ c ∈ text.takeWhile Char.isDigit, c.isDigit = true :=
      fun _ hc => List.mem_takeWhile_imp hc
    rw [isNumeral, Bool.and_eq_true, Bool.not_eq_true', List.isEmpty_eq_false_iff] at h
    obtain ⟨hne, hrest⟩ := h
    split at hrest
    next hnil =>
      rw [hnil, List.append_nil] at hsplit
      rw [hsplit] at hne hw
      exact ⟨false, .whole hne hw⟩
    next c fraction hcons =>
      rw [Bool.and_eq_true, beq_iff_eq, List.all_eq_true] at hrest
      obtain ⟨rfl, hf⟩ := hrest
      rw [hcons] at hsplit
      rw [← hsplit]
      exact ⟨true, .pointed hne hw hf⟩
  · rintro ⟨pointed, h⟩
    cases h with
    | whole hne hw => exact isNumeral_of_whole hne hw
    | pointed hne hw hf => exact isNumeral_of_point hne hw hf

theorem doubleOf?_of_isNumeral {text : List Char} {pointed : Bool} (h : IsNumeral text pointed) :
    doubleOf? text = some (Binary64.ofDecimal (Decimal.ofText text)) :=
  if_pos (isNumeral_iff.2 ⟨pointed, h⟩)

theorem integerOf?_of_digits {digits : List Char} (hne : digits ≠ [])
    (hd : ∀ c ∈ digits, c.isDigit = true) : integerOf? digits = fitted? (wholeValue digits) :=
  if_pos ⟨hne, List.all_eq_true.2 hd⟩

theorem not_mem_point_of_digits {digits : List Char} (h : ∀ c ∈ digits, c.isDigit = true) :
    '.' ∉ digits := fun hmem => absurd (h '.' hmem) (by decide)

theorem IsNumeral.digits {text : List Char} (h : IsNumeral text false) :
    ∀ c ∈ text, c.isDigit = true := by
  cases h with
  | whole _ hw => exact hw

/-- **Nothing ever stands in for the value of a literal.** -/
theorem Number.ofLiteralOr_eq {literal : List Char} {pointed : Bool}
    (h : IsNumeral literal pointed) (invalid huge : Float) :
    ofLiteralOr invalid huge literal = ofLiteral literal := by
  have hpoint := h.mem_point_iff
  rw [ofLiteralOr, ofLiteral, doubleOf?_of_isNumeral h, Option.getD_some, Option.getD_some]
  cases pointed with
  | true => rw [if_pos (hpoint.2 rfl), if_pos (hpoint.2 rfl)]
  | false =>
      have hno := not_mem_point_of_digits h.digits
      have hinteger : integerOf? literal = fitted? (Decimal.wholeOfText literal) := by
        rw [integerOf?_of_digits h.ne_nil h.digits, Decimal.wholeOfText_eq]
      rw [if_neg hno, if_neg hno]
      cases hfit : fitted? (Decimal.wholeOfText literal) with
      | some n => rw [hinteger.trans hfit]
      | none => rw [hinteger.trans hfit]

/-! ### What literals denote -/

/-- **What a literal denotes**, and of which kind it is. -/
inductive Denotes : List Char → Kind → Number → Prop
  /-- Digits denote the whole number that they come to, if a machine integer can hold it. -/
  | whole {digits : List Char} {n : Int64} (hne : digits ≠ [])
      (hd : ∀ c ∈ digits, c.isDigit = true) (fits : wholeValue digits ≤ Int64.maxValue.toInt)
      (value : n.toInt = wholeValue digits) : Denotes digits .integer (.int n)
  /-- If none can, they denote the nearest double. -/
  | oversize {digits : List Char} {x : Float} (hne : digits ≠ [])
      (hd : ∀ c ∈ digits, c.isDigit = true) (large : Int64.maxValue.toInt < wholeValue digits)
      (nearest : IsNearest (wholeValue digits) x) : Denotes digits .integer (.float x)
  /-- Digits with a point denote the nearest double, also when none follows the point. -/
  | fraction {whole fraction : List Char} {x : Float} (hne : whole ≠ [])
      (hw : ∀ c ∈ whole, c.isDigit = true) (hf : ∀ c ∈ fraction, c.isDigit = true)
      (nearest : IsNearest (wholeValue whole + fractionValue fraction) x) :
      Denotes (whole ++ '.' :: fraction) .decimal (.float x)

/-- The number is an integer or a double other than the one that is no number, and has no minus
sign. -/
def Number.Unsigned : Number → Prop
  | .int n => 0 ≤ n.toInt
  | .float x => x.isNaN = false ∧ isNegative x = false

/-- A literal without a point whose value no machine integer can hold. -/
def Lexeme.Oversize (l : Lexeme) : Prop :=
  l.token.kind = .integer ∧ Int64.maxValue.toInt < wholeValue l.text

instance (l : Lexeme) : Decidable l.Oversize := inferInstanceAs (Decidable (_ ∧ _))

theorem Number.unsigned_ofLiteral (literal : List Char) : (ofLiteral literal).Unsigned := by
  rcases ofLiteral_cases literal with ⟨-, n, hn, hvalue⟩ | hfloat
  · rw [hn]
    exact show 0 ≤ n.toInt by omega
  · rw [hfloat]
    exact ⟨Binary64.isNaN_ofDecimal _, Binary64.isNegative_ofDecimal _⟩

/-- A whole number is a machine integer unless it is too large. -/
theorem fitted?_natCast_eq_none_iff (n : Nat) :
    fitted? n = none ↔ Int64.maxValue.toInt < n := by
  have hmin : Int64.minValue.toInt = -2 ^ 63 := Int64.toInt_minValue
  rw [fitted?_eq_none_iff, IsMachineInteger]
  omega

/-- **A numeral denotes the number that it is read as.** -/
theorem denotes_ofLiteral {literal : List Char} {pointed : Bool} (h : IsNumeral literal pointed) :
    Denotes literal (if pointed then .decimal else .integer) (Number.ofLiteral literal) := by
  have hpoint := h.mem_point_iff
  have hnearest := Binary64.isNearest_ofDecimal (Decimal.ofText literal)
  rw [Number.ofLiteral]
  cases h with
  | pointed hne hw hf =>
      rw [if_pos (hpoint.2 rfl)]
      rw [Decimal.toRat_ofText_point _ hw] at hnearest
      exact .fraction hne hw hf hnearest
  | whole hne hw =>
      have hno := not_mem_point_of_digits hw
      rw [if_neg hno, Decimal.wholeOfText_eq]
      rw [Decimal.toRat_ofText_whole hno] at hnearest
      cases hfit : fitted? (wholeValue literal) with
      | some n =>
          have hvalue := fitted?_eq_some_iff.1 hfit
          exact .whole hne hw (hvalue ▸ n.toInt_le) hvalue.symm
      | none => exact .oversize hne hw ((fitted?_natCast_eq_none_iff _).1 hfit) hnearest

/-- **A literal denotes no other number**, apart from the sign of zero. -/
theorem Denotes.eq_ofLiteral {literal : List Char} {kind : Kind} {v : Number}
    (h : Denotes literal kind v) (hv : v.Unsigned) :
    kind = (if '.' ∈ literal then .decimal else .integer) ∧ v = Number.ofLiteral literal := by
  have hnearest := Binary64.isNearest_ofDecimal (Decimal.ofText literal)
  rw [Number.ofLiteral]
  cases h with
  | whole hne hd fits value =>
      have hno := not_mem_point_of_digits hd
      rw [if_neg hno, if_neg hno, Decimal.wholeOfText_eq, fitted?_eq_some_iff.2 value.symm]
      exact ⟨rfl, rfl⟩
  | oversize hne hd large nearest =>
      have hno := not_mem_point_of_digits hd
      rw [Decimal.toRat_ofText_whole hno] at hnearest
      rw [if_neg hno, if_neg hno, Decimal.wholeOfText_eq,
        (fitted?_natCast_eq_none_iff _).2 large]
      exact ⟨rfl, congrArg Number.float
        (nearest.eq hnearest hv.2 (Binary64.isNegative_ofDecimal _))⟩
  | @fraction whole fraction x hne hw hf nearest =>
      have hmem : '.' ∈ whole ++ '.' :: fraction := by simp
      rw [Decimal.toRat_ofText_point _ hw] at hnearest
      rw [if_pos hmem, if_pos hmem]
      exact ⟨rfl, congrArg Number.float
        (nearest.eq hnearest hv.2 (Binary64.isNegative_ofDecimal _))⟩

/-! ### The literals of a text -/

theorem Lexeme.not_oversize_of_symbol {c : Char} {kind : Kind} (h : Kind.ofSymbol? c = some kind)
    (text : List Char) (value : Option Number) (p : Position) :
    ¬ Lexeme.Oversize ⟨text, ⟨kind, value, p⟩⟩ := by
  rintro ⟨hkind, -⟩
  have hmem := (mem_symbolKinds_of_ofSymbol? h).1
  rw [show kind = .integer from hkind] at hmem
  exact absurd hmem (by decide)

/-- **That a literal is oversize is told where it is, and nowhere else.** -/
theorem Lexeme.events_eq {l : Lexeme} (h : Spells l.text l.token) :
    l.events = (if l.Oversize then [Event.oversize l.text] else []) ++ [Event.token l.token] := by
  obtain ⟨text, token⟩ := l
  change Spells text token at h
  cases h with
  | @symbol c kind p hk =>
      rw [if_neg (not_oversize_of_symbol hk _ _ _)]
      cases kind <;> rfl
  | @numeral _ pointed p hn =>
      have hdenotes := denotes_ofLiteral hn
      generalize Number.ofLiteral text = v at hdenotes ⊢
      cases pointed with
      | true =>
          have hnot : ¬ Oversize ⟨text, ⟨.decimal, some v, p⟩⟩ :=
            fun hover => Kind.noConfusion hover.1
          simp only [if_true]
          rw [if_neg hnot]
          rfl
      | false =>
          simp only [Bool.false_eq_true, if_false] at hdenotes ⊢
          cases hdenotes with
          | whole hne hd fits value =>
              rw [if_neg fun hover => absurd hover.2 (Int.not_lt.2 fits)]
              rfl
          | oversize hne hd large nearest =>
              rw [if_pos ⟨rfl, large⟩]
              rfl

theorem events_tokenize {source text : String} {ls : List Lexeme}
    (h : Tiles Position.start text.toList ls) :
    (tokenize source text).events = Event.scanning text.length source :: ls.flatMap (fun l =>
      (if l.Oversize then [Event.oversize l.text] else []) ++ [Event.token l.token]) ++
        [Event.scanned (ls.length + 1)] := by
  have hscan : Scan.ofText text.toList = ⟨_, ls.reverse ++ [], none, none⟩ :=
    Scan.foldl_of_tiles h []
  have hevents : ls.flatMap Lexeme.events = ls.flatMap fun l =>
      (if l.Oversize then [Event.oversize l.text] else []) ++ [Event.token l.token] :=
    List.flatMap_congr fun l hl => Lexeme.events_eq (h.spelled l hl)
  rw [← hevents]
  simp [tokenize, hscan, Scan.tokens]

/-- **The tokens of a text have the numbers that its literals denote.**  The literals of a text that
is cut into tokens are numerals; one of them is of the kind that tells whether there is a point in
it, and has the number that its digits denote, whatever stands in for what cannot be read.  No
number has a minus sign, and every double among them is a number.  The events tell the literals
without a point that no machine integer can hold, and tell of nothing else but the tokens. -/
theorem tokenize_literals {source text : String} {tokens : Array Token}
    (h : (tokenize source text).value = .ok tokens) :
    ∃ ls, Tiles Position.start text.toList ls ∧
      tokens.toList = ls.map Lexeme.token ++ [endMark text.toList] ∧
      (∀ l ∈ ls, l.token.kind = .integer ∨ l.token.kind = .decimal →
        l.token.kind = (if '.' ∈ l.text then .decimal else .integer) ∧
        ∃ v, l.token.value = some v ∧ Denotes l.text l.token.kind v ∧ v.Unsigned ∧
          ∀ invalid huge, Number.ofLiteralOr invalid huge l.text = v) ∧
      (tokenize source text).events = Event.scanning text.length source :: ls.flatMap (fun l =>
        (if l.Oversize then [Event.oversize l.text] else []) ++ [Event.token l.token]) ++
          [Event.scanned tokens.size] := by
  obtain ⟨ls, htiles, rfl⟩ := tokenize_eq_ok_iff.1 h
  refine ⟨ls, htiles, rfl, ?_, by simpa using events_tokenize htiles⟩
  rintro ⟨literal, token⟩ hl hkind
  have hspelled : Spells literal token := htiles.spelled _ hl
  cases hspelled with
  | symbol hk =>
      have hmem := (mem_symbolKinds_of_ofSymbol? hk).1
      rcases hkind with rfl | rfl <;> exact absurd hmem (by decide)
  | @numeral _ pointed p hn =>
      have hdenotes := denotes_ofLiteral hn
      have hunsigned := Number.unsigned_ofLiteral literal
      exact ⟨(hdenotes.eq_ofLiteral hunsigned).1, _, rfl, hdenotes, hunsigned,
        Number.ofLiteralOr_eq hn⟩

/-- The largest machine integer with a zero in front, the whole number after it, and a literal that
ends with its point. -/
theorem tokenize_literals_limits :
    (tokenize "sums" "09223372036854775807 9223372036854775808 7.").value = .ok #[
      ⟨.integer, some (.int 9223372036854775807), ⟨0, 1, 0⟩⟩,
      ⟨.integer, some (.float 9223372036854775808), ⟨21, 1, 21⟩⟩,
      ⟨.decimal, some (.float 7), ⟨41, 1, 41⟩⟩, ⟨.ending, none, ⟨43, 1, 43⟩⟩] ∧
    ∃ ls, Tiles Position.start "09223372036854775807 9223372036854775808 7.".toList ls ∧
      ∀ l ∈ ls, l.token.kind = .integer ∨ l.token.kind = .decimal →
        ∃ v, l.token.value = some v ∧ Denotes l.text l.token.kind v ∧ v.Unsigned := by
  have hcut : (tokenize "sums" "09223372036854775807 9223372036854775808 7.").value = .ok #[
      ⟨.integer, some (.int 9223372036854775807), ⟨0, 1, 0⟩⟩,
      ⟨.integer, some (.float 9223372036854775808), ⟨21, 1, 21⟩⟩,
      ⟨.decimal, some (.float 7), ⟨41, 1, 41⟩⟩, ⟨.ending, none, ⟨43, 1, 43⟩⟩] := by
    decide +kernel
  obtain ⟨ls, htiles, -, hvalues, -⟩ := tokenize_literals hcut
  refine ⟨hcut, ls, htiles, fun l hl hkind => ?_⟩
  obtain ⟨-, v, hv, hdenotes, hunsigned, -⟩ := hvalues l hl hkind
  exact ⟨v, hv, hdenotes, hunsigned⟩

end Reckoner
