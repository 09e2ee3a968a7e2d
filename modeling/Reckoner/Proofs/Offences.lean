/-
**Which texts are cut into tokens, and what is reported of the others.**

Whether the scanner of `Reckoner/Lexeme.lean` can place a character depends on nothing but the text
before it, and of that on very little.  A character outside the alphabet never belongs to a token.
All others always do, but for the point, which belongs to the numeral before it: it has to follow a
digit, and the row of digits that ends there must not follow a point itself.  Characters that
violate this are *offences*.

So the scanner need not be run to tell whether a text is cut into tokens.  It is if it has no
offence, and otherwise the first one is reported, with the position behind the text before it.  The
scan is followed from the left.  What it remembers of a numeral tells, at each place, whether a
point may come next.

Main definitions:

* `Reckoner.digits`, `Reckoner.alphabet` — the characters of the language;
* `Reckoner.TakesPoint`, `Reckoner.Offends` — a text that a point may follow, and a character that
  may not follow a text;
* `Reckoner.Clean` — a text without an offence;
* `Reckoner.Scan.Remembers` — what an open numeral tells of the text before it.

Main results:

* `Reckoner.Scan.offender_step`, `Reckoner.Scan.Remembers.step` — **a step of the scanner ends the
  scan exactly at an offence**;
* `Reckoner.Scan.offender_ofText_of_clean`, `Reckoner.Scan.ofText_of_offends` — what scans come to;
* `Reckoner.tokenize_first_offence` — **the texts that are cut into tokens are those without an
  offence, and of any other text the first offence is reported**.
-/

import Reckoner.Proofs.Concatenation
import Mathlib.Data.List.DropRight

set_option relaxedAutoImplicit false
set_option autoImplicit false

namespace Reckoner

/-! ### Offences -/

/-- The ten digits. -/
def digits : List Char := ['0', '1', '2', '3', '4', '5', '6', '7', '8', '9']

/-- The characters of the language: separators, digits, symbols and the point. -/
def alphabet : List Char :=
  [' ', '\t', '\n'] ++ digits ++ ['+', '-', '*', '/', '(', ')'] ++ ['.']

/-- A point may follow the text: there are digits at its end, and there is no point before them. -/
def TakesPoint (read : List Char) : Prop :=
  read.rtakeWhile Char.isDigit ≠ [] ∧ (read.rdropWhile Char.isDigit).getLast? ≠ some '.'

instance (read : List Char) : Decidable (TakesPoint read) :=
  inferInstanceAs (Decidable (_ ≠ _ ∧ _ ≠ _))

/-- The character may not follow the text. -/
def Offends (read : List Char) (c : Char) : Prop := c ∉ alphabet ∨ c = '.' ∧ ¬ TakesPoint read

instance (read : List Char) (c : Char) : Decidable (Offends read c) :=
  inferInstanceAs (Decidable (_ ∨ _ ∧ _))

/-- No character of the text offends. -/
def Clean (text : List Char) : Prop := ∀ read c rest, text = read ++ c :: rest → ¬ Offends read c

theorem clean_nil : Clean [] := by
  intro read c rest h
  simp at h

theorem clean_concat {text : List Char} {c : Char} :
    Clean (text ++ [c]) ↔ Clean text ∧ ¬ Offends text c := by
  constructor
  · intro h
    refine ⟨fun read d rest htext => ?_, h text c [] rfl⟩
    exact h read d (rest ++ [c]) (by rw [htext, List.append_assoc, List.cons_append])
  · rintro ⟨htext, hc⟩ read d rest h
    rcases List.eq_nil_or_concat rest with rfl | ⟨rest, d', rfl⟩
    · obtain ⟨rfl, hd⟩ := List.append_inj' h rfl
      rw [List.singleton_inj.1 hd.symm]
      exact hc
    · rw [List.concat_eq_append, ← List.cons_append, ← List.append_assoc] at h
      exact htext read d rest (List.append_inj' h rfl).1

/-- A text with an offence has a first one. -/
theorem exists_first_offence {text : List Char} (h : ¬ Clean text) :
    ∃ read c rest, text = read ++ c :: rest ∧ Clean read ∧ Offends read c := by
  induction text using List.reverseRecOn with
  | nil => exact absurd clean_nil h
  | append_singleton text c ih =>
      by_cases htext : Clean text
      · have hc : Offends text c := by
          by_contra hc
          exact h (clean_concat.2 ⟨htext, hc⟩)
        exact ⟨text, c, [], rfl, htext, hc⟩
      · obtain ⟨read, d, rest, rfl, hread, hd⟩ := ih htext
        exact ⟨read, d, rest ++ [c], by simp, hread, hd⟩

/-! ### The alphabet -/

theorem mem_digits_of_isDigit {c : Char} (h : c.isDigit = true) : c ∈ digits := by
  have hrange : 48 ≤ c.toNat ∧ c.toNat ≤ 57 := by
    simpa [Char.isDigit, UInt32.le_iff_toNat_le] using h
  have hcode : c.toNat ∈ List.range' 48 10 := by
    rw [List.mem_range'_1]
    omega
  have hall : ∀ n ∈ List.range' 48 10, Char.ofNat n ∈ digits := by decide
  simpa using hall _ hcode

/-- The alphabet consists of what the scanner knows. -/
theorem mem_alphabet_iff {c : Char} : c ∈ alphabet ↔
    isSeparator c = true ∨ c.isDigit = true ∨ (∃ kind, Kind.ofSymbol? c = some kind) ∨ c = '.' := by
  constructor
  · have hall : alphabet.all (fun d => isSeparator d || d.isDigit || (Kind.ofSymbol? d).isSome ||
        d == '.') = true := rfl
    intro h
    simpa [or_assoc, Option.isSome_iff_exists] using List.all_eq_true.1 hall c h
  · rintro (h | h | ⟨kind, h⟩ | rfl)
    · simp only [isSeparator, Bool.or_eq_true, beq_iff_eq, or_assoc] at h
      rcases h with rfl | rfl | rfl <;> decide
    · have hdigits : digits ⊆ alphabet := by decide
      exact hdigits (mem_digits_of_isDigit h)
    · simp only [Kind.ofSymbol?] at h
      split at h <;> first | decide | cases h
    · decide

/-! ### What the scanner remembers -/

/-- The scanner knows no character outside the alphabet. -/
theorem not_mem_alphabet {c : Char} (h : c ∉ alphabet) : isSeparator c = false ∧
    c.isDigit = false ∧ Kind.ofSymbol? c = none ∧ c ≠ '.' := by
  simpa [mem_alphabet_iff, Option.eq_none_iff_forall_ne_some] using h

namespace Scan

/-- What the open numeral of a scan tells of the text that has been read: whether there are digits
at its end, and whether a point is before them. -/
inductive Remembers (read : List Char) : Option Numeral → Prop
  /-- Between lexemes there is neither a digit nor a point at the end. -/
  | between (hdigits : read.rtakeWhile Char.isDigit = []) (hpoint : read.getLast? ≠ some '.') :
      Remembers read none
  /-- A numeral without a point takes one. -/
  | whole {n : Numeral} (hn : n.pointed = false) (htakes : TakesPoint read) :
      Remembers read (some n)
  /-- In a numeral with a point, that point is before the digits, if any follow it. -/
  | pointed {n : Numeral} (hn : n.pointed = true)
      (hpoint : (read.rdropWhile Char.isDigit).getLast? = some '.') : Remembers read (some n)

variable {read text : List Char} {s : Scan} {c : Char} {numeral : Option Numeral}

/-- No digits at the end of the text are cut off it if there are none. -/
theorem rdropWhile_of_rtakeWhile (h : read.rtakeWhile Char.isDigit = []) :
    read.rdropWhile Char.isDigit = read := by
  have happend : read.rdropWhile Char.isDigit ++ read.rtakeWhile Char.isDigit = read :=
    List.rdropWhile_append_rtakeWhile
  rwa [h, List.append_nil] at happend

/-- **The open numeral tells whether a point may follow.** -/
theorem Remembers.takesPoint_iff (h : Remembers read numeral) :
    TakesPoint read ↔ ∃ n, numeral = some n ∧ n.pointed = false := by
  cases h with
  | between hdigits hpoint => simp [TakesPoint, hdigits]
  | whole hn htakes => simp [hn, htakes]
  | pointed hn hpoint => simp [TakesPoint, hn, hpoint]

/-- Behind a separator or a symbol no numeral is open. -/
theorem remembers_none (hd : c.isDigit = false) (hp : c ≠ '.') : Remembers (read ++ [c]) none := by
  refine .between ?_ (by simpa using hp)
  exact List.rtakeWhile_concat_neg _ _ _ (by simp [hd])

/-- A digit begins a numeral, or goes on with the open one. -/
theorem Remembers.digit (h : Remembers read numeral) (hd : c.isDigit = true) (p : Position) :
    Remembers (read ++ [c]) (some ((numeral.map fun n => n.push c).getD ⟨p, [c], false⟩)) := by
  have hdigits : (read ++ [c]).rtakeWhile Char.isDigit ≠ [] := by
    rw [List.rtakeWhile_concat_pos _ _ _ hd]
    simp
  have hbefore : (read ++ [c]).rdropWhile Char.isDigit = read.rdropWhile Char.isDigit :=
    List.rdropWhile_concat_pos _ _ _ hd
  cases h with
  | between hnone hpoint =>
      refine .whole rfl ⟨hdigits, ?_⟩
      rwa [hbefore, rdropWhile_of_rtakeWhile hnone]
  | whole hn htakes =>
      refine .whole (by simp [Numeral.push, hn, ne_point_of_isDigit hd]) ⟨hdigits, ?_⟩
      rw [hbefore]
      exact htakes.2
  | pointed hn hpoint =>
      refine .pointed (by simp [Numeral.push, hn]) ?_
      rw [hbefore, hpoint]

/-- A point goes on with the open numeral. -/
theorem remembers_point (n : Numeral) : Remembers (read ++ ['.']) (some (n.push '.')) := by
  refine .pointed (by simp [Numeral.push]) ?_
  rw [List.rdropWhile_concat_neg _ _ _ (by decide)]
  simp

/-! ### Steps -/

/-- Between lexemes no other character is known, and neither is a point. -/
theorem offender_enter (hs : isSeparator c = false) (hd : c.isDigit = false)
    (hk : Kind.ofSymbol? c = none) : (s.enter c).offender = some c := by
  simp [enter, hs, hd, hk]

/-- A character that does not go on with a numeral is read as if none were open. -/
theorem step_eq_enter (ho : s.offender = none)
    (hc : ∀ n, s.numeral = some n → n.continuesWith c = false) : s.step c = s.close.enter c := by
  cases hn : s.numeral with
  | none => rw [step_of_none ho hn, close_of_none hn]
  | some n => exact step_of_ends ho hn (hc n hn)

/-- **An offence ends the scan.** -/
theorem offender_step (ho : s.offender = none) (h : Remembers read s.numeral)
    (hc : Offends read c) : (s.step c).offender = some c := by
  rcases hc with hc | ⟨rfl, hc⟩
  · obtain ⟨hs, hd, hk, hp⟩ := not_mem_alphabet hc
    rw [step_eq_enter ho fun n _ => by simp [Numeral.continuesWith, hd, hp]]
    exact offender_enter hs hd hk
  · have hnone : ∀ n, s.numeral = some n → n.continuesWith '.' = false := by
      intro n hn
      rw [h.takesPoint_iff] at hc
      have hpointed : n.pointed = true := by
        by_contra hp
        exact hc ⟨n, hn, by simpa using hp⟩
      simp [Numeral.continuesWith, hpointed]
    rw [step_eq_enter ho hnone]
    exact offender_enter rfl rfl rfl

/-- **All else is placed**, and the scanner remembers what it has to. -/
theorem Remembers.step (ho : s.offender = none) (h : Remembers read s.numeral)
    (hc : ¬ Offends read c) :
    (s.step c).offender = none ∧ Remembers (read ++ [c]) (s.step c).numeral := by
  have ho' : s.close.offender = none := by rwa [offender_close]
  have hnone := numeral_close s
  rw [Offends, not_or, not_not, mem_alphabet_iff] at hc
  obtain ⟨hs | hd | ⟨kind, hk⟩ | rfl, hpoint⟩ := hc
  · -- a separator
    have hends : EndsNumeral [c] := endsNumeral_separators (by simpa using hs)
    obtain ⟨hd, hp⟩ := hends c rfl
    rw [step_eq_enter ho fun n _ => hends.continuesWith n c rfl, enter_separator hs]
    exact ⟨ho', by rw [hnone]; exact remembers_none hd hp⟩
  · -- a digit
    have hremembers := h.digit hd s.position
    cases hn : s.numeral with
    | none =>
        rw [step_of_none ho hn, enter_digit hd]
        rw [hn] at hremembers
        exact ⟨ho, hremembers⟩
    | some n =>
        rw [step_of_continues ho hn (by simp [Numeral.continuesWith, hd])]
        rw [hn] at hremembers
        exact ⟨ho, hremembers⟩
  · -- a symbol
    have hends := endsNumeral_symbol hk []
    obtain ⟨hd, hp⟩ := hends c rfl
    rw [step_eq_enter ho fun n _ => hends.continuesWith n c rfl, enter_symbol hk]
    exact ⟨ho', by rw [hnone]; exact remembers_none hd hp⟩
  · -- a point, which the open numeral takes
    have htakes : TakesPoint read := by
      by_contra htakes
      exact hpoint ⟨rfl, htakes⟩
    obtain ⟨n, hn, hp⟩ := h.takesPoint_iff.1 htakes
    rw [step_of_continues ho hn (by simp [Numeral.continuesWith, hp])]
    exact ⟨ho, remembers_point n⟩

/-! ### Whole scans -/

/-- The scan of a text without an offence places every character. -/
theorem remembers_foldl (h : Clean text) : (text.foldl step start).offender = none ∧
    Remembers text (text.foldl step start).numeral := by
  induction text using List.reverseRecOn with
  | nil => exact ⟨rfl, .between rfl (by simp)⟩
  | append_singleton text c ih =>
      obtain ⟨htext, hc⟩ := clean_concat.1 h
      obtain ⟨ho, hremembers⟩ := ih htext
      rw [List.foldl_append, List.foldl_cons, List.foldl_nil]
      exact hremembers.step ho hc

theorem offender_ofText_of_clean (h : Clean text) : (ofText text).offender = none := by
  rw [offender_ofText]
  exact (remembers_foldl h).1

/-- **The first offence of a text ends the scan**, where it stands. -/
theorem ofText_of_offends (h : Clean read) (hc : Offends read c) (rest : List Char) :
    (ofText (read ++ c :: rest)).offender = some c ∧
      (ofText (read ++ c :: rest)).position = Position.start.advanceOver read := by
  obtain ⟨ho, hremembers⟩ := remembers_foldl h
  have hstep := offender_step ho hremembers hc
  have hscan : (read ++ c :: rest).foldl step start = (read.foldl step start).step c := by
    rw [List.foldl_append, List.foldl_cons, foldl_step_of_offender hstep]
  constructor
  · rw [offender_ofText, hscan, hstep]
  · rw [ofText, position_close, hscan, (step_of_offender ho hstep).2]
    exact (position_close _).trans (position_foldl ho)

end Scan

/-! ### Tokens -/

section Tokens

variable {source text : String} {fault : Fault}

/-- The fault of a text is its first offence. -/
theorem tokenize_eq_error_iff_offends : (tokenize source text).value = .error fault ↔
    ∃ read c rest, text.toList = read ++ c :: rest ∧ Offends read c ∧ Clean read ∧
      fault = ⟨.illegal c, source, Position.start.advanceOver read⟩ := by
  rw [tokenize_eq_error_iff]
  constructor
  · rintro ⟨d, ho, rfl⟩
    have hoffence : ¬ Clean text.toList := by
      intro h
      rw [Scan.offender_ofText_of_clean h] at ho
      cases ho
    obtain ⟨read, c, rest, htext, hread, hc⟩ := exists_first_offence hoffence
    obtain ⟨hoffender, hposition⟩ := Scan.ofText_of_offends hread hc rest
    rw [htext, hoffender, Option.some.injEq] at ho
    subst ho
    exact ⟨read, c, rest, htext, hc, hread, by rw [htext, hposition]⟩
  · rintro ⟨read, c, rest, htext, hc, hread, rfl⟩
    obtain ⟨hoffender, hposition⟩ := Scan.ofText_of_offends hread hc rest
    rw [← htext] at hoffender hposition
    exact ⟨c, hoffender, by rw [hposition]⟩

/-- A text is cut into tokens if it has no offence. -/
theorem exists_tokens_iff_clean :
    (∃ tokens, (tokenize source text).value = .ok tokens) ↔ Clean text.toList := by
  constructor
  · rintro ⟨tokens, h⟩
    by_contra hoffence
    obtain ⟨read, c, rest, htext, hread, hc⟩ := exists_first_offence hoffence
    rw [tokenize_eq_error_iff_offends.2 ⟨read, c, rest, htext, hc, hread, rfl⟩] at h
    cases h
  · intro h
    rw [value_tokenize, Scan.tokens, Scan.offender_ofText_of_clean h]
    exact ⟨_, rfl⟩

end Tokens

/-- **The first offence of a text is reported, and nothing else.**  A text is cut into tokens
exactly if it has no offence.  Otherwise the fault is that of its first one: it names the character
and the text, and its position is the one behind all characters before it. -/
theorem tokenize_first_offence (source text : String) :
    ((∃ tokens, (tokenize source text).value = .ok tokens) ↔
      ∀ read c rest, text.toList = read ++ c :: rest → ¬ Offends read c) ∧
    ∀ fault, (tokenize source text).value = .error fault ↔ ∃ read c rest,
      text.toList = read ++ c :: rest ∧ Offends read c ∧
      (∀ read' c' rest', read = read' ++ c' :: rest' → ¬ Offends read' c') ∧
      fault = ⟨.illegal c, source, Position.start.advanceOver read⟩ :=
  ⟨exists_tokens_iff_clean, fun _ => tokenize_eq_error_iff_offends⟩

/-- A numeral may end with its point, and points may be in two numerals, but not in one. -/
theorem tokenize_first_offence_second_point :
    Offends "7.\n1.25".toList '.' ∧ (tokenize "sums" "7.\n1.25.?").value =
      .error ⟨.illegal '.', "sums", ⟨7, 2, 4⟩⟩ := by
  have hoffends : Offends "7.\n1.25".toList '.' := by decide
  have hcut : (tokenize "sums" "7.\n1.25").value = .ok #[⟨.decimal, some (.float 7), ⟨0, 1, 0⟩⟩,
      ⟨.decimal, some (.float 1.25), ⟨3, 2, 0⟩⟩, ⟨.ending, none, ⟨7, 2, 4⟩⟩] := by
    decide +kernel
  have hbefore := (tokenize_first_offence "sums" "7.\n1.25").1.1 ⟨_, hcut⟩
  refine ⟨hoffends, ((tokenize_first_offence "sums" "7.\n1.25.?").2 _).2 ?_⟩
  exact ⟨"7.\n1.25".toList, '.', ['?'], by decide, hoffends, hbefore, by decide⟩

end Reckoner
