/-
**Separators between lexemes mean nothing.**

Spaces, tabs and line feeds may be put in at any point of a text that is not inside a numeral.  The
tokens stay the same but for their places.  So the text is read as the same tree with other places,
or has the same lapse at the same token; its value is the same; and a character that belongs to no
lexeme is still the one at fault.

That a point is not inside a numeral is a fact about the lexemes of the whole text.  It is turned
into one about the text before the point alone: no numeral is open there that could go on behind
the point.  From then on the two texts are scanned part by part.

Main definitions:

* `Reckoner.InsideNumeral` — a point is strictly inside a numeral of a text;
* `Reckoner.Corresponding`, `Reckoner.Parallel` — faults at corresponding tokens, and outcomes that
  differ in places only;
* `Reckoner.SameOccurrence` — faults at the same character, with and without the separators.

Main results:

* `Reckoner.seam_of_not_insideNumeral` — outside numerals a text falls into two parts;
* `Reckoner.calculate_separated` — **separators between lexemes change places and nothing else**.
-/

import Reckoner.Calculation
import Reckoner.Proofs.Concatenation

set_option relaxedAutoImplicit false
set_option autoImplicit false

namespace Reckoner

/-! ### Points inside numerals -/

/-- The point between `before` and `after` is strictly inside one of the numerals that are cut off
the text made of the two. -/
def InsideNumeral (before after : List Char) : Prop :=
  ∃ l ∈ (Scan.ofText (before ++ after)).lexemes, l.token.value.isSome ∧
    l.token.position.offset < before.length ∧
    before.length < l.token.position.offset + l.text.length

instance (before after : List Char) : Decidable (InsideNumeral before after) :=
  inferInstanceAs (Decidable (∃ l ∈ (Scan.ofText (before ++ after)).lexemes, _ ∧ _ ∧ _))

namespace Scan

theorem lexemes_subset_close (s : Scan) : s.lexemes ⊆ s.close.lexemes := by
  cases hn : s.numeral with
  | none => rw [close_of_none hn]; exact List.Subset.refl _
  | some n => rw [close_of_some hn]; exact List.subset_cons_self _ _

theorem lexemes_subset_enter (s : Scan) (c : Char) : s.lexemes ⊆ (s.enter c).lexemes := by
  simp only [enter]
  split_ifs
  · exact List.Subset.refl _
  · exact List.Subset.refl _
  · cases Kind.ofSymbol? c with
    | none => exact List.Subset.refl _
    | some kind => exact List.subset_cons_self _ _

theorem lexemes_subset_step (s : Scan) (c : Char) : s.lexemes ⊆ (s.step c).lexemes := by
  simp only [step]
  split
  · exact List.Subset.refl _
  · exact s.lexemes_subset_enter c
  · split
    · exact List.Subset.refl _
    · exact List.Subset.trans (lexemes_subset_close s) (lexemes_subset_enter s.close c)

/-- Lexemes that are cut off once stay so. -/
theorem lexemes_subset_foldl (text : List Char) : ∀ s : Scan,
    s.lexemes ⊆ (text.foldl step s).close.lexemes := by
  induction text with
  | nil => exact lexemes_subset_close
  | cons c text ih => exact fun s => List.Subset.trans (lexemes_subset_step s c) (ih (s.step c))

/-- An open numeral becomes a lexeme, with all the characters that it has already. -/
theorem exists_lexeme_of_numeral (text : List Char) : ∀ {s : Scan} {n : Numeral},
    s.offender = none → s.numeral = some n → ∃ l ∈ (text.foldl step s).close.lexemes,
      l.token.value.isSome ∧ l.token.position = n.position ∧ n.chars <+: l.text := by
  induction text with
  | nil =>
      intro s n _ hn
      rw [List.foldl_nil, close_of_some hn]
      exact ⟨n.lexeme, List.mem_cons_self, rfl, rfl, List.prefix_rfl⟩
  | cons c text ih =>
      intro s n ho hn
      rw [List.foldl_cons]
      cases hc : n.continuesWith c with
      | true =>
          rw [step_of_continues ho hn hc]
          obtain ⟨l, hl, hvalue, hposition, hchars⟩ := ih (s := { s with
            position := s.position.advance c, numeral := some (n.push c) }) ho rfl
          refine ⟨l, hl, hvalue, hposition, List.IsPrefix.trans ?_ hchars⟩
          exact ⟨[c], (Numeral.chars_push n c).symm⟩
      | false =>
          -- the numeral is cut off here
          have hcut : n.lexeme ∈ s.close.lexemes := by
            rw [close_of_some hn]
            exact List.mem_cons_self
          rw [step_of_ends ho hn hc]
          exact ⟨n.lexeme, lexemes_subset_foldl text _ (lexemes_subset_enter s.close c hcut), rfl,
            rfl, List.prefix_rfl⟩

end Scan

/-- The open numeral reaches to the end of the text. -/
theorem Scan.offset_of_numeral {text : List Char} {n : Numeral}
    (h : (text.foldl Scan.step Scan.start).numeral = some n) :
    n.position.offset + n.chars.length = text.length := by
  have ho := Scan.offender_eq_none_of_numeral h
  have hplaced := (Scan.sound_start.foldl ho).placed
  simp only [Scan.base, Scan.pending, h, Scan.position_foldl ho] at hplaced
  simpa [Position.offset_advanceOver, Scan.start, Position.start] using
    (congrArg Position.offset hplaced).symm

/-- **Outside numerals a text falls into two parts.**  A numeral that goes on behind the point has
characters on both sides of it. -/
theorem seam_of_not_insideNumeral {before after : List Char} (h : ¬ InsideNumeral before after) :
    Seam before after := by
  intro n hn c hc
  by_contra hgoes
  rw [Bool.not_eq_false] at hgoes
  obtain ⟨rest, rfl⟩ : ∃ rest, after = c :: rest := List.head?_eq_some_iff.1 hc
  have ho : (before.foldl Scan.step Scan.start).offender = none :=
    Scan.offender_eq_none_of_numeral hn
  have hplace := Scan.offset_of_numeral hn
  have hchars := List.length_pos_iff.2 ((Scan.sound_start.foldl ho).isNumeral n hn).ne_nil
  -- the numeral is open behind `c` too, and then it is cut off with `c` in it
  have hstep := Scan.step_of_continues ho hn hgoes
  have hclean : ((before.foldl Scan.step Scan.start).step c).offender = none := by rwa [hstep]
  have hpush : ((before.foldl Scan.step Scan.start).step c).numeral = some (n.push c) := by
    rw [hstep]
  obtain ⟨l, hl, hvalue, hposition, hprefix⟩ :=
    Scan.exists_lexeme_of_numeral rest hclean hpush
  have hlength := hprefix.length_le
  rw [Numeral.chars_push, List.length_append, List.length_singleton] at hlength
  rw [Numeral.position_push] at hposition
  refine h ⟨l, ?_, hvalue, by rw [hposition]; omega, by rw [hposition]; omega⟩
  rwa [Scan.ofText, List.foldl_append, List.foldl_cons]

/-! ### Tokens and characters at fault -/

theorem cut?_separated {before gap after : List Char} (hseam : Seam before after)
    (hgap : ∀ c ∈ gap, isSeparator c = true) :
    cut? (before ++ gap ++ after) = cut? (before ++ after) := by
  have hends := (endsNumeral_separators hgap).seam before
  rw [cut?_append (hseam.append_separators hgap), cut?_append hends, cut?_separators hgap,
    cut?_append hseam]
  cases cut? before <;> simp

/-- The two faults are at the same character, in the text without the gap and in that with it. -/
def SameOccurrence (before gap after : List Char) (fault fault' : Fault) : Prop :=
  (∃ read c rest, before = read ++ c :: rest ∧ fault.cause = .illegal c ∧
    fault.position = Position.start.advanceOver read ∧ fault' = fault) ∨
  ∃ read c rest, after = read ++ c :: rest ∧ fault.cause = .illegal c ∧
    fault.position = Position.start.advanceOver (before ++ read) ∧
    fault' = { fault with position := Position.start.advanceOver (before ++ gap ++ read) }

section Separated

variable {source : String} {before gap after : String}

/-- Separators leave the tokens as they are, but for their places. -/
theorem exists_tokens_separated (hseam : Seam before.toList after.toList)
    (hgap : ∀ c ∈ gap.toList, isSeparator c = true) {tokens : Array Token}
    (h : (tokenize source (before ++ after)).value = .ok tokens) :
    ∃ tokens', (tokenize source (before ++ gap ++ after)).value = .ok tokens' ∧
      tokens'.map Token.unplaced = tokens.map Token.unplaced := by
  obtain ⟨ts, hts, htokens⟩ := cut?_of_tokenize h
  have hts' : cut? (before ++ gap ++ after).toList = some ts := by
    rw [String.toList_append, String.toList_append, cut?_separated hseam hgap,
      ← String.toList_append, hts]
  obtain ⟨tokens', h', htokens'⟩ := exists_tokens_of_cut? hts' source
  exact ⟨tokens', h', htokens'.trans htokens.symm⟩

/-- They leave the character at fault the same. -/
theorem exists_fault_separated (hseam : Seam before.toList after.toList)
    (hgap : ∀ c ∈ gap.toList, isSeparator c = true) {fault : Fault}
    (h : (tokenize source (before ++ after)).value = .error fault) :
    ∃ fault', (tokenize source (before ++ gap ++ after)).value = .error fault' ∧
      SameOccurrence before.toList gap.toList after.toList fault fault' := by
  obtain ⟨c, ho, rfl⟩ := tokenize_eq_error_iff.1 h
  simp only [tokenize_eq_error_iff, String.toList_append] at ho ⊢
  cases hb : (Scan.ofText before.toList).offender with
  | some d =>
      rw [Scan.ofText_append_of_offender hb] at ho ⊢
      obtain ⟨read, rest, hread, -, hposition⟩ := Scan.exists_offender ho
      refine ⟨_, ⟨c, ?_, rfl⟩, Or.inl ⟨read, c, rest, hread, rfl, hposition, ?_⟩⟩
      · rwa [List.append_assoc, Scan.ofText_append_of_offender hb]
      · rw [List.append_assoc, Scan.ofText_append_of_offender hb]
  | none =>
      have hends := (endsNumeral_separators hgap).seam before.toList
      have hbg : (Scan.ofText (before.toList ++ gap.toList)).offender = none := by
        rw [Scan.ofText_append hb hends, Scan.ofText_separators hgap]
        rfl
      rw [Scan.ofText_append hb hseam] at ho ⊢
      rw [Scan.ofText_append hbg (hseam.append_separators hgap)]
      obtain ⟨read, rest, hread, -, hposition⟩ := Scan.exists_offender ho
      refine ⟨_, ⟨c, ho, rfl⟩, Or.inr ⟨read, c, rest, hread, rfl, ?_, ?_⟩⟩
      · exact Scan.position_behind_ofText hb hposition
      · rw [Scan.position_behind_ofText hbg hposition]

end Separated

/-! ### Trees and values -/

/-- The two faults are the same but for their places, which are those of corresponding tokens. -/
def Corresponding (tokens tokens' : Array Token) (fault fault' : Fault) : Prop :=
  ∃ (k : Nat) (t t' : Token), tokens[k]? = some t ∧ tokens'[k]? = some t' ∧
    fault.position = t.position ∧ fault' = { fault with position := t'.position }

/-- What comes of two lists of tokens is the `same`, or are faults at corresponding tokens. -/
def Parallel {α : Type} (same : α → α → Prop) (tokens tokens' : Array Token) :
    Except Fault α → Except Fault α → Prop
  | .ok a, .ok a' => same a a'
  | .error fault, .error fault' => Corresponding tokens tokens' fault fault'
  | _, _ => False

theorem Parallel.map {α β : Type} {same : α → α → Prop} {f : α → β} {tokens tokens' : Array Token}
    {r r' : Except Fault α} (h : Parallel same tokens tokens' r r')
    (hf : ∀ a a', same a a' → f a = f a') :
    Parallel Eq tokens tokens' (r.map f) (r'.map f) := by
  match r, r', h with
  | .ok a, .ok a', h => exact hf a a' h
  | .error fault, .error fault', h => exact h

theorem parallel_ofTokens {tokens tokens' : Array Token}
    (h : tokens'.map Token.unplaced = tokens.map Token.unplaced) (hne : tokens ≠ #[])
    (source : String) (limit : Nat) :
    Parallel (fun e e' => e'.unplaced = e.unplaced) tokens tokens'
      (Expr.ofTokens source limit tokens).value (Expr.ofTokens source limit tokens').value := by
  cases hread : (Expr.ofTokens source limit tokens).value with
  | ok e =>
      obtain ⟨e', he', hsame⟩ := Expr.ofTokens_ok_alike h hread
      rw [he']
      exact hsame
  | error fault =>
      obtain ⟨k, t, t', ht, ht', hposition, hfault⟩ := Expr.ofTokens_error_alike h hne hread
      rw [hfault]
      exact ⟨k, t, t', ht, ht', hposition, rfl⟩

/-- **Separators between lexemes change places and nothing else.**  Put into a text at a point that
is not inside a numeral, they leave its tokens as they are, the tree that these make or the lapse at
one of them, and the value.  If a character of the text belongs to no lexeme, it still does not. -/
theorem calculate_separated (settings : Settings) (before gap after : String)
    (hgap : ∀ c ∈ gap.toList, isSeparator c = true)
    (hpoint : ¬ InsideNumeral before.toList after.toList) :
    (∀ tokens, (tokenize settings.source (before ++ after)).value = .ok tokens →
      ∃ tokens', (tokenize settings.source (before ++ gap ++ after)).value = .ok tokens' ∧
        tokens'.map Token.unplaced = tokens.map Token.unplaced ∧
        Parallel (fun e e' => e'.unplaced = e.unplaced) tokens tokens'
          (readTree settings (before ++ after)).value
          (readTree settings (before ++ gap ++ after)).value ∧
        Parallel Eq tokens tokens' (calculate settings (before ++ after)).value
          (calculate settings (before ++ gap ++ after)).value) ∧
    ∀ fault, (tokenize settings.source (before ++ after)).value = .error fault →
      ∃ fault', (tokenize settings.source (before ++ gap ++ after)).value = .error fault' ∧
        SameOccurrence before.toList gap.toList after.toList fault fault' ∧
        (calculate settings (before ++ after)).value = .error fault ∧
        (calculate settings (before ++ gap ++ after)).value = .error fault' := by
  have hseam := seam_of_not_insideNumeral hpoint
  constructor
  · intro tokens h
    obtain ⟨tokens', h', hsame⟩ := exists_tokens_separated hseam hgap h
    have hne : tokens ≠ #[] := by
      rintro rfl
      obtain ⟨t, ht, -⟩ := exists_ending_of_tokenize h
      cases ht
    have hread : Parallel (fun e e' => e'.unplaced = e.unplaced) tokens tokens'
        (readTree settings (before ++ after)).value
        (readTree settings (before ++ gap ++ after)).value := by
      rw [readTree_of_tokenize h, readTree_of_tokenize h']
      exact parallel_ofTokens hsame hne settings.source settings.maxDepth
    refine ⟨tokens', h', hsame, hread, ?_⟩
    rw [value_calculate, value_calculate]
    exact hread.map fun e e' he => by rw [Expr.evaluate_of_unplaced he]
  · intro fault h
    obtain ⟨fault', h', hsame⟩ := exists_fault_separated hseam hgap h
    exact ⟨fault', h', hsame, calculate_of_tokenize_error h, calculate_of_tokenize_error h'⟩

/-- A line feed in front of an operation that lacks its second operand moves the fault to the next
line, and nothing happens to the numeral that ends with its point. -/
theorem calculate_separated_lapse :
    (calculate .standard "(1.+)").value =
      .error ⟨.ungrammatical .operandDue, "<stdin>", ⟨4, 1, 4⟩⟩ ∧
    (calculate .standard "(1.\n +)").value =
      .error ⟨.ungrammatical .operandDue, "<stdin>", ⟨6, 2, 2⟩⟩ ∧
    ∃ tokens tokens', (tokenize "<stdin>" "(1.+)").value = .ok tokens ∧
      (tokenize "<stdin>" "(1.\n +)").value = .ok tokens' ∧
      Parallel Eq tokens tokens' (calculate .standard "(1.+)").value
        (calculate .standard "(1.\n +)").value := by
  have hcut : ∃ tokens, (tokenize "<stdin>" "(1.+)").value = .ok tokens := by
    refine ⟨#[⟨.opening, none, ⟨0, 1, 0⟩⟩, ⟨.decimal, some (.float 1), ⟨1, 1, 1⟩⟩,
      ⟨.plus, none, ⟨3, 1, 3⟩⟩, ⟨.closing, none, ⟨4, 1, 4⟩⟩, ⟨.ending, none, ⟨5, 1, 5⟩⟩], ?_⟩
    decide +kernel
  obtain ⟨tokens, hcut⟩ := hcut
  obtain ⟨tokens', hcut', -, -, hvalue⟩ := (calculate_separated .standard "(1." "\n " "+)"
    (by simp [isSeparator]) (by decide +kernel)).1 tokens hcut
  exact ⟨by decide +kernel, by decide +kernel, tokens, tokens', hcut, hcut', hvalue⟩

end Reckoner
