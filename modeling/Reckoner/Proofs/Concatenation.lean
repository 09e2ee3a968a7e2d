/-
**Texts in two parts are scanned part by part.**

A scan knows nothing of the text before it but where it stands and what it has cut off so far, and
the numeral that it may be in the middle of.  So a text made of two parts is scanned as the first
part is, and then as the second part would be on its own, with its places moved behind the first —
unless a numeral goes on from one part into the other.  If the first part has a character that
belongs to no lexeme, the second part is never looked at.

Main definitions:

* `Reckoner.Position.beyond` — a place of the second part as a place of the whole;
* `Reckoner.Scan.behind` — the scan of the second part as it is behind the first;
* `Reckoner.Seam` — no numeral goes on from one text into another;
* `Reckoner.cut?` — the tokens of a text, but for their places and the mark behind them.

Main results:

* `Reckoner.Scan.ofText_append`, `Reckoner.Scan.ofText_append_of_offender` — **the scan of a text
  in two parts**;
* `Reckoner.cut?_append` — its tokens are those of the first part and those of the second;
* `Reckoner.Scan.exists_offender` — where the character is that belongs to no lexeme.
-/

import Reckoner.Proofs.Places
import Reckoner.Proofs.Tiling

set_option relaxedAutoImplicit false
set_option autoImplicit false

namespace Reckoner

/-! ### Places behind a text -/

/-- The place that is reached from `p` in the way in which `q` is reached from the start of a text.
The column of `p` matters to the first line only. -/
def Position.beyond (p q : Position) : Position :=
  ⟨p.offset + q.offset, p.line + (q.line - 1), if q.line = 1 then p.column + q.column else q.column⟩

namespace Position

theorem beyond_start (p : Position) : p.beyond start = p := by
  simp [beyond, start]

theorem one_le_line_advance {q : Position} (h : 1 ≤ q.line) (c : Char) :
    1 ≤ (q.advance c).line := by
  simp only [advance]
  split_ifs
  · exact Nat.le_succ_of_le h
  · exact h

theorem advance_beyond {q : Position} (h : 1 ≤ q.line) (p : Position) (c : Char) :
    (p.beyond q).advance c = p.beyond (q.advance c) := by
  by_cases hc : c = '\n'
  · have hline : q.line - 1 + 1 = q.line := Nat.sub_add_cancel h
    have hne : q.line ≠ 0 := by omega
    simp [advance, beyond, hc, hline, hne, Nat.add_assoc]
  · by_cases hone : q.line = 1 <;> simp [advance, beyond, hc, hone, Nat.add_assoc]

theorem advanceOver_beyond (text : List Char) : ∀ {q : Position}, 1 ≤ q.line → ∀ p : Position,
    (p.beyond q).advanceOver text = p.beyond (q.advanceOver text) := by
  induction text with
  | nil => intro q _ p; rfl
  | cons c text ih =>
      intro q h p
      rw [advanceOver_cons, advance_beyond h, ih (one_le_line_advance h c), advanceOver_cons]

/-- The place behind a text, seen from `p`, is the place behind it if it begins at `p`. -/
theorem beyond_advanceOver (p : Position) (text : List Char) :
    p.beyond (start.advanceOver text) = p.advanceOver text := by
  rw [← advanceOver_beyond text (Nat.le_refl 1), beyond_start]

end Position

/-! ### Scans behind other scans -/

/-- The lexeme with its place seen from `p`. -/
def Lexeme.beyond (p : Position) (l : Lexeme) : Lexeme :=
  { l with token := { l.token with position := p.beyond l.token.position } }

/-- The numeral with its place seen from `p`. -/
def Numeral.beyond (p : Position) (n : Numeral) : Numeral :=
  { n with position := p.beyond n.position }

namespace Scan

/-- The scan `s` as it is behind the scan `first` of an earlier part of the text. -/
def behind (first s : Scan) : Scan where
  position := first.position.beyond s.position
  lexemes := s.lexemes.map (Lexeme.beyond first.position) ++ first.lexemes
  numeral := s.numeral.map (Numeral.beyond first.position)
  offender := s.offender

theorem close_behind (first s : Scan) : (first.behind s).close = first.behind s.close := by
  cases hn : s.numeral with
  | none => rw [close_of_none hn, close_of_none (by simp [behind, hn])]
  | some n =>
      have hn' : (first.behind s).numeral = some (n.beyond first.position) := by simp [behind, hn]
      rw [close_of_some hn, close_of_some hn']
      rfl

theorem enter_behind {s : Scan} (h : 1 ≤ s.position.line) (first : Scan) (c : Char) :
    (first.behind s).enter c = first.behind (s.enter c) := by
  simp only [enter]
  split_ifs
  · simp [behind, Position.advance_beyond h]
  · simp [behind, Position.advance_beyond h, Numeral.beyond]
  · cases Kind.ofSymbol? c with
    | none => rfl
    | some kind => simp [behind, Position.advance_beyond h, Lexeme.beyond]

theorem step_behind {s : Scan} (h : 1 ≤ s.position.line) (first : Scan) (c : Char) :
    (first.behind s).step c = first.behind (s.step c) := by
  cases ho : s.offender with
  | some d =>
      have ho' : (first.behind s).offender = some d := ho
      simp only [step, ho, ho']
  | none =>
      have ho' : (first.behind s).offender = none := ho
      cases hn : s.numeral with
      | none =>
          rw [step_of_none ho hn, step_of_none ho' (by simp [behind, hn]), enter_behind h]
      | some n =>
          have hn' : (first.behind s).numeral = some (n.beyond first.position) := by
            simp [behind, hn]
          cases hc : n.continuesWith c with
          | true =>
              rw [step_of_continues ho hn hc, step_of_continues ho' hn' hc]
              simp [behind, Position.advance_beyond h, Numeral.beyond, Numeral.push]
          | false =>
              rw [step_of_ends ho hn hc, step_of_ends ho' hn' hc, close_behind,
                enter_behind (by rwa [position_close])]

/-- A character that belongs to no lexeme ends the scan where it stands. -/
theorem enter_of_offender {s : Scan} {c d : Char} (ho : s.offender = none)
    (h : (s.enter c).offender = some d) : d = c ∧ s.enter c = { s with offender := some c } := by
  simp only [enter] at h ⊢
  split_ifs at h ⊢ with hs hd
  · rw [ho] at h
    cases h
  · rw [ho] at h
    cases h
  · cases hk : Kind.ofSymbol? c with
    | none =>
        simp only [hk, Option.some.injEq] at h
        exact ⟨h.symm, rfl⟩
    | some kind =>
        simp only [hk, ho] at h
        cases h

/-- A numeral before it is finished first. -/
theorem step_of_offender {s : Scan} {c d : Char} (ho : s.offender = none)
    (h : (s.step c).offender = some d) :
    d = c ∧ s.step c = { s.close with offender := some c } := by
  cases hn : s.numeral with
  | none =>
      rw [step_of_none ho hn] at h ⊢
      rw [close_of_none hn]
      exact enter_of_offender ho h
  | some n =>
      cases hc : n.continuesWith c with
      | true =>
          rw [step_of_continues ho hn hc, ho] at h
          cases h
      | false =>
          rw [step_of_ends ho hn hc] at h ⊢
          exact enter_of_offender (by rwa [offender_close]) h

theorem one_le_line_step {s : Scan} (h : 1 ≤ s.position.line) (c : Char) :
    1 ≤ (s.step c).position.line := by
  cases ho : s.offender with
  | some d => simpa only [step, ho] using h
  | none =>
      cases hstep : (s.step c).offender with
      | some d => rwa [(step_of_offender ho hstep).2, position_close]
      | none =>
          rw [position_step ho hstep]
          exact Position.one_le_line_advance h c

theorem foldl_behind (first : Scan) (text : List Char) : ∀ {s : Scan}, 1 ≤ s.position.line →
    text.foldl step (first.behind s) = first.behind (text.foldl step s) := by
  induction text with
  | nil => intro s _; rfl
  | cons c text ih =>
      intro s h
      rw [List.foldl_cons, step_behind h, ih (one_le_line_step h c), List.foldl_cons]

end Scan

/-! ### Texts in two parts -/

/-- No numeral at the end of the first text goes on into the second. -/
def Seam (first second : List Char) : Prop :=
  ∀ n, (first.foldl Scan.step Scan.start).numeral = some n →
    ∀ c ∈ second.head?, n.continuesWith c = false

theorem EndsNumeral.seam {second : List Char} (h : EndsNumeral second) (first : List Char) :
    Seam first second := fun n _ => h.continuesWith n

/-- No separator is part of a numeral. -/
theorem endsNumeral_separators {gap : List Char} (h : ∀ c ∈ gap, isSeparator c = true) :
    EndsNumeral gap := by
  intro c hc
  have hsep := h c (List.mem_of_mem_head? hc)
  constructor
  · by_contra hd
    rw [Bool.not_eq_false] at hd
    rw [Scan.not_isSeparator_of_isDigit hd] at hsep
    cases hsep
  · rintro rfl
    cases hsep

namespace Scan

variable {first second text : List Char}

theorem offender_ofText (text : List Char) :
    (ofText text).offender = (text.foldl step start).offender := offender_close _

/-- The second part is never looked at if a character of the first one belongs to no lexeme. -/
theorem ofText_append_of_offender {c : Char} (h : (ofText first).offender = some c)
    (second : List Char) : ofText (first ++ second) = ofText first := by
  rw [offender_ofText] at h
  rw [ofText, List.foldl_append, foldl_step_of_offender h, ofText]

/-- **Otherwise it is scanned as it would be on its own**, with its places moved. -/
theorem ofText_append (h : (ofText first).offender = none) (hseam : Seam first second) :
    ofText (first ++ second) = (ofText first).behind (ofText second) := by
  have hopen : (first.foldl step start).offender = none := by rwa [offender_ofText] at h
  have hstart : (ofText first).behind start = ofText first := by
    have hnumeral : (ofText first).numeral = none := numeral_close _
    have hbeyond := (ofText first).position.beyond_start
    cases hscan : ofText first with
    | mk position lexemes numeral offender => simp_all [behind, start]
  calc ofText (first ++ second)
      = (second.foldl step (first.foldl step start)).close := by rw [ofText, List.foldl_append]
    _ = (second.foldl step (ofText first)).close := close_foldl_of_ends hopen hseam
    _ = (second.foldl step ((ofText first).behind start)).close := by rw [hstart]
    _ = (ofText first).behind (ofText second) := by
        rw [foldl_behind _ _ (Nat.le_refl 1), close_behind]
        rfl

theorem position_ofText (h : (ofText text).offender = none) :
    (ofText text).position = Position.start.advanceOver text := by
  rw [offender_ofText] at h
  rw [ofText, position_close, position_foldl h, start]

theorem exists_offender_foldl {c : Char} : ∀ {text : List Char} {s : Scan}, s.offender = none →
    (text.foldl step s).offender = some c → ∃ read rest, text = read ++ c :: rest ∧
      (read.foldl step s).offender = none ∧
      text.foldl step s = { (read.foldl step s).close with offender := some c } := by
  intro text
  induction text with
  | nil =>
      intro s ho h
      rw [List.foldl_nil, ho] at h
      cases h
  | cons d text ih =>
      intro s ho h
      cases hstep : (s.step d).offender with
      | none =>
          obtain ⟨read, rest, rfl, hread, hfold⟩ := ih hstep h
          exact ⟨d :: read, rest, rfl, hread, hfold⟩
      | some d' =>
          obtain ⟨rfl, hscan⟩ := step_of_offender ho hstep
          rw [List.foldl_cons, foldl_step_of_offender hstep] at h ⊢
          rw [hstep, Option.some.injEq] at h
          subst h
          exact ⟨[], text, rfl, ho, hscan⟩

/-- No numeral is open where a scan has ended. -/
theorem offender_eq_none_of_numeral {n : Numeral}
    (h : (text.foldl step start).numeral = some n) : (text.foldl step start).offender = none := by
  cases ho : (text.foldl step start).offender with
  | none => rfl
  | some c =>
      obtain ⟨read, rest, -, -, hfold⟩ := exists_offender_foldl rfl ho
      have hnone : (text.foldl step start).numeral = none := by rw [hfold]; exact numeral_close _
      rw [hnone] at h
      cases h

/-- The character that belongs to no lexeme stands behind a text that has none of the kind, and the
scan ends there. -/
theorem exists_offender {c : Char} (h : (ofText text).offender = some c) :
    ∃ read rest, text = read ++ c :: rest ∧ (ofText read).offender = none ∧
      (ofText text).position = Position.start.advanceOver read := by
  rw [offender_ofText] at h
  obtain ⟨read, rest, htext, hread, hfold⟩ := exists_offender_foldl rfl h
  refine ⟨read, rest, htext, by rwa [offender_ofText], ?_⟩
  rw [ofText, position_close, hfold, position_close, position_foldl hread, start]

/-- If that character is in the second of two texts, it is found behind the first one. -/
theorem position_behind_ofText {read : List Char} (h : (ofText first).offender = none)
    (hread : (ofText second).position = Position.start.advanceOver read) :
    ((ofText first).behind (ofText second)).position =
      Position.start.advanceOver (first ++ read) := by
  rw [behind, hread, Position.beyond_advanceOver, position_ofText h, Position.advanceOver_append]

/-- A separator finishes the numeral before it. -/
theorem step_separator {s : Scan} {c : Char} (ho : s.offender = none)
    (hc : isSeparator c = true) :
    s.step c = { s.close with position := s.position.advance c } := by
  cases hn : s.numeral with
  | none => rw [step_of_none ho hn, enter_separator hc, close_of_none hn]
  | some n =>
      have hends : EndsNumeral [c] := endsNumeral_separators (by simpa using hc)
      rw [step_of_ends ho hn (hends.continuesWith n c rfl), enter_separator hc, position_close]

/-- Separators are passed and leave nothing behind. -/
theorem foldl_separators {gap : List Char} : ∀ {s : Scan}, s.offender = none → s.numeral = none →
    (∀ c ∈ gap, isSeparator c = true) →
      gap.foldl step s = { s with position := s.position.advanceOver gap } := by
  induction gap with
  | nil => intro s _ _ _; rfl
  | cons c gap ih =>
      intro s ho hn h
      rw [List.foldl_cons, step_of_none ho hn, enter_separator (h c List.mem_cons_self),
        ih (s := { s with position := s.position.advance c }) ho hn
          fun d hd => h d (List.mem_cons_of_mem _ hd), Position.advanceOver_cons]

theorem ofText_separators {gap : List Char} (h : ∀ c ∈ gap, isSeparator c = true) :
    ofText gap = ⟨Position.start.advanceOver gap, [], none, none⟩ := by
  rw [ofText, foldl_separators rfl rfl h]
  rfl

end Scan

/-- Behind separators no numeral is open. -/
theorem Seam.append_separators {before gap after : List Char} (h : Seam before after)
    (hgap : ∀ c ∈ gap, isSeparator c = true) : Seam (before ++ gap) after := by
  rcases List.eq_nil_or_concat gap with rfl | ⟨gap, c, rfl⟩
  · rwa [List.append_nil]
  · intro n hn
    have ho := Scan.offender_eq_none_of_numeral hn
    rw [List.concat_eq_append, ← List.append_assoc, List.foldl_append] at hn ho
    rw [List.foldl_cons, List.foldl_nil,
      Scan.step_separator (Scan.offender_eq_none_of_foldl _ [c] ho) (hgap c (by simp))] at hn
    cases hn.symm.trans (Scan.numeral_close _)

/-! ### Tokens -/

/-- The tokens of a text, their places and the mark behind them left out. -/
def cut? (text : List Char) : Option (List Token) :=
  match (Scan.ofText text).offender with
  | some _ => none
  | none => some ((Scan.ofText text).lexemes.reverse.map fun l => l.token.unplaced)

/-- They are those of its tiling. -/
theorem cut?_of_tiles {text : List Char} {ls : List Lexeme} (h : Tiles Position.start text ls) :
    cut? text = some (ls.map fun l => l.token.unplaced) := by
  have hscan := Scan.foldl_of_tiles h []
  rw [cut?, Scan.ofText, Scan.start, hscan]
  simp

/-- **The tokens of a text in two parts are those of its parts.** -/
theorem cut?_append {first second : List Char} (hseam : Seam first second) :
    cut? (first ++ second) = do return (← cut? first) ++ (← cut? second) := by
  cases ho : (Scan.ofText first).offender with
  | some c => simp [cut?, Scan.ofText_append_of_offender ho, ho]
  | none =>
      rw [cut?, Scan.ofText_append ho hseam]
      cases ho' : (Scan.ofText second).offender with
      | some c => simp [cut?, Scan.behind, ho']
      | none =>
          simp [cut?, Scan.behind, ho, ho', Function.comp_def, Lexeme.beyond, Token.unplaced]

theorem cut?_symbol {c : Char} {kind : Kind} (h : Kind.ofSymbol? c = some kind) :
    cut? [c] = some [⟨kind, none, Position.start⟩] := by
  have hscan : Scan.ofText [c] =
      ⟨Position.start.advance c, [⟨[c], ⟨kind, none, Position.start⟩⟩], none, none⟩ := by
    rw [Scan.ofText, List.foldl_cons, Scan.step_of_none rfl rfl, Scan.enter_symbol h]
    rfl
  simp [cut?, hscan, Token.unplaced]

theorem endsNumeral_symbol {c : Char} {kind : Kind} (h : Kind.ofSymbol? c = some kind)
    (rest : List Char) : EndsNumeral (c :: rest) := by
  simp only [Kind.ofSymbol?] at h
  split at h <;> first | exact endsNumeral_cons (by decide) (by decide) rest | cases h

theorem cut?_cons_symbol {c : Char} {kind : Kind} (h : Kind.ofSymbol? c = some kind)
    (rest : List Char) :
    cut? (c :: rest) = (cut? rest).map fun ts => ⟨kind, none, Position.start⟩ :: ts := by
  have hseam : Seam [c] rest := by
    intro n hn
    rw [List.foldl_cons, List.foldl_nil, Scan.step_of_none rfl rfl, Scan.enter_symbol h] at hn
    cases hn
  rw [← List.singleton_append, cut?_append hseam, cut?_symbol h]
  cases cut? rest <;> rfl

/-- A symbol parts what stands before it from what stands behind it. -/
theorem cut?_append_symbol {c : Char} {kind : Kind} (h : Kind.ofSymbol? c = some kind)
    (text rest : List Char) : cut? (text ++ c :: rest) =
      do return (← cut? text) ++ ⟨kind, none, Position.start⟩ :: (← cut? rest) := by
  rw [cut?_append ((endsNumeral_symbol h rest).seam text), cut?_cons_symbol h]
  cases cut? rest <;> rfl

/-- Separators are no part of a token. -/
theorem cut?_separators {gap : List Char} (h : ∀ c ∈ gap, isSeparator c = true) :
    cut? gap = some [] := by
  simp [cut?, Scan.ofText_separators h]

/-- A text is cut into tokens exactly if each of its characters belongs to some lexeme. -/
theorem exists_tokens_of_cut? {text : String} {ts : List Token} (h : cut? text.toList = some ts)
    (source : String) : ∃ tokens, (tokenize source text).value = .ok tokens ∧
      tokens.map Token.unplaced = (ts ++ [endMark []]).toArray := by
  rw [value_tokenize, Scan.tokens]
  cases ho : (Scan.ofText text.toList).offender with
  | some c => simp [cut?, ho] at h
  | none =>
      simp only [cut?, ho, Option.some.injEq] at h
      subst h
      exact ⟨_, rfl, by simp [Token.unplaced, endMark]⟩

/-- Otherwise the first character of another kind is at fault. -/
theorem tokenize_eq_error_iff {source text : String} {fault : Fault} :
    (tokenize source text).value = .error fault ↔ ∃ c,
      (Scan.ofText text.toList).offender = some c ∧
        fault = ⟨.illegal c, source, (Scan.ofText text.toList).position⟩ := by
  rw [value_tokenize, Scan.tokens]
  cases (Scan.ofText text.toList).offender with
  | none => simp
  | some c => simp [eq_comm]

theorem cut?_of_tokenize {source text : String} {tokens : Array Token}
    (h : (tokenize source text).value = .ok tokens) :
    ∃ ts, cut? text.toList = some ts ∧
      tokens.map Token.unplaced = (ts ++ [endMark []]).toArray := by
  rw [value_tokenize, Scan.tokens] at h
  cases ho : (Scan.ofText text.toList).offender with
  | some c =>
      simp only [ho] at h
      cases h
  | none =>
      simp only [ho, Except.ok.injEq] at h
      subst h
      exact ⟨(Scan.ofText text.toList).lexemes.reverse.map fun l => l.token.unplaced,
        by simp only [cut?, ho], by simp [Token.unplaced, endMark]⟩

/-- Tokens of a text are those of a tiling. -/
theorem exists_tiles_of_cut? {text : List Char} {ts : List Token} (h : cut? text = some ts) :
    ∃ ls, Tiles Position.start text ls ∧ ts = ls.map fun l => l.token.unplaced := by
  have h' : cut? (String.ofList text).toList = some ts := by rwa [String.toList_ofList]
  obtain ⟨tokens, hcut, -⟩ := exists_tokens_of_cut? h' ""
  obtain ⟨ls, htiles, -⟩ := tokenize_eq_ok_iff.1 hcut
  rw [String.toList_ofList] at htiles
  rw [cut?_of_tiles htiles, Option.some.injEq] at h
  exact ⟨ls, htiles, h.symm⟩

/-- No text holds an end mark. -/
theorem kind_ne_ending_of_cut? {text : List Char} {ts : List Token} (h : cut? text = some ts) :
    ∀ t ∈ ts, t.kind ≠ .ending := by
  obtain ⟨ls, htiles, rfl⟩ := exists_tiles_of_cut? h
  intro t ht
  obtain ⟨l, hl, rfl⟩ := List.mem_map.1 ht
  exact (htiles.spelled l hl).wellSpelled.kind_ne_ending

end Reckoner
