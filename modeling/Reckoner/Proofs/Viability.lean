/-
**Lapses are found at the first token that no expression can have there.**

A lapse of the reader, unless it is about the limit on signs and brackets, has a place in the list
of tokens.  This module shows that the place is the only right one: the tokens before it are the
beginning of some expression, and with the token in that place they are the beginning of none.  It
also shows that the lapse says what was due there, as far as this can be seen from the tokens
before that place alone.

The argument goes through the phases of `Reckoner/Proofs/Grammar.lean`.  The account of a lapse in
`Reckoner/Proofs/Reading.lean` gives the phase at its place, and that this phase refuses the token.
Tokens that lead to a phase can be completed: a number where an operand is due, a closing bracket
for each one that is open, and the end mark.  That the reader does accept the completed list needs
no new reading: a lapse in it would have to be at a token that some phase refuses, and there is
none.

Main definitions:

* `Reckoner.Grammar.Phase.Refuses` — a token may not stand where it stands, be it an end mark;
* `Reckoner.Grammar.Phase.completion` — tokens that make an expression of those before a phase;
* `Reckoner.Expr.Extendable` — some list of tokens that begins with the given ones is read;
* `Reckoner.Expr.OperandDue`, `Reckoner.Expr.unclosed` — what is due after some tokens, told from
  the last one of them and from their brackets.

Main results:

* `Reckoner.Expr.whole_lapse_cases` — a lapse is at a refused token or about the limit;
* `Reckoner.Expr.extendable_of_after`, `Reckoner.Expr.not_extendable_of_refuses` — tokens can be
  completed as long as no phase refuses one of them, and no longer;
* `Reckoner.Expr.lapse_at_first_offender` — **a lapse points at the first offending token and names
  what was due there**.
-/

import Reckoner.Proofs.Reading
import Reckoner.Proofs.Tiling

set_option relaxedAutoImplicit false
set_option autoImplicit false

namespace Reckoner.Grammar

namespace Phase

/-- The token may not stand behind the tokens that led to this phase.  The end mark may stand where
an expression is complete. -/
def Refuses (q : Phase) (t : Token) : Prop :=
  q.next t = none ∧ (q = .complete 0 → t.kind ≠ .ending)

/-- The number of brackets that are open. -/
def brackets : Phase → Nat
  | due n => n
  | complete n => n

/-- Some number. -/
def someNumber : Token := ⟨.integer, some (.int 0), Position.start⟩

/-- A closing bracket. -/
def someClosing : Token := ⟨.closing, none, Position.start⟩

/-- The mark behind the last token. -/
def someEnd : Token := ⟨.ending, none, Position.start⟩

/-- Tokens that make an expression of the tokens that led to this phase. -/
def completion : Phase → List Token
  | due n => someNumber :: List.replicate n someClosing
  | complete n => List.replicate n someClosing

theorem after_replicate_closing (n : Nat) :
    (complete n).after (List.replicate n someClosing) = some (complete 0) := by
  induction n with
  | zero => rfl
  | succ n ih =>
      have hnext : (complete (n + 1)).next someClosing = some (complete n) := next_closing rfl n
      simp [List.replicate_succ, hnext, ih]

theorem after_completion (q : Phase) : q.after q.completion = some (complete 0) := by
  cases q with
  | due n =>
      have hnext : (due n).next someNumber = some (complete n) :=
        next_number ⟨Or.inl rfl, rfl⟩ n
      simp [completion, hnext, after_replicate_closing]
  | complete n => exact after_replicate_closing n

/-- Tokens that lead to a phase lead through one with each beginning of theirs. -/
theorem after_append_eq_some {p q : Phase} {ts us : List Token}
    (h : p.after (ts ++ us) = some q) : ∃ r, p.after ts = some r ∧ r.after us = some q := by
  rw [after_append] at h
  exact Option.bind_eq_some_iff.1 h

theorem after_append_of_next_eq_none {p q : Phase} {ts us : List Token} {t : Token}
    (hq : p.after ts = some q) (ht : q.next t = none) : p.after (ts ++ t :: us) = none := by
  simp [hq, ht]

end Phase

end Reckoner.Grammar

namespace Reckoner.Expr

open Grammar

/-! ### Where a lapse is -/

/-- **A lapse is at a refused token or about the limit.** -/
theorem whole_lapse_cases {tokens : Array Token} {limit : Nat} {l : Lapse} {stop : Cursor}
    (hend : ∃ t ∈ tokens.toList, t.kind = .ending) (h : whole tokens limit = .lapse l stop) :
    (∃ ts rest, tokens.toList = ts ++ rest ∧ limit < openers ts ∧ l = .tooDeep limit) ∨
    ∃ ts t rest q, tokens.toList = ts ++ t :: rest ∧ stop.index = ts.length ∧
      (Phase.due 0).after ts = some q ∧ q.Refuses t ∧ l = q.lapse := by
  have hstart : EndAhead tokens .start := hend
  have hacc := rule_account tokens (.chain .expression) limit .start hstart
  rcases whole_eq_lapse_iff.1 h with hrule | ⟨⟨e, hrule⟩, hk, rfl⟩
  · rw [hrule] at hacc
    cases hacc with
    | @refused ts rest t _ _ ha hr hl hdue =>
        obtain ⟨q, hq, ht, rfl⟩ := hdue 0
        refine Or.inr ⟨ts, t, rest, q, ha, by simp [hr.index, Cursor.start], hq, ⟨ht, ?_⟩, rfl⟩
        rintro rfl
        exact absurd rfl hl
    | @tooDeep ts rest _ ha hr ho =>
        exact Or.inl ⟨ts, rest, ha, by omega, by simp [Cursor.start]⟩
  · rw [hrule] at hacc
    cases hacc with
    | @tree ts rest _ d _ ha hd hf hr hs =>
        obtain ⟨t, rest', hnext⟩ := (hstart.of_reaches ha hr hd.kind_ne_ending).exists_cons
        have hall : tokens.toList = ts ++ t :: rest' := by
          rw [← hnext, hr.ahead ha]
          exact ha
        rw [kindAt_of_ahead hnext] at hk hs
        refine Or.inr ⟨ts, t, rest', .complete 0, hall, by simp [hr.index, Cursor.start],
          hd.after_due 0, ⟨?_, fun _ => hk⟩, rfl⟩
        exact Phase.next_complete_eq_none hs fun _ => rfl

/-! ### How far tokens can be completed -/

/-- Some list of tokens that begins with these is read, under some limit. -/
def Extendable (ts : List Token) : Prop :=
  ∃ (more : List Token) (source : String) (limit : Nat) (e : Expr),
    (ofTokens source limit (ts ++ more).toArray).value = .ok e

theorem Extendable.of_append {ts us : List Token} (h : Extendable (ts ++ us)) : Extendable ts := by
  obtain ⟨more, source, limit, e, h⟩ := h
  exact ⟨us ++ more, source, limit, e, by rwa [← List.append_assoc]⟩

/-- A token that is refused behind the first of some tokens is refused in all of them. -/
theorem eq_of_next_eq_none {ts us rest : List Token} {t mark : Token} {q : Phase}
    (h : ts ++ [mark] = us ++ t :: rest) (hq : (Phase.due 0).after us = some q)
    (ht : q.next t = none) (hts : ((Phase.due 0).after ts).isSome) : us = ts ∧ t = mark := by
  rcases List.eq_nil_or_concat rest with rfl | ⟨more, last, rfl⟩
  · obtain ⟨hus, htm⟩ := List.append_inj' h rfl
    exact ⟨hus.symm, (List.singleton_inj.1 htm).symm⟩
  · have hts' : ts = us ++ t :: more := by
      have h' : ts ++ [mark] = (us ++ t :: more) ++ [last] := by
        rw [h]
        simp
      exact (List.append_inj' h' rfl).1
    rw [hts', Phase.after_append_of_next_eq_none hq ht] at hts
    cases hts

/-- Tokens that complete an operand outside all brackets make an expression. -/
theorem whole_of_after {ts : List Token} (h : (Phase.due 0).after ts = some (.complete 0)) :
    ∃ e next, whole (ts ++ [Phase.someEnd]).toArray (openers ts) = .tree e next := by
  cases hw : whole (ts ++ [Phase.someEnd]).toArray (openers ts) with
  | tree e next => exact ⟨e, next, rfl⟩
  | lapse l stop =>
      exfalso
      have hend : ∃ t ∈ (ts ++ [Phase.someEnd]).toArray.toList, t.kind = .ending :=
        ⟨Phase.someEnd, by simp, rfl⟩
      rcases whole_lapse_cases hend hw with ⟨us, rest, hus, ho, -⟩ |
        ⟨us, t, rest, q, hus, -, hq, ht, -⟩
      · -- the room is enough for all tokens, of which those passed are some
        have hle : openers us ≤ openers (ts ++ [Phase.someEnd]) := by
          rw [show ts ++ [Phase.someEnd] = us ++ rest from hus, openers_append]
          exact Nat.le_add_right _ _
        have hmark : openers [Phase.someEnd] = 0 := rfl
        rw [openers_append, hmark] at hle
        omega
      · obtain ⟨rfl, rfl⟩ := eq_of_next_eq_none hus hq ht.1 (by simp [h])
        rw [h, Option.some.injEq] at hq
        exact ht.2 hq.symm rfl

/-- Tokens that lead to a phase can be completed. -/
theorem extendable_of_after {ts : List Token} {q : Phase} (h : (Phase.due 0).after ts = some q) :
    Extendable ts := by
  have hall : (Phase.due 0).after (ts ++ q.completion) = some (.complete 0) := by
    simp [h, q.after_completion]
  obtain ⟨e, next, hw⟩ := whole_of_after hall
  rw [List.append_assoc] at hw
  exact ⟨q.completion ++ [Phase.someEnd], "", _, e, ofTokens_eq_ok_iff.2 ⟨next, hw⟩⟩

/-- Tokens of which the last one is refused cannot. -/
theorem not_extendable_of_refuses {ts : List Token} {t : Token} {q : Phase}
    (h : (Phase.due 0).after ts = some q) (ht : q.Refuses t) : ¬ Extendable (ts ++ [t]) := by
  rintro ⟨more, source, limit, e, hread⟩
  obtain ⟨hend, d, -, hd⟩ := ofTokens_eq_ok_iff_derives.1 hread
  obtain ⟨mark, rest, hall, hm⟩ := exists_mark_of_mem hend
  have hbefore := hd.after_due 0
  have hnone : (Phase.due 0).after (ts ++ [t]) = none := by simp [h, ht.1]
  generalize beforeEnd (ts ++ [t] ++ more).toArray.toList = before at hall hbefore
  rcases List.append_eq_append_iff.1 hall with ⟨us, rfl, -⟩ | ⟨us, hts, hus⟩
  · -- the refused token would be part of the expression
    obtain ⟨r, hr, -⟩ := Phase.after_append_eq_some hbefore
    rw [hnone] at hr
    cases hr
  · cases us with
    | nil =>
        rw [List.append_nil] at hts
        rw [hts, hbefore] at hnone
        cases hnone
    | cons mark' us =>
        -- the end mark is one of the tokens, so it is the refused one
        obtain ⟨rfl, -⟩ := List.cons_eq_cons.1 hus
        obtain ⟨rfl, rfl⟩ := eq_of_next_eq_none hts hbefore (Phase.next_ending _ hm) (by simp [h])
        rw [h, Option.some.injEq] at hbefore
        exact ht.2 hbefore hm

/-! ### What is due, told from the tokens -/

/-- An operand is due behind no tokens at all and behind an operation, a sign or an opening
bracket. -/
def OperandDue (ts : List Token) : Prop :=
  ∀ t ∈ ts.getLast?, t.kind.operation?.isSome ∨ t.kind = .opening

/-- The number of open brackets with one more token. -/
def countBracket (n : Nat) (t : Token) : Nat :=
  if t.kind = .opening then n + 1 else if t.kind = .closing then n - 1 else n

/-- The number of opening brackets that no later bracket closes. -/
def unclosed (ts : List Token) : Nat := ts.foldl countBracket 0

theorem brackets_next {p q : Phase} {t : Token} (h : p.next t = some q) :
    q.brackets = countBracket p.brackets t := by
  cases p with
  | due n =>
      simp only [Phase.next] at h
      split_ifs at h with hs ho hn <;> cases h
      · cases hk : t.kind <;> simp_all [countBracket, Phase.brackets, Kind.sign?]
      · simp [countBracket, ho, Phase.brackets]
      · obtain ⟨hk | hk, -⟩ := hn <;> simp [countBracket, hk, Phase.brackets]
  | complete n =>
      simp only [Phase.next] at h
      split_ifs at h with ho hc <;> cases h
      · cases hk : t.kind <;> simp_all [countBracket, Phase.brackets, Kind.operation?,
          Kind.additive?, Kind.multiplicative?]
      · simp [countBracket, hc.1, Phase.brackets]

/-- Phases count the open brackets. -/
theorem brackets_after {p q : Phase} {ts : List Token} (h : p.after ts = some q) :
    q.brackets = ts.foldl countBracket p.brackets := by
  induction ts generalizing p with
  | nil =>
      rw [Phase.after_nil, Option.some.injEq] at h
      rw [h, List.foldl_nil]
  | cons t ts ih =>
      rw [Phase.after_cons, Option.bind_eq_some_iff] at h
      obtain ⟨r, hr, h⟩ := h
      rw [ih h, brackets_next hr, List.foldl_cons]

/-- An operand is due behind the token that made it so. -/
theorem next_eq_due_iff {p q : Phase} {t : Token} (h : p.next t = some q) :
    q = .due q.brackets ↔ t.kind.operation?.isSome ∨ t.kind = .opening := by
  cases p with
  | due n =>
      simp only [Phase.next] at h
      split_ifs at h with hs ho hn <;> cases h
      · cases hk : t.kind <;> simp_all [Phase.brackets, Kind.sign?, Kind.operation?,
          Kind.additive?]
      · simp [Phase.brackets, ho]
      · obtain ⟨hk | hk, -⟩ := hn <;>
          simp [hk, Kind.operation?, Kind.additive?, Kind.multiplicative?]
  | complete n =>
      simp only [Phase.next] at h
      split_ifs at h with ho hc <;> cases h
      · simp [Phase.brackets, ho]
      · simp [hc.1, Kind.operation?, Kind.additive?, Kind.multiplicative?]

theorem after_eq_due_iff {q : Phase} {ts : List Token} (h : (Phase.due 0).after ts = some q) :
    q = .due q.brackets ↔ OperandDue ts := by
  rcases List.eq_nil_or_concat ts with rfl | ⟨us, t, rfl⟩
  · rw [Phase.after_nil, Option.some.injEq] at h
    simp [OperandDue, ← h, Phase.brackets]
  · rw [List.concat_eq_append] at h ⊢
    obtain ⟨r, -, hr⟩ := Phase.after_append_eq_some h
    have hnext : r.next t = some q := by simpa using hr
    rw [next_eq_due_iff hnext]
    simp [OperandDue]

/-- What is missed behind some tokens is an operand if one is due, else a closing bracket if one is
open, else an operation. -/
theorem lapse_after {q : Phase} {ts : List Token} (h : (Phase.due 0).after ts = some q) :
    (q.lapse = .operandDue ↔ OperandDue ts) ∧
    (¬ OperandDue ts → (q.lapse = .closingDue ↔ 0 < unclosed ts)) ∧
    (¬ OperandDue ts → unclosed ts = 0 → q.lapse = .operationDue) := by
  have hb : q.brackets = unclosed ts := brackets_after h
  rw [← after_eq_due_iff h, ← hb]
  match q with
  | .due n => simp [Phase.lapse, Phase.brackets]
  | .complete 0 => simp [Phase.lapse, Phase.brackets]
  | .complete (n + 1) => simp [Phase.lapse, Phase.brackets]

/-! ### The place of a lapse -/

/-- The position `p` is that of the token at place `k`; the tokens before it can be completed, and
together with it they cannot. -/
def FirstOffender (tokens : Array Token) (p : Position) (k : Nat) : Prop :=
  (∃ h : k < tokens.size, tokens[k].position = p) ∧ Extendable (tokens.toList.take k) ∧
    ¬ Extendable (tokens.toList.take (k + 1))

/-- The tokens can be completed up to one place only. -/
theorem FirstOffender.unique {tokens : Array Token} {p q : Position} {j k : Nat}
    (hj : FirstOffender tokens p j) (hk : FirstOffender tokens q k) : j = k := by
  have hle {p q : Position} {j k : Nat} (hj : FirstOffender tokens p j)
      (hk : FirstOffender tokens q k) : k ≤ j := by
    refine Nat.le_of_not_lt fun hlt => hj.2.2 ?_
    have hmore : tokens.toList.take k =
        tokens.toList.take (j + 1) ++ (tokens.toList.drop (j + 1)).take (k - (j + 1)) := by
      rw [← List.take_add]
      congr 1
      omega
    have hext := hk.2.1
    rw [hmore] at hext
    exact hext.of_append
  exact Nat.le_antisymm (hle hk hj) (hle hj hk)

/-- Behind tokens that lead to a phase, a token that it refuses is the first offender. -/
theorem firstOffender_of_refuses {tokens : Array Token} {ts rest : List Token} {t : Token}
    {q : Phase} (h : tokens.toList = ts ++ t :: rest) (hq : (Phase.due 0).after ts = some q)
    (ht : q.Refuses t) : FirstOffender tokens t.position ts.length := by
  have htake : tokens.toList.take ts.length = ts := by rw [h, List.take_left]
  have htake' : tokens.toList.take (ts.length + 1) = ts ++ [t] := by
    rw [h, List.take_length_add_append]
    rfl
  have hsize : tokens.toList.length = ts.length + (rest.length + 1) := by
    rw [h, List.length_append, List.length_cons]
  refine ⟨⟨by simp at hsize; omega, ?_⟩, ?_, ?_⟩
  · simp [← Array.getElem_toList, h]
  · rw [htake]
    exact extendable_of_after hq
  · rw [htake']
    exact not_extendable_of_refuses hq ht

/-- The messages tell the three lapses apart that a phase may end in. -/
theorem message_lapse_iff (q : Phase) :
    (q.lapse.message = "expected int or float" ↔ q.lapse = .operandDue) ∧
    (q.lapse.message = "expected ')'" ↔ q.lapse = .closingDue) ∧
    (q.lapse.message = "expected '+', '-', '*', or '/'" ↔ q.lapse = .operationDue) := by
  match q with
  | .due n => simp only [Phase.lapse]; decide
  | .complete 0 => simp only [Phase.lapse]; decide
  | .complete (n + 1) => simp only [Phase.lapse]; decide

/-- **A lapse points at the first offending token and names what was due there.**  Unless it is
about the limit, a lapse in the tokens of a text is at the one place up to which the tokens can be
completed.  It asks for an operand exactly if one is due there, otherwise for a closing bracket
exactly if some bracket is open, and otherwise for an operation. -/
theorem lapse_at_first_offender {source text : String} {limit : Nat} {tokens : Array Token}
    {fault : Fault} (hcut : (tokenize source text).value = .ok tokens)
    (hread : (ofTokens source limit tokens).value = .error fault)
    (hdepth : fault.cause ≠ .ungrammatical (.tooDeep limit)) :
    ∃ k, FirstOffender tokens fault.position k ∧
      (∀ j, FirstOffender tokens fault.position j → j = k) ∧
      (fault.message = "expected int or float" ↔ OperandDue (tokens.toList.take k)) ∧
      (¬ OperandDue (tokens.toList.take k) →
        (fault.message = "expected ')'" ↔ 0 < unclosed (tokens.toList.take k))) ∧
      (¬ OperandDue (tokens.toList.take k) → unclosed (tokens.toList.take k) = 0 →
        fault.message = "expected '+', '-', '*', or '/'") := by
  have hend := exists_ending_of_tokenize hcut
  obtain ⟨l, stop, hw, rfl⟩ := ofTokens_eq_error_iff.1 hread
  rcases whole_lapse_cases hend hw with ⟨_, _, _, _, rfl⟩ |
    ⟨ts, t, rest, q, hts, hstop, hq, ht, rfl⟩
  · exact absurd rfl hdepth
  · have hahead : stop.ahead tokens = t :: rest := by
      rw [Cursor.ahead, hstop, hts, List.drop_left]
    have hfirst : FirstOffender tokens (positionAt tokens stop.index) ts.length := by
      rw [positionAt_of_ahead hahead]
      exact firstOffender_of_refuses hts hq ht
    have htake : tokens.toList.take ts.length = ts := by rw [hts, List.take_left]
    obtain ⟨hoperand, hclosing, hoperation⟩ := lapse_after hq
    obtain ⟨moperand, mclosing, moperation⟩ := message_lapse_iff q
    refine ⟨ts.length, hfirst, fun j hj => hj.unique hfirst, ?_⟩
    rw [htake]
    exact ⟨moperand.trans hoperand, fun hdue => mclosing.trans (hclosing hdue),
      fun hdue hopen => moperation.2 (hoperation hdue hopen)⟩

/-- A bracket is left open at the end of the second line. -/
theorem lapse_at_first_offender_unclosed :
    (ofTokens "sums" 9 #[⟨.opening, none, ⟨0, 1, 0⟩⟩, ⟨.integer, some (.int 2), ⟨1, 1, 1⟩⟩,
      ⟨.ending, none, ⟨4, 2, 1⟩⟩]).value =
      .error ⟨.ungrammatical .closingDue, "sums", ⟨4, 2, 1⟩⟩ ∧
    ∃ k, FirstOffender #[⟨.opening, none, ⟨0, 1, 0⟩⟩, ⟨.integer, some (.int 2), ⟨1, 1, 1⟩⟩,
      ⟨.ending, none, ⟨4, 2, 1⟩⟩] ⟨4, 2, 1⟩ k := by
  have hcut : (tokenize "sums" "(2\n ").value = .ok #[⟨.opening, none, ⟨0, 1, 0⟩⟩,
      ⟨.integer, some (.int 2), ⟨1, 1, 1⟩⟩, ⟨.ending, none, ⟨4, 2, 1⟩⟩] := by
    decide +kernel
  have hread : (ofTokens "sums" 9 #[⟨.opening, none, ⟨0, 1, 0⟩⟩,
      ⟨.integer, some (.int 2), ⟨1, 1, 1⟩⟩, ⟨.ending, none, ⟨4, 2, 1⟩⟩]).value =
      .error ⟨.ungrammatical .closingDue, "sums", ⟨4, 2, 1⟩⟩ := by
    decide +kernel
  obtain ⟨k, hk, -⟩ := lapse_at_first_offender hcut hread (by decide)
  exact ⟨hread, k, hk⟩

end Reckoner.Expr
