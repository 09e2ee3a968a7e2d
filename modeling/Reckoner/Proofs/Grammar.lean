/-
**The grammar of expressions, and how far a list of tokens goes along with it.**

`Reckoner/Expr/OfTokens.lean` reads tokens along the grammar

    expression := term (('+' | '-') term)*
    term       := factor (('*' | '/') factor)*
    factor     := ('+' | '-') factor | NUMBER | '(' expression ')'

This module says, without a reader, which lists of tokens the grammar derives.  A derivation is of
a phrase, from a list of tokens, to a tree, and counts the most signs and brackets that are open at
once anywhere in the list; the operands of a chain are joined from the left.  Terms and expressions
are the same chain on two levels, so that all that is said of chains is said once.

Beside the derivations there is a much simpler account of the same lists: after some tokens, either
an operand is due or one is complete, and so many brackets are open.  Read from left to right this
tells after which tokens a list can still become an expression, and what it lacks where it cannot.

Main definitions:

* `Reckoner.Grammar.Rank`, `Reckoner.Grammar.Phrase` — the two levels of chains, and the phrases;
* `Reckoner.Grammar.Derives` — **the grammar**;
* `Reckoner.Grammar.Phrase.Stops` — the kinds of token with which a phrase does not go on;
* `Reckoner.Grammar.Phase`, `Reckoner.Grammar.Phase.after` — what is due after some tokens;
* `Reckoner.Grammar.openers` — the number of tokens that may open a sign or a bracket;
* `Reckoner.Grammar.beforeEnd` — the tokens before the first end mark.

Main results:

* `Reckoner.Grammar.Derives.kind_ne_ending` — no end mark is part of a phrase;
* `Reckoner.Grammar.Derives.after_due` — a phrase completes the operand that was due.
-/

import Reckoner.Expr
import Reckoner.Fault
import Reckoner.Token

set_option relaxedAutoImplicit false
set_option autoImplicit false

namespace Reckoner.Grammar

/-! ### Phrases -/

/-- The levels on which operations join operands. -/
inductive Rank where
  /-- Factors joined by tightly bound operations. -/
  | term
  /-- Terms joined by weakly bound operations. -/
  | expression
deriving DecidableEq

/-- The phrases of the grammar. -/
inductive Phrase where
  | factor
  | chain (rank : Rank)
deriving DecidableEq

namespace Rank

/-- The operations that join the operands of a rank. -/
def joint? : Rank → Kind → Option Operation
  | term => Kind.multiplicative?
  | expression => Kind.additive?

/-- The operands of a rank. -/
def operand : Rank → Phrase
  | term => .factor
  | expression => .chain .term

theorem kind_ne_ending_of_joint {rank : Rank} {k : Kind} {op : Operation}
    (h : rank.joint? k = some op) : k ≠ .ending := by
  rintro rfl
  cases rank <;> simp [joint?, Kind.additive?, Kind.multiplicative?] at h

/-- A kind that joins the operands of some rank stands for an operation. -/
theorem operation?_of_joint {rank : Rank} {k : Kind} {op : Operation}
    (h : rank.joint? k = some op) : k.operation? = some op := by
  cases rank <;> cases k <;> simp_all [joint?, Kind.operation?, Kind.additive?,
    Kind.multiplicative?]

end Rank

namespace Phrase

/-- A complete phrase does not go on with a token of this kind. -/
def Stops : Phrase → Kind → Prop
  | factor, _ => True
  | chain .term, k => Kind.multiplicative? k = none
  | chain .expression, k => Kind.additive? k = none ∧ Kind.multiplicative? k = none

/-- The last operand of a phrase does not go on with a token of this kind, though the phrase
itself may. -/
def OperandStops : Phrase → Kind → Prop
  | factor, _ => True
  | chain rank, k => rank.operand.Stops k

theorem stops_chain_iff {rank : Rank} {k : Kind} :
    (chain rank).Stops k ↔ rank.joint? k = none ∧ rank.operand.Stops k := by
  cases rank <;> simp [Stops, Rank.joint?, Rank.operand]

theorem Stops.operandStops {p : Phrase} {k : Kind} (h : p.Stops k) : p.OperandStops k := by
  cases p with
  | factor => trivial
  | chain rank => exact (stops_chain_iff.1 h).2

/-- An operation ends the operand before it. -/
theorem operand_stops_of_joint {rank : Rank} {k : Kind} {op : Operation}
    (h : rank.joint? k = some op) : rank.operand.Stops k := by
  cases rank with
  | term => trivial
  | expression => cases k <;> simp_all [Rank.joint?, Rank.operand, Stops, Kind.additive?,
      Kind.multiplicative?]

theorem stops_closing (p : Phrase) : p.Stops .closing := by
  cases p with
  | factor => trivial
  | chain rank => cases rank <;> simp [Stops, Kind.additive?, Kind.multiplicative?]

theorem stops_ending (p : Phrase) : p.Stops .ending := by
  cases p with
  | factor => trivial
  | chain rank => cases rank <;> simp [Stops, Kind.additive?, Kind.multiplicative?]

end Phrase

/-! ### Kinds of token -/

/-- Is the token a literal with its number? -/
def IsNumber (t : Token) (value : Number) : Prop :=
  (t.kind = .integer ∨ t.kind = .decimal) ∧ t.value = some value

/-- A literal of either kind is one, if it has a number. -/
theorem isNumber_literal (pointed : Bool) (value : Number) (p : Position) :
    IsNumber ⟨if pointed then .decimal else .integer, some value, p⟩ value := by
  cases pointed with
  | false => exact ⟨Or.inl rfl, rfl⟩
  | true => exact ⟨Or.inr rfl, rfl⟩

/-- May the token open a sign or a bracket? -/
def mayOpen (t : Token) : Bool := t.kind.sign?.isSome || t.kind == .opening

/-- The number of tokens that may open a sign or a bracket. -/
def openers (ts : List Token) : Nat := ts.countP mayOpen

@[simp] theorem openers_nil : openers [] = 0 := rfl

@[simp] theorem openers_append (ts us : List Token) :
    openers (ts ++ us) = openers ts + openers us := List.countP_append

theorem openers_cons (t : Token) (ts : List Token) :
    openers (t :: ts) = openers ts + if mayOpen t then 1 else 0 := List.countP_cons

theorem openers_cons_of_mayOpen {t : Token} (h : mayOpen t = true) (ts : List Token) :
    openers (t :: ts) = openers ts + 1 := by
  rw [openers_cons, if_pos h]

/-- The tokens before the first end mark. -/
def beforeEnd (ts : List Token) : List Token := ts.takeWhile fun t => t.kind != .ending

theorem beforeEnd_append_cons {ts rest : List Token} {mark : Token}
    (hts : ∀ t ∈ ts, t.kind ≠ .ending) (hm : mark.kind = .ending) :
    beforeEnd (ts ++ mark :: rest) = ts := by
  rw [beforeEnd, List.takeWhile_append_of_pos (by simpa using hts)]
  simp [hm]

/-- If there is an end mark, the first one stands behind the tokens before it. -/
theorem exists_mark_of_mem {ts : List Token} (h : ∃ t ∈ ts, t.kind = .ending) :
    ∃ mark rest, ts = beforeEnd ts ++ mark :: rest ∧ mark.kind = .ending := by
  induction ts with
  | nil => simp at h
  | cons t ts ih =>
      by_cases ht : t.kind = .ending
      · exact ⟨t, ts, by simp [beforeEnd, ht], ht⟩
      · obtain ⟨mark, rest, hts, hm⟩ := ih (by simpa [ht] using h)
        refine ⟨mark, rest, ?_, hm⟩
        simp only [beforeEnd] at hts ⊢
        rw [List.takeWhile_cons_of_pos (by simpa using ht), List.cons_append, ← hts]

/-! ### Derivations -/

/-- **The grammar**: `Derives phrase tokens tree depth` says that the tokens make the phrase, that
`tree` is its tree, and that at most `depth` signs and brackets are open at once. -/
inductive Derives : Phrase → List Token → Expr → Nat → Prop
  /-- A literal is a factor. -/
  | number {t : Token} {value : Number} (h : IsNumber t value) :
      Derives .factor [t] (.literal value t.position) 0
  /-- A factor behind a sign is a factor. -/
  | signed {t : Token} {sign : Sign} {ts : List Token} {e : Expr} {d : Nat}
      (h : t.kind.sign? = some sign) (operand : Derives .factor ts e d) :
      Derives .factor (t :: ts) (.signed sign e t.position) (d + 1)
  /-- An expression in brackets is a factor, and the brackets leave no trace in its tree. -/
  | bracketed {first last : Token} {ts : List Token} {e : Expr} {d : Nat}
      (hf : first.kind = .opening) (hl : last.kind = .closing)
      (inner : Derives (.chain .expression) ts e d) :
      Derives .factor (first :: (ts ++ [last])) e (d + 1)
  /-- A chain may have a single operand. -/
  | single {rank : Rank} {ts : List Token} {e : Expr} {d : Nat}
      (operand : Derives rank.operand ts e d) : Derives (.chain rank) ts e d
  /-- A chain goes on with an operation and one more operand. -/
  | joined {rank : Rank} {t : Token} {op : Operation} {ls rs : List Token} {l r : Expr}
      {d d' : Nat} (h : rank.joint? t.kind = some op) (left : Derives (.chain rank) ls l d)
      (right : Derives rank.operand rs r d') :
      Derives (.chain rank) (ls ++ t :: rs) (.joined op l r t.position) (max d d')

/-- Two factors joined by an operation of either rank are an expression. -/
theorem Derives.joined_factors {t : Token} {op : Operation} {ls rs : List Token}
    {l r : Expr} {d d' : Nat} (h : t.kind.operation? = some op) (left : Derives .factor ls l d)
    (right : Derives .factor rs r d') :
    Derives (.chain .expression) (ls ++ t :: rs) (.joined op l r t.position) (max d d') := by
  rw [Kind.operation?, Option.or_eq_some_iff] at h
  rcases h with h | ⟨-, h⟩
  · have left' : Derives (.chain .expression) ls l d := .single (.single left)
    exact .joined h left' (.single right)
  · have left' : Derives (.chain .term) ls l d := .single left
    exact .single (.joined h left' right)

/-- No end mark is part of a phrase. -/
theorem Derives.kind_ne_ending {p : Phrase} {ts : List Token} {e : Expr} {d : Nat}
    (h : Derives p ts e d) : ∀ t ∈ ts, t.kind ≠ .ending := by
  induction h with
  | number h =>
      intro t ht hk
      rw [List.mem_singleton.1 ht] at hk
      simp [IsNumber, hk] at h
  | signed h _ ih =>
      intro t ht hk
      rcases List.mem_cons.1 ht with rfl | ht
      · simp [hk, Kind.sign?] at h
      · exact ih t ht hk
  | bracketed hf hl _ ih =>
      intro t ht hk
      rcases List.mem_cons.1 ht with rfl | ht
      · simp [hk] at hf
      · rcases List.mem_append.1 ht with ht | ht
        · exact ih t ht hk
        · rw [List.mem_singleton.1 ht] at hk
          simp [hk] at hl
  | single _ ih => exact ih
  | joined h _ _ ihl ihr =>
      intro t ht hk
      rcases List.mem_append.1 ht with ht | ht
      · exact ihl t ht hk
      · rcases List.mem_cons.1 ht with rfl | ht
        · exact Rank.kind_ne_ending_of_joint h hk
        · exact ihr t ht hk

/-! ### Phases -/

/-- What some tokens leave to be wished for. -/
inductive Phase where
  /-- An operand is due inside so many brackets. -/
  | due (brackets : Nat)
  /-- An operand is complete inside so many brackets. -/
  | complete (brackets : Nat)
deriving DecidableEq

namespace Phase

/-- The phase after one more token, if the token may stand there. -/
def next : Phase → Token → Option Phase
  | due n, t =>
      if t.kind.sign?.isSome then some (due n)
      else if t.kind = .opening then some (due (n + 1))
      else if (t.kind = .integer ∨ t.kind = .decimal) ∧ t.value.isSome then some (complete n)
      else none
  | complete n, t =>
      if t.kind.operation?.isSome then some (due n)
      else if t.kind = .closing ∧ 0 < n then some (complete (n - 1))
      else none

/-- The phase after some tokens, if each of them may stand where it stands. -/
def after (p : Phase) (ts : List Token) : Option Phase := ts.foldlM next p

/-- What is amiss with a token that may not stand where it stands. -/
def lapse : Phase → Lapse
  | due _ => .operandDue
  | complete 0 => .operationDue
  | complete (_ + 1) => .closingDue

@[simp] theorem after_nil (p : Phase) : p.after [] = some p := rfl

@[simp] theorem after_cons (p : Phase) (t : Token) (ts : List Token) :
    p.after (t :: ts) = (p.next t).bind fun q => q.after ts := rfl

@[simp] theorem after_append (p : Phase) (ts us : List Token) :
    p.after (ts ++ us) = (p.after ts).bind fun q => q.after us := by
  simp only [after, List.foldlM_append]
  rfl

theorem next_number {t : Token} {value : Number} (h : IsNumber t value) (n : Nat) :
    (due n).next t = some (complete n) := by
  obtain ⟨hk | hk, hv⟩ := h <;> simp [next, hk, hv, Kind.sign?]

theorem next_sign {t : Token} {sign : Sign} (h : t.kind.sign? = some sign) (n : Nat) :
    (due n).next t = some (due n) := by
  simp [next, h]

theorem next_opening {t : Token} (h : t.kind = .opening) (n : Nat) :
    (due n).next t = some (due (n + 1)) := by
  simp [next, h, Kind.sign?]

/-- A token begins an operand or is refused where one is due. -/
theorem next_due_cases (t : Token) : (∃ value, IsNumber t value) ∨
    (∃ sign, t.kind.sign? = some sign) ∨ t.kind = .opening ∨ ∀ n, (due n).next t = none := by
  cases hs : t.kind.sign? with
  | some sign => exact Or.inr (Or.inl ⟨sign, rfl⟩)
  | none =>
      by_cases ho : t.kind = .opening
      · exact Or.inr (Or.inr (Or.inl ho))
      · by_cases hn : (t.kind = .integer ∨ t.kind = .decimal) ∧ t.value.isSome
        · obtain ⟨value, hv⟩ := Option.isSome_iff_exists.1 hn.2
          exact Or.inl ⟨value, hn.1, hv⟩
        · refine Or.inr (Or.inr (Or.inr fun n => ?_))
          simp [next, hs, ho, hn]

theorem next_closing {t : Token} (h : t.kind = .closing) (n : Nat) :
    (complete (n + 1)).next t = some (complete n) := by
  simp [next, h, Kind.operation?, Kind.additive?, Kind.multiplicative?]

theorem next_joint {t : Token} {rank : Rank} {op : Operation}
    (h : rank.joint? t.kind = some op) (n : Nat) : (complete n).next t = some (due n) := by
  cases rank with
  | term => cases hk : t.kind <;> simp_all [next, Rank.joint?, Kind.operation?, Kind.additive?,
      Kind.multiplicative?]
  | expression => cases hk : t.kind <;> simp_all [next, Rank.joint?, Kind.operation?,
      Kind.additive?, Kind.multiplicative?]

/-- An end mark leads to no phase. -/
theorem next_ending (q : Phase) {t : Token} (h : t.kind = .ending) : q.next t = none := by
  cases q <;> simp [next, h, Kind.sign?, Kind.operation?, Kind.additive?, Kind.multiplicative?]

/-- Behind a complete operand only an operation and the closing of a bracket may stand. -/
theorem next_complete_eq_none {t : Token} {n : Nat} (hs : (Phrase.chain .expression).Stops t.kind)
    (hc : t.kind = .closing → n = 0) : (complete n).next t = none := by
  simp only [Phrase.Stops] at hs
  simp only [next, Kind.operation?, hs, Option.or_self, Option.isSome_none, Bool.false_eq_true,
    if_false]
  rw [if_neg]
  rintro ⟨ht, hn⟩
  have hzero := hc ht
  omega

end Phase

/-- **A phrase completes the operand that was due.** -/
theorem Derives.after_due {p : Phrase} {ts : List Token} {e : Expr} {d : Nat}
    (h : Derives p ts e d) : ∀ n, (Phase.due n).after ts = some (.complete n) := by
  induction h with
  | number h => intro n; simp [Phase.next_number h]
  | signed h _ ih => intro n; simp [Phase.next_sign h, ih]
  | bracketed hf hl _ ih => intro n; simp [Phase.next_opening hf, ih, Phase.next_closing hl]
  | single _ ih => exact ih
  | joined h _ _ ihl ihr => intro n; simp [ihl, Phase.next_joint h, ihr]

end Reckoner.Grammar
