/-
**The descent of the reader.**

The rules of the grammar call one another and themselves, and behind the last token they do so
without passing anything: a sign that is held there is followed by itself.  This module follows the
calls on any tokens, from any place at which a rule can be called.  They never leave the tokens, and
never open more signs and brackets than the limit allows.  Each call is a descent, in one of three
ways: it is made inside one more sign or bracket, or for a lower rank of chains, or farther on in
the tokens.

The rules that are reasoned about elsewhere carry the room that there is left for signs and
brackets, and their chains look at the cursor before they go on.  Neither is a part of the grammar.
Here the recursion is also written as it stands in a reader that compares its depth with the limit
and whose chains go on as long as there is an operation.  The rules solve these equations, and
because of the descent nothing else does.

Main definitions:

* `Reckoner.Expr.InBounds` — the cursors at which rules are called;
* `Reckoner.Expr.Point`, `Reckoner.Expr.outcome` — the calls, and what they come to;
* `Reckoner.Expr.body` — the recursion, with the calls left open;
* `Reckoner.Expr.Leads` — one call makes another, or is a round in front of another;
* `Reckoner.Expr.remaining` — the measure of a call.

Main results:

* `Reckoner.Expr.Leads.remaining_lt`, `Reckoner.Expr.acc_leads` — every call descends, so that calls
  do not lead on for ever;
* `Reckoner.Expr.body_congr` — **no other calls are made**;
* `Reckoner.Expr.eq_outcome_of_body` — the recursion has one solution;
* `Reckoner.Expr.rule_descends` — **what a rule leaves behind, and the calls on the way**.
-/

import Reckoner.Proofs.Discipline
import Reckoner.Proofs.Height
import Mathlib

set_option relaxedAutoImplicit false
set_option autoImplicit false

namespace Reckoner.Expr

open Grammar

/-! ### Calls -/

/-- The cursor is not behind the end of the tokens, and no more signs and brackets are open around
it than the limit allows. -/
structure InBounds (tokens : Array Token) (limit : Nat) (c : Cursor) : Prop where
  index : c.index ≤ tokens.size
  depth : c.depth ≤ limit

/-- A call in the recursion. -/
inductive Point where
  /-- The rule of a phrase begins. -/
  | entry (p : Phrase) (c : Cursor)
  /-- The loop of a chain looks for an operation behind `left`. -/
  | behind (rank : Rank) (left : Expr) (c : Cursor)

/-- Where the reader stands. -/
def Point.cursor : Point → Cursor
  | entry _ c => c
  | behind _ _ c => c

/-- What the call comes to, with so many signs and brackets open as the cursor tells. -/
def outcome (tokens : Array Token) (limit : Nat) : Point → Outcome
  | .entry p c => rule tokens (limit - c.depth) p c
  | .behind rank left c => resume tokens (limit - c.depth) (.chain rank) left c

/-- What a rule comes to inside one more sign or bracket, if the limit allows for it. -/
def nested (limit : Nat) (r : Rule) : Rule := fun c =>
  if c.depth < limit then deeper r c else .lapse (.tooDeep limit) c

/-- The recursion of the reader, whose calls are left to `run`.  A chain goes on as long as there is
an operation. -/
def body (tokens : Array Token) (limit : Nat) (run : Point → Outcome) : Point → Outcome
  | .entry .factor c =>
      primary tokens (nested limit fun c => run (.entry .factor c))
        (nested limit fun c => run (.entry (.chain .expression) c)) c
  | .entry (.chain rank) c =>
      match run (.entry rank.operand c) with
      | .lapse l stop => .lapse l stop
      | .tree left next => run (.behind rank left next)
  | .behind rank left c =>
      match rank.joint? (kindAt tokens c.index) with
      | none => .tree left c
      | some op =>
          match run (.entry rank.operand (c.advance tokens)) with
          | .lapse l stop => .lapse l stop
          | .tree right next =>
              run (.behind rank (joined op left right (positionAt tokens c.index)) next)

/-- The first call makes the second one. -/
inductive Leads (tokens : Array Token) (limit : Nat) : Point → Point → Prop
  /-- Behind a sign a factor is read. -/
  | sign {c : Cursor} {t : Token} {sign : Sign} (seen : tokenAt? tokens c.index = some t)
      (isSign : t.kind.sign? = some sign) (room : c.depth < limit) :
      Leads tokens limit (.entry .factor c) (.entry .factor (c.enter tokens).inward)
  /-- Behind an opening bracket an expression is read. -/
  | bracket {c : Cursor} {t : Token} (seen : tokenAt? tokens c.index = some t)
      (isOpening : t.kind = .opening) (room : c.depth < limit) :
      Leads tokens limit (.entry .factor c) (.entry (.chain .expression) (c.enter tokens).inward)
  /-- A chain begins with an operand. -/
  | first {rank : Rank} {c : Cursor} :
      Leads tokens limit (.entry (.chain rank) c) (.entry rank.operand c)
  /-- Behind its first operand the loop of a chain begins. -/
  | begun {rank : Rank} {left : Expr} {c next : Cursor}
      (read : outcome tokens limit (.entry rank.operand c) = .tree left next) :
      Leads tokens limit (.entry (.chain rank) c) (.behind rank left next)
  /-- Behind an operation an operand is read. -/
  | operand {rank : Rank} {op : Operation} {left : Expr} {c : Cursor}
      (joint : rank.joint? (kindAt tokens c.index) = some op) :
      Leads tokens limit (.behind rank left c) (.entry rank.operand (c.advance tokens))
  /-- Behind that operand the next round of the loop begins. -/
  | round {rank : Rank} {op : Operation} {left right : Expr} {c next : Cursor}
      (joint : rank.joint? (kindAt tokens c.index) = some op)
      (read : outcome tokens limit (.entry rank.operand (c.advance tokens)) = .tree right next) :
      Leads tokens limit (.behind rank left c)
        (.behind rank (joined op left right (positionAt tokens c.index)) next)

/-! ### Cursors of calls -/

section Cursors

variable {tokens : Array Token} {limit : Nat} {a b : Point} {p : Phrase} {rank : Rank}
  {op : Operation} {left right : Expr} {c next : Cursor}

/-- An orderly rule moves on, whatever it comes to. -/
theorem Orderly.passes_cursor {o : Outcome} (h : Orderly tokens limit c o) :
    Passes tokens c o.cursor := by
  cases h with
  | tree passes _ => exact passes
  | lapse passes _ => exact passes

theorem Orderly.moved (h : Orderly tokens limit c (.tree left next)) :
    c.index < tokens.size → c.index < next.index := by
  cases h with
  | tree _ moved => exact moved

theorem InBounds.of_passes (h : InBounds tokens limit c) (hp : Passes tokens c next) :
    InBounds tokens limit next where
  index := Nat.le_trans hp.inside (Nat.max_le.2 ⟨h.index, Nat.le_refl _⟩)
  depth := hp.depth ▸ h.depth

theorem InBounds.onward (h : InBounds tokens limit c) (hp : Passes tokens c next) :
    InBounds tokens limit next ∧ c.index ≤ next.index ∧ c.depth ≤ next.depth :=
  ⟨h.of_passes hp, hp.onward, hp.depth.ge⟩

/-- Inside one more sign or bracket the cursor is in bounds if there was room for it. -/
theorem InBounds.inward (h : InBounds tokens limit c) (hroom : c.depth < limit) :
    InBounds tokens limit (c.enter tokens).inward ∧ c.index ≤ (c.enter tokens).inward.index ∧
      c.depth ≤ (c.enter tokens).inward.depth := by
  have henter := passes_enter tokens c
  have hdepth : (c.enter tokens).inward.depth = c.depth + 1 := congrArg (· + 1) henter.depth
  have hbounds : InBounds tokens limit (c.enter tokens).inward :=
    ⟨(h.of_passes henter).index, hdepth ▸ hroom⟩
  exact ⟨hbounds, henter.onward, hdepth ▸ Nat.le_succ _⟩

/-- At a cursor in bounds the limit of a rule is that of the reader. -/
theorem InBounds.orderly (h : InBounds tokens limit c) (p : Phrase) :
    Orderly tokens limit c (outcome tokens limit (.entry p c)) := by
  have hrule := rule_orderly tokens p (limit - c.depth) c
  rwa [Nat.add_sub_cancel' h.depth] at hrule

theorem passes_of_begun (h : InBounds tokens limit c)
    (hread : outcome tokens limit (.entry p c) = .tree left next) : Passes tokens c next := by
  have horderly := h.orderly p
  rw [hread] at horderly
  exact horderly.passes

theorem passes_of_round (h : InBounds tokens limit c)
    (hread : outcome tokens limit (.entry p (c.advance tokens)) = .tree right next) :
    Passes tokens c next :=
  (passes_advance tokens c).trans
    (passes_of_begun (h.of_passes (passes_advance tokens c)) hread)

/-- **A call that a call in bounds makes is in bounds**, neither before it in the tokens nor inside
fewer signs and brackets. -/
theorem Leads.inBounds (h : Leads tokens limit a b) (ha : InBounds tokens limit a.cursor) :
    InBounds tokens limit b.cursor ∧ a.cursor.index ≤ b.cursor.index ∧
      a.cursor.depth ≤ b.cursor.depth := by
  cases h with
  | sign _ _ room => exact ha.inward room
  | bracket _ _ room => exact ha.inward room
  | first => exact ha.onward (.refl tokens _)
  | begun read => exact ha.onward (passes_of_begun ha read)
  | operand _ => exact ha.onward (passes_advance tokens _)
  | round _ read => exact ha.onward (passes_of_round ha read)

/-- So are all calls on the way. -/
theorem inBounds_of_leads (h : Relation.ReflTransGen (Leads tokens limit) a b)
    (ha : InBounds tokens limit a.cursor) :
    InBounds tokens limit b.cursor ∧ a.cursor.index ≤ b.cursor.index ∧
      a.cursor.depth ≤ b.cursor.depth := by
  induction h with
  | refl => exact ⟨ha, Nat.le_refl _, Nat.le_refl _⟩
  | tail _ hstep ih =>
      obtain ⟨hb, hindex, hdepth⟩ := ih
      obtain ⟨hc, hindex', hdepth'⟩ := hstep.inBounds hb
      exact ⟨hc, Nat.le_trans hindex hindex', Nat.le_trans hdepth hdepth'⟩

end Cursors

/-! ### The measure -/

/-- The rank on which a call is made; the loop of a chain is between the chain and its operands. -/
def Point.level : Point → Nat
  | entry p _ => 2 * p.level
  | behind rank _ _ => 2 * rank.operand.level + 1

/-- What remains for a call: the signs and brackets that may still be opened, then the rank, and
then the tokens that are left. -/
def remaining (tokens : Array Token) (limit : Nat) (a : Point) : ℕ ×ₗ ℕ ×ₗ ℕ :=
  toLex (limit - a.cursor.depth, toLex (a.level, tokens.size - a.cursor.index))

section Measure

variable {tokens : Array Token} {limit : Nat} {a b : Point} {rank : Rank} {left left' : Expr}
  {c next : Cursor}

theorem remaining_lt_of_depth (h : a.cursor.depth < limit)
    (hd : b.cursor.depth = a.cursor.depth + 1) :
    remaining tokens limit b < remaining tokens limit a := by
  refine Prod.Lex.toLex_lt_toLex.2 (Or.inl ?_)
  dsimp only
  omega

theorem remaining_lt_of_level (hd : b.cursor.depth = a.cursor.depth) (h : b.level < a.level) :
    remaining tokens limit b < remaining tokens limit a := by
  refine Prod.Lex.toLex_lt_toLex.2 (Or.inr ⟨by rw [hd], ?_⟩)
  exact Prod.Lex.toLex_lt_toLex.2 (Or.inl h)

theorem remaining_lt_of_index (hd : b.cursor.depth = a.cursor.depth) (hl : b.level = a.level)
    (h : a.cursor.index < b.cursor.index) (hb : b.cursor.index ≤ tokens.size) :
    remaining tokens limit b < remaining tokens limit a := by
  refine Prod.Lex.toLex_lt_toLex.2 (Or.inr ⟨by rw [hd], ?_⟩)
  refine Prod.Lex.toLex_lt_toLex.2 (Or.inr ⟨hl, ?_⟩)
  dsimp only
  omega

/-- A chain goes from one round to the next only farther on in the tokens. -/
theorem Leads.index_lt (h : Leads tokens limit (.behind rank left c) (.behind rank left' next)) :
    c.index < next.index ∧ next.index ≤ tokens.size := by
  cases h with
  | round joint read => exact passes_of_joint joint read

/-- **Every call descends.** -/
theorem Leads.remaining_lt (h : Leads tokens limit a b) (ha : InBounds tokens limit a.cursor) :
    remaining tokens limit b < remaining tokens limit a := by
  cases h with
  | @sign c _ _ _ _ room =>
      exact remaining_lt_of_depth room (congrArg (· + 1) (passes_enter tokens c).depth)
  | @bracket c _ _ _ room =>
      exact remaining_lt_of_depth room (congrArg (· + 1) (passes_enter tokens c).depth)
  | @first rank c =>
      refine remaining_lt_of_level rfl ?_
      simp only [Point.level, Phrase.level_chain]
      omega
  | @begun rank left c next read =>
      refine remaining_lt_of_level (passes_of_begun ha read).depth ?_
      simp only [Point.level, Phrase.level_chain]
      omega
  | @operand rank op left c joint =>
      exact remaining_lt_of_level (passes_advance tokens c).depth (Nat.lt_succ_self _)
  | @round rank op left right c next joint read =>
      obtain ⟨hlt, hle⟩ := passes_of_joint joint read
      exact remaining_lt_of_index (passes_of_round ha read).depth rfl hlt hle

/-- So calls in bounds do not lead on for ever. -/
theorem acc_leads (a : Point) : InBounds tokens limit a.cursor →
    Acc (flip (Leads tokens limit)) a := by
  induction a using (InvImage.wf (remaining tokens limit) wellFounded_lt).induction with
  | _ a ih =>
      intro ha
      exact .intro a fun b hb => ih b (hb.remaining_lt ha) (hb.inBounds ha).1

end Measure

/-! ### The recursion -/

section Body

variable {tokens : Array Token} {limit : Nat} {run : Point → Outcome} {p : Phrase} {c : Cursor}

/-- An operand is told by what is read behind a sign or an opening bracket, where there is one. -/
theorem primary_congr {behindSign inBrackets behindSign' inBrackets' : Rule}
    (hs : ∀ t sign, tokenAt? tokens c.index = some t → t.kind.sign? = some sign →
      behindSign (c.enter tokens) = behindSign' (c.enter tokens))
    (hb : ∀ t, tokenAt? tokens c.index = some t → t.kind = .opening →
      inBrackets (c.enter tokens) = inBrackets' (c.enter tokens)) :
    primary tokens behindSign inBrackets c = primary tokens behindSign' inBrackets' c := by
  cases ht : tokenAt? tokens c.index with
  | none => simp only [primary, ht]
  | some t =>
      rcases Phase.next_due_cases t with ⟨value, hv⟩ | ⟨sign, hsign⟩ | ho | hn
      · rw [primary_number ht hv, primary_number ht hv]
      · rw [primary_sign ht hsign, primary_sign ht hsign, hs t sign ht hsign]
      · rw [primary_opening ht ho, primary_opening ht ho, hb t ht ho]
      · rw [primary_other ht (hn 0), primary_other ht (hn 0)]

/-- The room that a rule carries is what the limit leaves. -/
theorem nested_eq_inside (hc : c.depth ≤ limit)
    (h : c.depth < limit → run (.entry p c.inward) = outcome tokens limit (.entry p c.inward)) :
    nested limit (fun c => run (.entry p c)) c = inside tokens (limit - c.depth) p c := by
  rw [nested]
  split_ifs with hroom
  · obtain ⟨room, hr⟩ := Nat.exists_eq_add_of_lt hroom
    have hin : limit - c.depth = (limit - c.inward.depth) + 1 := by
      simp only [Cursor.inward]
      omega
    have hrun := h hroom
    rw [Cursor.inward] at hrun
    rw [hin, inside, deeper, deeper, hrun]
    rfl
  · have hfull : c.depth = limit := Nat.le_antisymm hc (Nat.le_of_not_lt hroom)
    rw [hfull, Nat.sub_self, inside_zero, hfull]

/-- **No other calls are made**: what a call comes to is told by what the calls come to that it
makes. -/
theorem body_congr {a : Point} (ha : InBounds tokens limit a.cursor)
    (h : ∀ b, Leads tokens limit a b → run b = outcome tokens limit b) :
    body tokens limit run a = outcome tokens limit a := by
  match a with
  | .entry .factor c =>
      have hdepth := (passes_enter tokens c).depth
      have hin := (ha.of_passes (passes_enter tokens c)).depth
      rw [outcome, factor_eq, body]
      refine primary_congr (fun t sign ht hsign => ?_) fun t ht ho => ?_
      · have hnested := nested_eq_inside hin fun hroom => h _ (.sign ht hsign (hdepth ▸ hroom))
        rwa [hdepth] at hnested
      · have hnested := nested_eq_inside hin fun hroom => h _ (.bracket ht ho (hdepth ▸ hroom))
        rwa [hdepth] at hnested
  | .entry (.chain rank) c =>
      have hoperand := h _ .first
      have hchain : outcome tokens limit (.entry (.chain rank) c) =
          chain tokens rank.joint? (rule tokens (limit - c.depth) rank.operand) c := by
        rw [outcome, rule_chain]
      rw [body, hoperand, hchain, chain, outcome]
      cases ho : rule tokens (limit - c.depth) rank.operand c with
      | lapse l stop => rfl
      | tree left next =>
          have hread : outcome tokens limit (.entry rank.operand c) = .tree left next := ho
          dsimp only
          rw [h _ (.begun hread), outcome, (passes_of_begun ha hread).depth, resume]
          rfl
  | .behind rank left c =>
      rw [outcome, resume, chainFrom, body]
      cases hj : rank.joint? (kindAt tokens c.index) with
      | none => rfl
      | some op =>
          have hpast := (passes_advance tokens c).depth
          have hoperand : outcome tokens limit (.entry rank.operand (c.advance tokens)) =
              rule tokens (limit - c.depth) rank.operand (c.advance tokens) := by
            rw [outcome, hpast]
          dsimp only
          rw [h _ (.operand hj), hoperand]
          cases ho : rule tokens (limit - c.depth) rank.operand (c.advance tokens) with
          | lapse l stop => rfl
          | tree right next =>
              have hread := hoperand.trans ho
              obtain ⟨hlt, hle⟩ := passes_of_joint hj ho
              dsimp only
              rw [h _ (.round hj hread), outcome, (passes_of_round ha hread).depth, resume,
                dif_pos ⟨hlt, Nat.lt_of_lt_of_le hlt hle⟩]
              rfl

/-- **The recursion has one solution**, since calls do not lead on for ever. -/
theorem eq_outcome_of_body
    (hrun : ∀ a, InBounds tokens limit a.cursor → run a = body tokens limit run a) {a : Point}
    (ha : InBounds tokens limit a.cursor) : run a = outcome tokens limit a := by
  induction acc_leads a ha with
  | intro a _ ih =>
      rw [hrun a ha]
      exact body_congr ha fun b hb => ih b hb (hb.inBounds ha).1

end Body

/-- **What a rule leaves behind, and the calls on the way.**  The tokens and the limit are the same
in all calls.  At a cursor in bounds every rule ends with as many signs and brackets open as before,
be it with a tree or with a lapse, and not before the cursor nor outside the tokens; with a tree it
has passed a token, unless there was none left.  All calls on the way are in bounds as well, so that
no more signs and brackets are ever open than the limit allows.  Each of them descends to those that
it makes, so that the recursion ends on any tokens, with or without an end mark.  Every round of a
chain is farther on in the tokens than the one before it, and what a call comes to is told by what
those come to that it makes. -/
theorem rule_descends {tokens : Array Token} {limit : Nat} {c : Cursor}
    (hc : InBounds tokens limit c) (p : Phrase) :
    (outcome tokens limit (.entry p c)).cursor.depth = c.depth ∧
    c.index ≤ (outcome tokens limit (.entry p c)).cursor.index ∧
    (outcome tokens limit (.entry p c)).cursor.index ≤ tokens.size ∧
    (∀ e next, outcome tokens limit (.entry p c) = .tree e next →
      c.index < tokens.size → c.index < next.index) ∧
    Acc (flip (Leads tokens limit)) (.entry p c) ∧
    ∀ a, Relation.ReflTransGen (Leads tokens limit) (.entry p c) a →
      (InBounds tokens limit a.cursor ∧ c.index ≤ a.cursor.index ∧ c.depth ≤ a.cursor.depth) ∧
      (∀ b, Leads tokens limit a b → remaining tokens limit b < remaining tokens limit a) ∧
      (∀ rank left left' d next, a = .behind rank left d →
        Leads tokens limit a (.behind rank left' next) → d.index < next.index) ∧
      ∀ run : Point → Outcome, (∀ b, Leads tokens limit a b → run b = outcome tokens limit b) →
        body tokens limit run a = outcome tokens limit a := by
  have horderly := hc.orderly p
  have hpasses := horderly.passes_cursor
  refine ⟨hpasses.depth, hpasses.onward, (hc.of_passes hpasses).index, ?_, acc_leads _ hc, ?_⟩
  · intro e next he
    rw [he] at horderly
    exact horderly.moved
  · intro a ha
    obtain ⟨hin, honward, hdepth⟩ := inBounds_of_leads ha hc
    refine ⟨⟨hin, honward, hdepth⟩, fun b hb => hb.remaining_lt hin, ?_, ?_⟩
    · rintro rank left left' d next rfl hround
      exact hround.index_lt.1
    · intro run hrun
      exact body_congr hin hrun

/-- The tokens of `1-` without an end mark. -/
def dangling : Array Token :=
  #[⟨.integer, some (.int 1), ⟨0, 1, 0⟩⟩, ⟨.minus, none, ⟨1, 1, 1⟩⟩]

/-- The minus is held behind the end, where a factor is called at one and the same place until no
more signs may be opened.  Behind the first bracket of `((1)` an expression passes all that is
left. -/
theorem rule_descends_dangling :
    InBounds dangling 2 ⟨2, 0, []⟩ ∧
    outcome dangling 2 (.entry .factor ⟨2, 0, []⟩) = .lapse (.tooDeep 2) ⟨2, 0, [2, 2, 2]⟩ ∧
    (outcome dangling 2 (.entry .factor ⟨2, 0, []⟩)).cursor.depth = 0 ∧
    remaining dangling 2 (.entry .factor ⟨2, 1, [2]⟩) <
      remaining dangling 2 (.entry .factor ⟨2, 0, []⟩) ∧
    outcome unended 2 (.entry (.chain .expression) ⟨1, 1, []⟩) =
      .tree (literal (.int 1) ⟨2, 1, 2⟩) ⟨4, 1, [2, 1]⟩ ∧
    1 < 4 := by
  have hheld : InBounds dangling 2 ⟨2, 0, []⟩ := ⟨by decide, by decide⟩
  have hinner : InBounds unended 2 ⟨1, 1, []⟩ := ⟨by decide, by decide⟩
  have htree : outcome unended 2 (.entry (.chain .expression) ⟨1, 1, []⟩) =
      .tree (literal (.int 1) ⟨2, 1, 2⟩) ⟨4, 1, [2, 1]⟩ := by
    decide +kernel
  have hminus : (Token.mk .minus none ⟨1, 1, 1⟩).kind.sign? = some .minus := rfl
  have hsign : Leads dangling 2 (.entry .factor ⟨2, 0, []⟩) (.entry .factor ⟨2, 1, [2]⟩) :=
    .sign (c := ⟨2, 0, []⟩) rfl hminus (by decide)
  obtain ⟨hdepth, -, -, -, -, hcalls⟩ := rule_descends hheld .factor
  obtain ⟨-, -, -, hmoved, -⟩ := rule_descends hinner (.chain .expression)
  exact ⟨hheld, by decide +kernel, hdepth, (hcalls _ .refl).2.1 _ hsign, htree,
    hmoved _ _ htree (by decide)⟩

end Reckoner.Expr
