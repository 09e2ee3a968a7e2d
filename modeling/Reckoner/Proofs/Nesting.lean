/-
**Signs and brackets that are open.**

A sign is open while its operand is read, and a bracket until it is closed.  How many of them are
open after some tokens does not depend on how these are read: a sign opens where an operand is due,
and the end of an operand closes all signs right before it, so that it is enough to know which
brackets are open and how many signs stand right before each of them.

Followed from the left, this tells where tokens cease to be the beginning of an expression, and how
many signs and brackets are open at once before that place.  For an expression this number is the
depth of its derivation.

Main definitions:

* `Reckoner.Grammar.Stage`, `Reckoner.Grammar.Stage.next` — what some tokens leave open, and how
  the next token changes it;
* `Reckoner.Grammar.Stage.depth` — the number of signs and brackets that are open;
* `Reckoner.Grammar.stageAt` — what the tokens before some place leave open;
* `Reckoner.Grammar.nesting` — the most signs and brackets open at once.

Main results:

* `Reckoner.Grammar.Stage.phase_next` — stages refine phases;
* `Reckoner.Grammar.nesting_le_iff`, `Reckoner.Grammar.nesting_le_openers` — bounds on the nesting;
* `Reckoner.Grammar.Derives.nesting_eq` — **the nesting of an expression is the depth of its
  derivation**.
-/

import Reckoner.Proofs.Grammar
import Mathlib.Tactic.SplitIfs

set_option relaxedAutoImplicit false
set_option autoImplicit false

namespace Reckoner.Grammar

/-! ### Stages -/

/-- What some tokens leave open.  The open brackets are listed from the innermost one on, each by
the number of open signs right before it. -/
inductive Stage where
  /-- An operand is due, right behind so many open signs. -/
  | due (signs : Nat) (brackets : List Nat)
  /-- An operand is complete, and so no sign is open but before the brackets. -/
  | complete (brackets : List Nat)
deriving DecidableEq

namespace Stage

/-- Is an operand due? -/
def isDue : Stage → Bool
  | due _ _ => true
  | complete _ => false

/-- The number of these brackets and of the signs before them. -/
def enclosing : List Nat → Nat
  | [] => 0
  | signs :: brackets => enclosing brackets + signs + 1

/-- The number of signs and brackets that are open. -/
def depth : Stage → Nat
  | due signs brackets => enclosing brackets + signs
  | complete brackets => enclosing brackets

/-- What is left open with one more token, if the token may stand there. -/
def next : Stage → Token → Option Stage
  | due signs brackets, t =>
      if t.kind.sign?.isSome then some (due (signs + 1) brackets)
      else if t.kind = .opening then some (due 0 (signs :: brackets))
      else if (t.kind = .integer ∨ t.kind = .decimal) ∧ t.value.isSome then some (complete brackets)
      else none
  | complete brackets, t =>
      if t.kind.operation?.isSome then some (due 0 brackets)
      else if t.kind = .closing then brackets.tail?.map complete
      else none

/-- What is left open after some tokens, if each of them may stand where it stands. -/
def after (q : Stage) (ts : List Token) : Option Stage := ts.foldlM next q

@[simp] theorem after_nil (q : Stage) : q.after [] = some q := rfl

@[simp] theorem after_cons (q : Stage) (t : Token) (ts : List Token) :
    q.after (t :: ts) = (q.next t).bind fun r => r.after ts := rfl

@[simp] theorem after_append (q : Stage) (ts us : List Token) :
    q.after (ts ++ us) = (q.after ts).bind fun r => r.after us := by
  simp only [after, List.foldlM_append]
  rfl

theorem next_number {t : Token} {value : Number} (h : IsNumber t value) (signs : Nat)
    (brackets : List Nat) : (due signs brackets).next t = some (complete brackets) := by
  obtain ⟨hk | hk, hv⟩ := h <;> simp [next, hk, hv, Kind.sign?]

theorem next_sign {t : Token} {sign : Sign} (h : t.kind.sign? = some sign) (signs : Nat)
    (brackets : List Nat) : (due signs brackets).next t = some (due (signs + 1) brackets) := by
  simp [next, h]

theorem next_opening {t : Token} (h : t.kind = .opening) (signs : Nat) (brackets : List Nat) :
    (due signs brackets).next t = some (due 0 (signs :: brackets)) := by
  simp [next, h, Kind.sign?]

theorem next_closing {t : Token} (h : t.kind = .closing) (signs : Nat) (brackets : List Nat) :
    (complete (signs :: brackets)).next t = some (complete brackets) := by
  simp [next, h, Kind.operation?, Kind.additive?, Kind.multiplicative?]

theorem next_joint {t : Token} {rank : Rank} {op : Operation} (h : rank.joint? t.kind = some op)
    (brackets : List Nat) : (complete brackets).next t = some (due 0 brackets) := by
  simp [next, Rank.operation?_of_joint h]

/-! ### Stages and phases -/

/-- What is due, with the signs left out. -/
def phase : Stage → Phase
  | due _ brackets => .due brackets.length
  | complete brackets => .complete brackets.length

/-- **Stages refine phases.** -/
theorem phase_next (q : Stage) (t : Token) : (q.next t).map phase = q.phase.next t := by
  cases q with
  | due signs brackets =>
      simp only [next, phase, Phase.next]
      split_ifs <;> rfl
  | complete brackets =>
      simp only [next, phase, Phase.next]
      split_ifs with hop hc hn hn
      · rfl
      · cases brackets with
        | nil => simp at hn
        | cons signs brackets => rfl
      · cases brackets with
        | nil => rfl
        | cons signs brackets => simp [hc] at hn
      · exact absurd hn.1 hc
      · rfl

theorem next_eq_none_iff {q : Stage} {t : Token} : q.next t = none ↔ q.phase.next t = none := by
  rw [← phase_next, Option.map_eq_none_iff]

/-- No end mark stands among tokens that lead to a stage. -/
theorem kind_ne_ending_of_next {q r : Stage} {t : Token} (h : q.next t = some r) :
    t.kind ≠ .ending := by
  intro hk
  rw [next_eq_none_iff.2 (Phase.next_ending q.phase hk)] at h
  cases h

/-- Only tokens that may open a sign or a bracket add to the depth, and only where an operand is
due. -/
theorem depth_next_le {q r : Stage} {t : Token} (h : q.next t = some r) :
    r.depth ≤ q.depth + if q.isDue ∧ mayOpen t then 1 else 0 := by
  cases q with
  | due signs brackets =>
      simp only [next] at h
      split_ifs at h with hs ho hn <;> cases h
      · simp [depth, isDue, mayOpen, hs, Nat.add_assoc]
      · simp [depth, isDue, mayOpen, ho, enclosing]
      · simp only [depth]
        omega
  | complete brackets =>
      simp only [next] at h
      split_ifs at h with hop hc
      · cases h
        simp [depth]
      · cases brackets with
        | nil => cases h
        | cons signs brackets =>
            cases h
            simp only [depth, enclosing]
            omega

/-- Where an operand is due, a token that may open a sign or a bracket does so. -/
theorem exists_next_of_mayOpen {q : Stage} {t : Token} (hq : q.isDue = true)
    (ht : mayOpen t = true) : ∃ r, q.next t = some r ∧ r.depth = q.depth + 1 := by
  cases q with
  | complete brackets => cases hq
  | due signs brackets =>
      simp only [mayOpen, Bool.or_eq_true, beq_iff_eq, Option.isSome_iff_exists] at ht
      rcases ht with ⟨sign, hs⟩ | ho
      · exact ⟨_, next_sign hs signs brackets, by simp [depth, Nat.add_assoc]⟩
      · exact ⟨_, next_opening ho signs brackets, by simp [depth, enclosing]⟩

/-! ### The deepest stage -/

/-- The most signs and brackets open at once in the tokens, up to the first one that may not stand
where it stands. -/
def deepest : Stage → List Token → Nat
  | q, [] => q.depth
  | q, t :: ts =>
      match q.next t with
      | none => q.depth
      | some r => max q.depth (r.deepest ts)

theorem deepest_cons {q r : Stage} {t : Token} (h : q.next t = some r) (ts : List Token) :
    q.deepest (t :: ts) = max q.depth (r.deepest ts) := by
  simp only [deepest, h]

theorem deepest_le_iff {ts : List Token} {n : Nat} : ∀ {q : Stage},
    q.deepest ts ≤ n ↔ ∀ k r, q.after (ts.take k) = some r → r.depth ≤ n := by
  induction ts with
  | nil =>
      intro q
      simp [deepest]
  | cons t ts ih =>
      intro q
      constructor
      · intro h k r hr
        cases hn : q.next t with
        | none =>
            simp only [deepest, hn] at h
            cases k with
            | zero => cases hr; exact h
            | succ k => simp [hn] at hr
        | some q' =>
            rw [deepest_cons hn, Nat.max_le] at h
            cases k with
            | zero => cases hr; exact h.1
            | succ k =>
                rw [List.take_succ_cons, after_cons, hn] at hr
                exact ih.1 h.2 k r hr
      · intro h
        have hq : q.depth ≤ n := h 0 q rfl
        cases hn : q.next t with
        | none => simpa only [deepest, hn] using hq
        | some q' =>
            rw [deepest_cons hn, Nat.max_le]
            refine ⟨hq, ih.2 fun k r hr => h (k + 1) r ?_⟩
            rw [List.take_succ_cons, after_cons, hn]
            exact hr

/-- At most all tokens that may open a sign or a bracket have opened one. -/
theorem deepest_le_openers (ts : List Token) : ∀ q : Stage,
    q.deepest ts ≤ q.depth + openers (beforeEnd ts) := by
  induction ts with
  | nil => intro q; exact Nat.le_add_right _ _
  | cons t ts ih =>
      intro q
      cases hn : q.next t with
      | none =>
          simp only [deepest, hn]
          exact Nat.le_add_right _ _
      | some r =>
          have hbefore : beforeEnd (t :: ts) = t :: beforeEnd ts :=
            List.takeWhile_cons_of_pos (by simpa using kind_ne_ending_of_next hn)
          have hstep : r.depth ≤ q.depth + if mayOpen t then 1 else 0 := by
            refine Nat.le_trans (depth_next_le hn) ?_
            cases q <;> simp [isDue]
          have hrest := ih r
          rw [deepest_cons hn, hbefore, openers_cons]
          omega

end Stage

/-! ### The nesting of a list of tokens -/

/-- What the tokens before place `k` leave open. -/
def stageAt (ts : List Token) (k : Nat) : Option Stage := (Stage.due 0 []).after (ts.take k)

/-- The most signs and brackets that are open at once. -/
def nesting (ts : List Token) : Nat := (Stage.due 0 []).deepest ts

theorem nesting_le_iff {ts : List Token} {n : Nat} :
    nesting ts ≤ n ↔ ∀ k q, stageAt ts k = some q → q.depth ≤ n :=
  Stage.deepest_le_iff

theorem nesting_le_openers (ts : List Token) : nesting ts ≤ openers (beforeEnd ts) := by
  have h := Stage.deepest_le_openers ts (.due 0 [])
  rwa [Stage.depth, Stage.enclosing, Nat.zero_add] at h

section StageAt

variable {ts : List Token} {j k : Nat} {q r : Stage} {t : Token}

theorem stageAt_succ (hq : stageAt ts k = some q) (ht : ts[k]? = some t) :
    stageAt ts (k + 1) = q.next t := by
  rw [stageAt, List.take_add_one, ht, Stage.after_append]
  rw [stageAt] at hq
  simp [hq]

/-- Tokens that lead to a stage lead through one with each beginning of theirs. -/
theorem exists_stageAt_of_le (hk : stageAt ts k = some q) (h : j ≤ k) :
    ∃ r, stageAt ts j = some r := by
  have htake : ts.take k = ts.take j ++ (ts.drop j).take (k - j) := by
    rw [← List.take_add, Nat.add_sub_cancel' h]
  rw [stageAt, htake, Stage.after_append] at hk
  obtain ⟨r, hr, -⟩ := Option.bind_eq_some_iff.1 hk
  exact ⟨r, hr⟩

/-- Behind a token that may not stand where it stands there are no stages. -/
theorem le_of_stageAt (hk : stageAt ts k = some q) (ht : ts[k]? = some t) (hn : q.next t = none)
    (hj : stageAt ts j = some r) : j ≤ k := by
  refine Nat.le_of_not_lt fun hlt => ?_
  obtain ⟨r', hr'⟩ := exists_stageAt_of_le hj (Nat.succ_le_of_lt hlt)
  rw [stageAt_succ hk ht, hn] at hr'
  cases hr'

/-- No stage is behind an end mark. -/
theorem le_of_ending (ht : ts[k]? = some t) (hm : t.kind = .ending) (hj : stageAt ts j = some q) :
    j ≤ k := by
  refine Nat.le_of_not_lt fun hlt => ?_
  obtain ⟨r, hr⟩ := exists_stageAt_of_le hj (Nat.le_of_lt hlt)
  have hn : r.next t = none := Stage.next_eq_none_iff.2 (Phase.next_ending r.phase hm)
  exact Nat.not_lt.2 (le_of_stageAt hr ht hn hj) hlt

/-- If there is an end mark, there is a token at every stage. -/
theorem exists_getElem?_of_stageAt (hend : ∃ t ∈ ts, t.kind = .ending)
    (hk : stageAt ts k = some q) : ∃ t, ts[k]? = some t := by
  obtain ⟨mark, hmem, hm⟩ := hend
  obtain ⟨i, hi⟩ := List.mem_iff_getElem?.1 hmem
  have hlt : k < ts.length :=
    Nat.lt_of_le_of_lt (le_of_ending hi hm hk) (List.getElem?_eq_some_iff.1 hi).1
  exact ⟨ts[k], List.getElem?_eq_getElem hlt⟩

end StageAt

/-! ### The nesting of an expression -/

/-- A phrase that is read where an operand is due completes it, and is as deep as its derivation
says.  Inside a chain no sign is open but before brackets. -/
theorem Derives.deepest_append {p : Phrase} {ts : List Token} {e : Expr} {d : Nat}
    (h : Derives p ts e d) : ∀ (signs : Nat) (brackets : List Nat) (rest : List Token),
      (p ≠ .factor → signs = 0) → (Stage.due signs brackets).deepest (ts ++ rest) =
        max ((Stage.due signs brackets).depth + d) ((Stage.complete brackets).deepest rest) := by
  induction h with
  | number h =>
      intro signs brackets rest _
      exact Stage.deepest_cons (Stage.next_number h signs brackets) rest
  | signed h _ ih =>
      intro signs brackets rest _
      rw [List.cons_append, Stage.deepest_cons (Stage.next_sign h signs brackets),
        ih _ _ _ (by simp)]
      simp only [Stage.depth]
      omega
  | bracketed hf hl _ ih =>
      intro signs brackets rest _
      rw [List.cons_append, Stage.deepest_cons (Stage.next_opening hf signs brackets),
        List.append_assoc, ih _ _ _ (by simp), List.singleton_append,
        Stage.deepest_cons (Stage.next_closing hl signs brackets)]
      simp only [Stage.depth, Stage.enclosing]
      omega
  | @single rank _ _ _ _ ih =>
      intro signs brackets rest hp
      exact ih signs brackets rest fun _ => hp (by simp)
  | @joined rank t op ls rs l r d d' h _ _ ihl ihr =>
      intro signs brackets rest hp
      obtain rfl := hp (by simp)
      rw [List.append_assoc, List.cons_append, ihl _ _ _ (by simp),
        Stage.deepest_cons (Stage.next_joint h brackets), ihr _ _ _ (by simp)]
      simp only [Stage.depth]
      omega

/-- **The nesting of an expression is the depth of its derivation.** -/
theorem Derives.nesting_eq {ts rest : List Token} {mark : Token} {e : Expr} {d : Nat}
    (h : Derives (.chain .expression) ts e d) (hm : mark.kind = .ending) :
    nesting (ts ++ mark :: rest) = d := by
  have hnone : (Stage.complete []).next mark = none :=
    Stage.next_eq_none_iff.2 (Phase.next_ending _ hm)
  have hmark : (Stage.complete []).deepest (mark :: rest) = 0 := by
    simp [Stage.deepest, hnone, Stage.depth, Stage.enclosing]
  rw [nesting, h.deepest_append 0 [] _ fun _ => rfl, hmark]
  simp [Stage.depth, Stage.enclosing]

end Reckoner.Grammar
