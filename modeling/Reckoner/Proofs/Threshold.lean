/-
**The limit on nesting is a threshold.**

The reader counts the signs and brackets that it has opened on its way into the tokens, and gives up
where one more would exceed its limit.  This module follows it from token to token.  Wherever it
stands between two rules, its count is the number of signs and brackets that the tokens before that
place leave open, and the places where it has noted an operand are those where one was due.  So what
it comes to is told by the tokens: either it gets to the place up to which they are the beginning of
an expression, with never more open than the limit allows, or it stops behind the first token that
opens one too many.

The first of the two happens exactly if the limit is not below the nesting of the tokens, and then
the limit does not show in the outcome.

Main definitions:

* `Reckoner.Expr.Stands` — the reader stands where these tokens lead it;
* `Reckoner.Expr.Stuck` — the reader has stopped at a place where it has to;
* `Reckoner.Expr.OpensAt` — a sign or bracket is opened inside so many others;
* `Reckoner.Expr.IsTooDeep` — the fault is about the limit.

Main results:

* `Reckoner.Expr.follows_rule` — **the rules keep to the stages of the tokens**;
* `Reckoner.Expr.whole_follows` — what reading comes to;
* `Reckoner.Expr.ofTokens_threshold` — **the limit is a threshold, at the nesting of the tokens**.
-/

import Reckoner.Proofs.Nesting
import Reckoner.Proofs.Viability

set_option relaxedAutoImplicit false
set_option autoImplicit false

namespace Reckoner.Expr

open Grammar

/-! ### Where the reader stands -/

/-- The places before `k` where an operand is due. -/
def dues (tokens : Array Token) (k : Nat) : List Nat :=
  (List.range k).filter fun j => (stageAt tokens.toList j).any Stage.isDue

/-- Up to place `k` no more signs and brackets are open at once than the limit allows. -/
def Within (tokens : Array Token) (limit k : Nat) : Prop :=
  ∀ j ≤ k, ∀ q, stageAt tokens.toList j = some q → q.depth ≤ limit

/-- The reader stands where the tokens leave `q` open, and has come there by all places where an
operand was due. -/
structure Stands (tokens : Array Token) (limit : Nat) (c : Cursor) (q : Stage) : Prop where
  stage : stageAt tokens.toList c.index = some q
  within : Within tokens limit c.index
  offered : c.offered = (dues tokens c.index).reverse

/-- The reader has stopped at a place where it has to. -/
inductive Stuck (tokens : Array Token) (limit : Nat) : Lapse → Cursor → Prop
  /-- The next token may not stand there. -/
  | refused {q : Stage} {t : Token} {stop : Cursor}
      (stage : stageAt tokens.toList stop.index = some q) (within : Within tokens limit stop.index)
      (token : tokens.toList[stop.index]? = some t) (refuses : q.phase.Refuses t)
      (offered : stop.offered = (dues tokens (stop.index + 1)).reverse) :
      Stuck tokens limit q.phase.lapse stop
  /-- The last token opened a sign or bracket, with as many open around it as the limit allows. -/
  | tooDeep {k : Nat} {q : Stage} {t : Token} {stop : Cursor}
      (stage : stageAt tokens.toList k = some q) (within : Within tokens limit k)
      (token : tokens.toList[k]? = some t) (due : q.isDue = true) (opens : mayOpen t = true)
      (full : q.depth = limit) (behind : stop.index = k + 1)
      (offered : stop.offered = (dues tokens stop.index).reverse) :
      Stuck tokens limit (.tooDeep limit) stop

section Steps

variable {tokens : Array Token} {limit k : Nat} {c next stop : Cursor} {q r : Stage} {t : Token}
  {rest : List Token} {l : Lapse}

theorem offered_advance (tokens : Array Token) (c : Cursor) :
    (c.advance tokens).offered = c.offered := by
  rw [Cursor.advance]
  split <;> rfl

theorem dues_succ (h : stageAt tokens.toList k = some q) :
    dues tokens (k + 1) = dues tokens k ++ if q.isDue then [k] else [] := by
  rw [dues, List.range_succ, List.filter_append, ← dues]
  cases hd : q.isDue <;> simp [h, hd]

theorem Within.succ (h : Within tokens limit k) (hr : stageAt tokens.toList (k + 1) = some r)
    (hd : r.depth ≤ limit) : Within tokens limit (k + 1) := by
  intro j hj q hq
  rcases Nat.lt_or_eq_of_le hj with hj | rfl
  · exact h j (Nat.le_of_lt_succ hj) q hq
  · rw [hr, Option.some.injEq] at hq
    exact hq ▸ hd

/-- The depth of the reader is no part of where it stands. -/
theorem Stands.of_eq (h : Stands tokens limit c q) (hi : next.index = c.index)
    (ho : next.offered = c.offered) : Stands tokens limit next q :=
  ⟨hi ▸ h.stage, hi ▸ h.within, by rw [ho, hi, h.offered]⟩

theorem Stuck.of_eq (h : Stuck tokens limit l stop) (hi : next.index = stop.index)
    (ho : next.offered = stop.offered) : Stuck tokens limit l next := by
  cases h with
  | refused stage within token refuses offered =>
      rw [← hi] at stage within token offered
      exact .refused stage within token refuses (ho.trans offered)
  | tooDeep stage within token due opens full behind offered =>
      rw [← hi] at behind offered
      exact .tooDeep stage within token due opens full behind (ho.trans offered)

theorem ahead_of_getElem? (h : tokens.toList[c.index]? = some t) :
    c.ahead tokens = t :: tokens.toList.drop (c.index + 1) := by
  obtain ⟨hlt, rfl⟩ := List.getElem?_eq_some_iff.1 h
  exact List.drop_eq_getElem_cons hlt

/-- No reader stands behind all tokens. -/
theorem Stands.exists_ahead (hend : ∃ t ∈ tokens.toList, t.kind = .ending)
    (h : Stands tokens limit c q) : ∃ t rest, c.ahead tokens = t :: rest := by
  obtain ⟨t, ht⟩ := exists_getElem?_of_stageAt hend h.stage
  exact ⟨t, _, ahead_of_getElem? ht⟩

/-- Where an operand is due the reader notes the place. -/
theorem Stands.offered_offer (h : Stands tokens limit c q) (hq : q.isDue = true) :
    c.offer.offered = (dues tokens (c.index + 1)).reverse := by
  rw [Cursor.offer, dues_succ h.stage]
  simp [hq, h.offered]

/-- Elsewhere there is nothing to note. -/
theorem Stands.offered_succ (h : Stands tokens limit c q) (hq : q.isDue = false) :
    c.offered = (dues tokens (c.index + 1)).reverse := by
  rw [dues_succ h.stage]
  simp [hq, h.offered]

/-- The reader passes the first token of an operand. -/
theorem Stands.enter (h : Stands tokens limit c q) (ht : c.ahead tokens = t :: rest)
    (hq : q.isDue = true) (hr : q.next t = some r) (hd : r.depth ≤ limit) :
    Stands tokens limit (c.enter tokens) r := by
  have hi := (reaches_enter ht).index
  have hstage : stageAt tokens.toList (c.index + 1) = some r := by
    rw [stageAt_succ h.stage (getElem?_of_ahead ht), hr]
  refine ⟨hi ▸ hstage, hi ▸ h.within.succ hstage hd, ?_⟩
  rw [hi, Cursor.enter, offered_advance, h.offered_offer hq]

/-- The reader passes a token behind an operand. -/
theorem Stands.advance (h : Stands tokens limit c q) (ht : c.ahead tokens = t :: rest)
    (hq : q.isDue = false) (hr : q.next t = some r) : Stands tokens limit (c.advance tokens) r := by
  have hi := (reaches_advance ht).index
  have hstage : stageAt tokens.toList (c.index + 1) = some r := by
    rw [stageAt_succ h.stage (getElem?_of_ahead ht), hr]
  have hd : r.depth ≤ limit := by
    have hle := Stage.depth_next_le hr
    simp only [hq] at hle
    exact Nat.le_trans hle (h.within c.index (Nat.le_refl _) q h.stage)
  refine ⟨hi ▸ hstage, hi ▸ h.within.succ hstage hd, ?_⟩
  rw [hi, offered_advance, h.offered_succ hq]

/-- The reader is stuck behind an operand if it has to refuse the next token. -/
theorem Stands.stuck (h : Stands tokens limit c q) (ht : c.ahead tokens = t :: rest)
    (hq : q.isDue = false) (hr : q.phase.Refuses t) : Stuck tokens limit q.phase.lapse c :=
  .refused h.stage h.within (getElem?_of_ahead ht) hr (h.offered_succ hq)

end Steps

/-! ### The rules keep to the stages -/

/-- A phrase may begin at `c`, where the reader has counted all that is open and has `room` for more
up to its limit.  Only a factor may begin right behind a sign. -/
structure Begins (tokens : Array Token) (limit room : Nat) (p : Phrase) (c : Cursor) (signs : Nat)
    (brackets : List Nat) : Prop where
  stands : Stands tokens limit c (.due signs brackets)
  level : c.depth = (Stage.due signs brackets).depth
  room : c.depth + room = limit
  bare : p ≠ .factor → signs = 0

/-- A phrase that began at `c` is complete at `next`, and all that was opened in it is closed. -/
structure Completes (tokens : Array Token) (limit : Nat) (p : Phrase) (brackets : List Nat)
    (c next : Cursor) : Prop where
  stands : Stands tokens limit next (.complete brackets)
  level : next.depth = c.depth
  moved : c.index < next.index
  stops : p.Stops (kindAt tokens next.index)

/-- An outcome of reading a phrase from `c` on, with these brackets open. -/
def Follows (tokens : Array Token) (limit : Nat) (p : Phrase) (brackets : List Nat) (c : Cursor) :
    Outcome → Prop
  | .tree _ next => Completes tokens limit p brackets c next
  | .lapse l stop => Stuck tokens limit l stop

/-- Wherever the phrase may begin, its rule keeps to the stages. -/
def Keeps (tokens : Array Token) (limit room : Nat) (p : Phrase) : Prop :=
  ∀ (c : Cursor) (signs : Nat) (brackets : List Nat),
    Begins tokens limit room p c signs brackets →
      Follows tokens limit p brackets c (rule tokens room p c)

section Rules

variable {tokens : Array Token} {limit room signs signs' : Nat} {p : Phrase} {c next : Cursor}
  {brackets brackets' : List Nat} {t : Token} {rest : List Token} {rank : Rank}

/-- A sign or bracket takes away room for one, or stops the reader if there is no room. -/
theorem follows_inside (h : ∀ r < room, Keeps tokens limit r p)
    (hb : Begins tokens limit room .factor c signs brackets) (ht : c.ahead tokens = t :: rest)
    (ho : mayOpen t = true)
    (hn : (Stage.due signs brackets).next t = some (.due signs' brackets'))
    (hbare : p ≠ .factor → signs' = 0) :
    Follows tokens limit p brackets' (c.enter tokens)
      (inside tokens room p (c.enter tokens)) := by
  have hreach := reaches_enter ht
  obtain ⟨r, hr, hdeeper⟩ := Stage.exists_next_of_mayOpen (q := .due signs brackets) rfl ho
  obtain rfl : r = .due signs' brackets' := Option.some.inj (hr.symm.trans hn)
  have hlevel := hb.level
  have hroom := hb.room
  cases room with
  | zero =>
      have hfull : (c.enter tokens).depth = limit := by rw [hreach.depth, ← hroom, Nat.add_zero]
      have hoffered : (c.enter tokens).offered = (dues tokens (c.enter tokens).index).reverse := by
        rw [hreach.index, Cursor.enter, offered_advance, hb.stands.offered_offer rfl]
      rw [inside_zero, hfull]
      exact .tooDeep hb.stands.stage hb.stands.within (getElem?_of_ahead ht) rfl ho (by omega)
        hreach.index hoffered
  | succ room =>
      have hstands := hb.stands.enter ht rfl hn (by omega)
      have hdepth : (c.enter tokens).inward.depth = c.depth + 1 := by
        rw [Cursor.inward, hreach.depth]
      have hin : Begins tokens limit room p (c.enter tokens).inward signs' brackets' :=
        ⟨hstands.of_eq rfl rfl, by omega, by omega, hbare⟩
      have hfollows := h room (Nat.lt_succ_self room) _ _ _ hin
      cases hr : rule tokens room p (c.enter tokens).inward with
      | tree e next =>
          rw [hr] at hfollows
          rw [inside_succ_of_tree hr]
          exact ⟨hfollows.stands.of_eq rfl rfl, by simp [hfollows.level, Cursor.inward],
            hfollows.moved, hfollows.stops⟩
      | lapse l stop =>
          rw [hr] at hfollows
          rw [inside_of_lapse hr]
          exact Stuck.of_eq hfollows rfl rfl

/-- A bracket with what follows it. -/
theorem follows_opening (hend : ∃ t ∈ tokens.toList, t.kind = .ending)
    (h : ∀ r < room, Keeps tokens limit r (.chain .expression))
    (hb : Begins tokens limit room .factor c signs brackets) (ht : c.ahead tokens = t :: rest)
    (ho : t.kind = .opening) :
    Follows tokens limit .factor brackets c (rule tokens room .factor c) := by
  have hin := follows_inside h hb ht (by simp [mayOpen, ho]) (Stage.next_opening ho signs brackets)
    fun _ => rfl
  rw [factor_eq, primary_opening (tokenAt?_of_ahead ht) ho]
  cases hr : inside tokens room (.chain .expression) (c.enter tokens) with
  | lapse l stop =>
      rw [hr] at hin
      exact hin
  | tree inner next =>
      rw [hr] at hin
      obtain ⟨t', rest', hnext⟩ := hin.stands.exists_ahead hend
      have hkind := kindAt_of_ahead hnext
      -- the expression inside has stopped, so the next token can only close the bracket
      by_cases hclose : t'.kind = .closing
      · simp only [hkind, hclose, if_true]
        have hreach := reaches_advance hnext
        have hmoved : c.index < (next.advance tokens).index := by
          have hinner := hin.moved
          rw [(reaches_enter ht).index] at hinner
          rw [hreach.index]
          omega
        exact ⟨hin.stands.advance hnext rfl (Stage.next_closing hclose signs brackets),
          (hreach.depth.trans hin.level).trans (reaches_enter ht).depth, hmoved, trivial⟩
      · simp only [hkind, hclose, if_false]
        have hrefuses : (Stage.complete (signs :: brackets)).phase.Refuses t' :=
          ⟨Phase.next_complete_eq_none (hkind ▸ hin.stops) fun h => absurd h hclose,
            fun h => absurd h (by simp [Stage.phase])⟩
        exact hin.stands.stuck hnext rfl hrefuses

theorem keeps_factor (hend : ∃ t ∈ tokens.toList, t.kind = .ending)
    (hs : ∀ r < room, Keeps tokens limit r .factor)
    (he : ∀ r < room, Keeps tokens limit r (.chain .expression)) :
    Keeps tokens limit room .factor := by
  intro c signs brackets hb
  obtain ⟨t, rest, ht⟩ := hb.stands.exists_ahead hend
  rcases Phase.next_due_cases t with ⟨value, hv⟩ | ⟨sign, hsign⟩ | ho | hn
  · have hlimit : (Stage.complete brackets).depth ≤ limit := by
      have hlevel := hb.level
      have hroom := hb.room
      simp only [Stage.depth] at hlevel ⊢
      omega
    rw [factor_eq, primary_number (tokenAt?_of_ahead ht) hv]
    exact ⟨hb.stands.enter ht rfl (Stage.next_number hv signs brackets) hlimit,
      (reaches_enter ht).depth, by rw [(reaches_enter ht).index]; exact Nat.lt_succ_self _, trivial⟩
  · have hin := follows_inside hs hb ht (by simp [mayOpen, hsign])
      (Stage.next_sign hsign signs brackets) (by simp)
    rw [factor_eq, primary_sign (tokenAt?_of_ahead ht) hsign]
    cases hr : inside tokens room .factor (c.enter tokens) with
    | lapse l stop =>
        rw [hr] at hin
        exact hin
    | tree operand next =>
        rw [hr] at hin
        have hmoved : c.index < next.index := by
          have hinner := hin.moved
          rw [(reaches_enter ht).index] at hinner
          omega
        exact ⟨hin.stands, hin.level.trans (reaches_enter ht).depth, hmoved, trivial⟩
  · exact follows_opening hend he hb ht ho
  · rw [factor_eq, primary_other (tokenAt?_of_ahead ht) (hn 0)]
    have hrefuses : (Stage.due signs brackets).phase.Refuses t :=
      ⟨hn _, fun h => absurd h (by simp [Stage.phase])⟩
    change Stuck tokens limit (Stage.due signs brackets).phase.lapse c.offer
    exact .refused hb.stands.stage hb.stands.within (getElem?_of_ahead ht) hrefuses
      (hb.stands.offered_offer rfl)

/-- The rest of a chain keeps to the stages, behind any part of the chain. -/
theorem follows_resume (hend : ∃ t ∈ tokens.toList, t.kind = .ending)
    (hop : Keeps tokens limit room rank.operand) {start : Cursor}
    (hb : Begins tokens limit room (.chain rank) start 0 brackets) :
    ∀ (n : Nat) {c : Cursor} {l : Expr}, tokens.size - c.index = n →
      Completes tokens limit rank.operand brackets start c →
      Follows tokens limit (.chain rank) brackets start
        (resume tokens room (.chain rank) l c) := by
  -- every operation passes a token, so that the tokens left bound the length of the chain
  intro n
  induction n using Nat.strongRecOn with
  | _ n ih =>
      intro c l hn hc
      obtain ⟨t, rest, ht⟩ := hc.stands.exists_ahead hend
      have hkind := kindAt_of_ahead ht
      cases hj : rank.joint? t.kind with
      | none =>
          have hs : (Phrase.chain rank).Stops (kindAt tokens c.index) :=
            Phrase.stops_chain_iff.2 ⟨hkind ▸ hj, hc.stops⟩
          rw [resume_of_stops hs]
          exact ⟨hc.stands, hc.level, hc.moved, hs⟩
      | some op =>
          have hpast := reaches_advance ht
          have hstands := hc.stands.advance ht rfl (Stage.next_joint hj brackets)
          have hdepth : (c.advance tokens).depth = start.depth := hpast.depth.trans hc.level
          have hfollows := hop (c.advance tokens) 0 brackets
            ⟨hstands, hdepth.trans hb.level, by rw [hdepth, hb.room], fun _ => rfl⟩
          cases ho : rule tokens room rank.operand (c.advance tokens) with
          | lapse l' stop =>
              rw [ho] at hfollows
              rw [resume_chain_of_lapse ht hj ho]
              exact hfollows
          | tree r next =>
              rw [ho] at hfollows
              have hmoved : c.index < next.index := by
                have hinner := hfollows.moved
                rw [hpast.index] at hinner
                omega
              have hlt := index_lt_of_ahead ht
              rw [resume_chain_of_operand ht hj ho hmoved]
              exact ih _ (by omega) rfl ⟨hfollows.stands, hfollows.level.trans hdepth,
                Nat.lt_trans hc.moved hmoved, hfollows.stops⟩

theorem keeps_chain (hend : ∃ t ∈ tokens.toList, t.kind = .ending)
    (hop : Keeps tokens limit room rank.operand) : Keeps tokens limit room (.chain rank) := by
  intro c signs brackets hb
  obtain rfl := hb.bare (by simp)
  have hfollows := hop c 0 brackets ⟨hb.stands, hb.level, hb.room, fun _ => rfl⟩
  cases ho : rule tokens room rank.operand c with
  | lapse l stop =>
      rw [ho] at hfollows
      rw [rule_chain_of_lapse ho]
      exact hfollows
  | tree e next =>
      rw [ho] at hfollows
      rw [rule_chain_of_operand (ho.trans (resume_of_stops hfollows.stops).symm) hfollows.stops]
      exact follows_resume hend hop hb _ rfl hfollows

end Rules

/-- **The rules keep to the stages of the tokens.** -/
theorem follows_rule {tokens : Array Token} (hend : ∃ t ∈ tokens.toList, t.kind = .ending)
    (limit : Nat) (p : Phrase) (room : Nat) : Keeps tokens limit room p := by
  have hfactor : ∀ room, Keeps tokens limit room .factor := by
    intro room
    -- what stands behind a sign or in brackets is read with less room
    induction room using Nat.strongRecOn with
    | _ room ih =>
        have hterm (r : Nat) (hr : r < room) : Keeps tokens limit r (.chain .term) :=
          keeps_chain hend (ih r hr)
        have hexpression (r : Nat) (hr : r < room) : Keeps tokens limit r (.chain .expression) :=
          keeps_chain hend (hterm r hr)
        exact keeps_factor hend ih hexpression
  have hterm : Keeps tokens limit room (.chain .term) := keeps_chain hend (hfactor room)
  match p with
  | .factor => exact hfactor room
  | .chain .term => exact hterm
  | .chain .expression => exact keeps_chain hend hterm

/-! ### What reading comes to -/

section Whole

variable {tokens : Array Token} {limit limit' : Nat} {e : Expr} {l l' : Lapse}
  {next stop stop' : Cursor} {source : String}

theorem begins_start (tokens : Array Token) (limit : Nat) :
    Begins tokens limit limit (.chain .expression) .start 0 [] where
  stands := by
    refine ⟨rfl, fun j hj q hq => ?_, rfl⟩
    obtain rfl := Nat.le_zero.1 hj
    obtain rfl := Option.some.inj hq
    exact Nat.zero_le _
  level := rfl
  room := Nat.zero_add limit
  bare := fun _ => rfl

/-- Behind a tree no sign or bracket is open, and the end mark is next. -/
theorem stands_of_whole (h : whole tokens limit = .tree e next) :
    Stands tokens limit next (.complete []) ∧ kindAt tokens next.index = .ending := by
  obtain ⟨hrule, hk⟩ := whole_eq_tree_iff.1 h
  have hfollows := follows_rule (exists_ending_of_whole h) limit (.chain .expression) limit
    .start 0 [] (begins_start tokens limit)
  rw [hrule] at hfollows
  exact ⟨hfollows.stands, hk⟩

/-- A lapse is where the reader has to stop. -/
theorem stuck_of_whole (hend : ∃ t ∈ tokens.toList, t.kind = .ending)
    (h : whole tokens limit = .lapse l stop) : Stuck tokens limit l stop := by
  have hfollows := follows_rule hend limit (.chain .expression) limit .start 0 []
    (begins_start tokens limit)
  rcases whole_eq_lapse_iff.1 h with hrule | ⟨⟨e, hrule⟩, hk, rfl⟩
  · rw [hrule] at hfollows
    exact hfollows
  · rw [hrule] at hfollows
    obtain ⟨t, rest, ht⟩ := hfollows.stands.exists_ahead hend
    have hkind := kindAt_of_ahead ht
    have hnone : (Phase.complete 0).next t = none :=
      Phase.next_complete_eq_none (hkind ▸ hfollows.stops) fun _ => rfl
    exact hfollows.stands.stuck ht rfl ⟨hnone, fun _ => hkind ▸ hk⟩

/-- The last cursor of an outcome. -/
def Outcome.cursor : Outcome → Cursor
  | tree _ next => next
  | lapse _ stop => stop

/-- The reader has noted the places where an operand was due, each once and in their order, up to
the last one that it has looked at. -/
theorem exists_dues_of_whole (hend : ∃ t ∈ tokens.toList, t.kind = .ending) (limit : Nat) :
    ∃ k, (whole tokens limit).cursor.offered.reverse = dues tokens k := by
  cases h : whole tokens limit with
  | tree e next =>
      exact ⟨_, by rw [Outcome.cursor, (stands_of_whole h).1.offered, List.reverse_reverse]⟩
  | lapse l stop =>
      cases stuck_of_whole hend h with
      | refused _ _ _ _ offered => exact ⟨_, by rw [Outcome.cursor, offered, List.reverse_reverse]⟩
      | tooDeep _ _ _ _ _ _ _ offered =>
          exact ⟨_, by rw [Outcome.cursor, offered, List.reverse_reverse]⟩

/-! ### The threshold -/

/-- Where a token is refused, all that the tokens ever open has been opened. -/
theorem Within.nesting_le {k : Nat} {q : Stage} {t : Token} (h : Within tokens limit k)
    (hq : stageAt tokens.toList k = some q) (ht : tokens.toList[k]? = some t)
    (hn : q.next t = none) : nesting tokens.toList ≤ limit :=
  nesting_le_iff.2 fun j r hr => h j (le_of_stageAt hq ht hn hr) r hr

theorem nesting_le_of_whole (h : whole tokens limit = .tree e next) :
    nesting tokens.toList ≤ limit := by
  obtain ⟨hstands, hk⟩ := stands_of_whole h
  obtain ⟨t, rest, ht⟩ := hstands.exists_ahead (exists_ending_of_whole h)
  rw [kindAt_of_ahead ht] at hk
  exact hstands.within.nesting_le hstands.stage (getElem?_of_ahead ht)
    (Stage.next_eq_none_iff.2 (Phase.next_ending _ hk))

/-- At place `k` a sign or bracket is opened with `depth` of them open around it. -/
def OpensAt (ts : List Token) (depth k : Nat) : Prop :=
  ∃ q t, stageAt ts k = some q ∧ q.isDue = true ∧ q.depth = depth ∧ ts[k]? = some t ∧
    mayOpen t = true

/-- Behind it one more is open. -/
theorem OpensAt.exists_stageAt {ts : List Token} {depth k : Nat} (h : OpensAt ts depth k) :
    ∃ r, stageAt ts (k + 1) = some r ∧ r.depth = depth + 1 := by
  obtain ⟨q, t, hq, hdue, rfl, ht, ho⟩ := h
  obtain ⟨r, hr, hdepth⟩ := Stage.exists_next_of_mayOpen hdue ho
  exact ⟨r, by rw [stageAt_succ hq ht, hr], hdepth⟩

/-- The fault is about the limit. -/
def IsTooDeep (r : Except Fault Expr) : Prop :=
  ∃ limit source p, r = .error ⟨.ungrammatical (.tooDeep limit), source, p⟩

/-- A reader whose limit is not below the nesting stops at a refused token only. -/
theorem Stuck.refused_of_nesting_le (h : Stuck tokens limit l stop)
    (hn : nesting tokens.toList ≤ limit) :
    ∃ q t, stageAt tokens.toList stop.index = some q ∧ tokens.toList[stop.index]? = some t ∧
      q.phase.Refuses t ∧ l = q.phase.lapse := by
  cases h with
  | @refused q t _ stage _ token refuses _ => exact ⟨q, t, stage, token, refuses, rfl⟩
  | @tooDeep k q t _ stage _ token due opens full _ _ =>
      have hopens : OpensAt tokens.toList limit k := ⟨q, t, stage, due, full, token, opens⟩
      obtain ⟨r, hr, hdepth⟩ := hopens.exists_stageAt
      have hle := nesting_le_iff.1 hn _ r hr
      omega

/-- A reader whose limit is below the nesting stops behind the first token that opens too many. -/
theorem Stuck.tooDeep_of_lt_nesting (h : Stuck tokens limit l stop)
    (hn : limit < nesting tokens.toList) :
    ∃ k, stop.index = k + 1 ∧ OpensAt tokens.toList limit k ∧
      (∀ j < k, ¬ OpensAt tokens.toList limit j) ∧ l = .tooDeep limit := by
  cases h with
  | refused stage within token refuses _ =>
      have hle := within.nesting_le stage token (Stage.next_eq_none_iff.2 refuses.1)
      omega
  | @tooDeep k q t _ stage within token due opens full behind _ =>
      refine ⟨k, behind, ⟨q, t, stage, due, full, token, opens⟩, fun j hj hopens => ?_, rfl⟩
      obtain ⟨r, hr, hdepth⟩ := hopens.exists_stageAt
      have hle := within (j + 1) hj r hr
      omega

/-- Readers whose limits are not below the nesting stop at the same place for the same reason. -/
theorem Stuck.unique (h : Stuck tokens limit l stop) (h' : Stuck tokens limit' l' stop')
    (hn : nesting tokens.toList ≤ limit) (hn' : nesting tokens.toList ≤ limit') :
    l = l' ∧ stop.index = stop'.index := by
  obtain ⟨q, t, hq, ht, hrefuses, rfl⟩ := h.refused_of_nesting_le hn
  obtain ⟨q', t', hq', ht', hrefuses', rfl⟩ := h'.refused_of_nesting_le hn'
  have hindex : stop.index = stop'.index := Nat.le_antisymm
    (le_of_stageAt hq' ht' (Stage.next_eq_none_iff.2 hrefuses'.1) hq)
    (le_of_stageAt hq ht (Stage.next_eq_none_iff.2 hrefuses.1) hq')
  rw [← hindex, hq, Option.some.injEq] at hq'
  exact ⟨by rw [hq'], hindex⟩

/-- A tree that is read with some limit is read with every limit not below the nesting. -/
theorem ofTokens_ok_of_nesting_le (h : (ofTokens source limit tokens).value = .ok e)
    (hn : nesting tokens.toList ≤ limit') : (ofTokens source limit' tokens).value = .ok e := by
  obtain ⟨hend, d, -, hd⟩ := ofTokens_eq_ok_iff_derives.1 h
  obtain ⟨mark, rest, hall, hm⟩ := exists_mark_of_mem hend
  have hdepth : nesting tokens.toList = d := by
    rw [hall]
    exact hd.nesting_eq hm
  exact ofTokens_eq_ok_iff_derives.2 ⟨hend, d, hdepth ▸ hn, hd⟩

/-- A limit that is not below the nesting does not show in the outcome. -/
theorem ofTokens_eq_of_nesting_le (hend : ∃ t ∈ tokens.toList, t.kind = .ending)
    (hn : nesting tokens.toList ≤ limit) (hn' : nesting tokens.toList ≤ limit') :
    (ofTokens source limit tokens).value = (ofTokens source limit' tokens).value := by
  cases h : (ofTokens source limit tokens).value with
  | ok e => rw [ofTokens_ok_of_nesting_le h hn']
  | error fault =>
      cases h' : (ofTokens source limit' tokens).value with
      | ok e =>
          rw [ofTokens_ok_of_nesting_le h' hn] at h
          cases h
      | error fault' =>
          obtain ⟨l, stop, hw, rfl⟩ := ofTokens_eq_error_iff.1 h
          obtain ⟨l', stop', hw', rfl⟩ := ofTokens_eq_error_iff.1 h'
          obtain ⟨rfl, hindex⟩ :=
            (stuck_of_whole hend hw).unique (stuck_of_whole hend hw') hn hn'
          rw [hindex]

theorem not_isTooDeep_of_nesting_le (hend : ∃ t ∈ tokens.toList, t.kind = .ending)
    (hn : nesting tokens.toList ≤ limit) :
    ¬ IsTooDeep (ofTokens source limit tokens).value := by
  rintro ⟨n, source', p, h⟩
  obtain ⟨l, stop, hw, hfault⟩ := ofTokens_eq_error_iff.1 h
  obtain ⟨q, t, -, -, -, rfl⟩ := (stuck_of_whole hend hw).refused_of_nesting_le hn
  rw [Fault.mk.injEq, Cause.ungrammatical.injEq] at hfault
  match q.phase, hfault.1 with
  | .due _, hlapse => cases hlapse
  | .complete 0, hlapse => cases hlapse
  | .complete (_ + 1), hlapse => cases hlapse

/-- With a limit below the nesting, the fault is at the token behind the first one that opens too
many signs and brackets. -/
theorem exists_tooDeep_of_lt_nesting (hend : ∃ t ∈ tokens.toList, t.kind = .ending)
    (hn : limit < nesting tokens.toList) (source : String) :
    ∃ k t, OpensAt tokens.toList limit k ∧ (∀ j < k, ¬ OpensAt tokens.toList limit j) ∧
      tokens[k + 1]? = some t ∧ (ofTokens source limit tokens).value =
        .error ⟨.ungrammatical (.tooDeep limit), source, t.position⟩ := by
  cases hw : whole tokens limit with
  | tree e next => exact absurd (nesting_le_of_whole hw) (Nat.not_le.2 hn)
  | lapse l stop =>
      obtain ⟨k, hindex, hopens, hfirst, rfl⟩ :=
        (stuck_of_whole hend hw).tooDeep_of_lt_nesting hn
      obtain ⟨r, hr, -⟩ := hopens.exists_stageAt
      obtain ⟨t, ht⟩ := exists_getElem?_of_stageAt hend hr
      have hahead : stop.ahead tokens = t :: tokens.toList.drop (stop.index + 1) :=
        ahead_of_getElem? (hindex ▸ ht)
      refine ⟨k, t, hopens, hfirst, by rwa [← Array.getElem?_toList], ?_⟩
      exact ofTokens_eq_error_iff.2 ⟨_, stop, hw, by rw [positionAt_of_ahead hahead]⟩

end Whole

/-- **The limit on nesting is a threshold and changes nothing else.**  The nesting of the tokens, of
which no more than all their signs and opening brackets can be the cause, parts the limits in two.
With those not below it, the outcome is always the same, and is not about the limit.  With those
below it, the limit is at fault, at the token behind the first sign or bracket that is opened with
as many open around it as the limit allows.  So a higher limit changes no other outcome. -/
theorem ofTokens_threshold (tokens : Array Token) (hend : ∃ t ∈ tokens.toList, t.kind = .ending) :
    nesting tokens.toList ≤ openers (beforeEnd tokens.toList) ∧
    ∀ source,
      (∃ outcome, ¬ IsTooDeep outcome ∧ ∀ limit, nesting tokens.toList ≤ limit →
        (ofTokens source limit tokens).value = outcome) ∧
      (∀ limit < nesting tokens.toList, ∃ k t fault, OpensAt tokens.toList limit k ∧
        (∀ j < k, ¬ OpensAt tokens.toList limit j) ∧ tokens[k + 1]? = some t ∧
        (ofTokens source limit tokens).value = .error fault ∧
        fault = ⟨.ungrammatical (.tooDeep limit), source, t.position⟩ ∧
        fault.message = "maximum nesting depth of " ++ toString limit ++ " exceeded") ∧
      ∀ limit limit', limit ≤ limit' → ¬ IsTooDeep (ofTokens source limit tokens).value →
        (ofTokens source limit' tokens).value = (ofTokens source limit tokens).value := by
  refine ⟨nesting_le_openers tokens.toList, fun source => ⟨?_, ?_, ?_⟩⟩
  · exact ⟨_, not_isTooDeep_of_nesting_le hend (Nat.le_refl _), fun limit hlimit =>
      ofTokens_eq_of_nesting_le hend hlimit (Nat.le_refl _)⟩
  · intro limit hlimit
    obtain ⟨k, t, hopens, hfirst, ht, hfault⟩ := exists_tooDeep_of_lt_nesting hend hlimit source
    exact ⟨k, t, _, hopens, hfirst, ht, hfault, rfl, rfl⟩
  · intro limit limit' hle hshallow
    have hn : nesting tokens.toList ≤ limit := by
      refine Nat.le_of_not_lt fun hlt => hshallow ?_
      obtain ⟨k, t, -, -, -, hfault⟩ := exists_tooDeep_of_lt_nesting hend hlt source
      exact ⟨limit, source, t.position, hfault⟩
    exact ofTokens_eq_of_nesting_le hend (Nat.le_trans hn hle) hn

/-- The tokens of `(1)*-(`. -/
def siblings : Array Token :=
  #[⟨.opening, none, ⟨0, 1, 0⟩⟩, ⟨.integer, some (.int 1), ⟨1, 1, 1⟩⟩, ⟨.closing, none, ⟨2, 1, 2⟩⟩,
    ⟨.star, none, ⟨3, 1, 3⟩⟩, ⟨.minus, none, ⟨4, 1, 4⟩⟩, ⟨.opening, none, ⟨5, 1, 5⟩⟩,
    ⟨.ending, none, ⟨6, 1, 6⟩⟩]

/-- The first bracket is closed before the sign opens, so that the nesting is two.  That an operand
is missing shows with every limit that allows so much. -/
theorem ofTokens_threshold_siblings :
    nesting siblings.toList = 2 ∧
    (∃ k t fault, OpensAt siblings.toList 1 k ∧ siblings[k + 1]? = some t ∧
      (ofTokens "sums" 1 siblings).value = .error fault ∧ fault.position = t.position) ∧
    ∀ limit, 2 ≤ limit → (ofTokens "sums" limit siblings).value =
      .error ⟨.ungrammatical .operandDue, "sums", ⟨6, 1, 6⟩⟩ := by
  have hnesting : nesting siblings.toList = 2 := by decide +kernel
  have htwo : (ofTokens "sums" 2 siblings).value =
      .error ⟨.ungrammatical .operandDue, "sums", ⟨6, 1, 6⟩⟩ := by
    decide +kernel
  have hend : ∃ t ∈ siblings.toList, t.kind = .ending :=
    ⟨⟨.ending, none, ⟨6, 1, 6⟩⟩, by decide +kernel, rfl⟩
  obtain ⟨⟨outcome, -, hsame⟩, hdeep, -⟩ := (ofTokens_threshold siblings hend).2 "sums"
  rw [hnesting] at hsame hdeep
  refine ⟨hnesting, ?_, fun limit hlimit => ?_⟩
  · obtain ⟨k, t, fault, hopens, -, ht, hfault, rfl, -⟩ := hdeep 1 (by decide)
    exact ⟨k, t, _, hopens, ht, hfault, rfl⟩
  · rw [hsame limit hlimit, ← hsame 2 (Nat.le_refl 2), htwo]

end Reckoner.Expr
