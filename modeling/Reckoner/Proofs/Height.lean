/-
**The limit on nesting bounds the height of a tree.**

A chain of operations is walked down its left operands by a loop, when it is evaluated and when it
is written.  Only its operands, and an operand under a sign, are visited on their own, and what is
visited there may make visits in turn.  The *height* of a tree is the number of visits that nest in
one another.  A chain adds one to the height of its tallest operand, however long it is.

The reader counts signs and brackets, which is not the same: brackets leave no trace in a tree, a
chain goes on through the brackets around its first operand, and `1 + 2 * 3` is higher than `1 * 2`
without any.  But a phrase can be taller than its tallest operand by one only, and there are two
ranks of chains between one pair of brackets and the next.  So each sign or bracket that is open
allows for two more in height, and none at all for three.

Main definitions:

* `Reckoner.Expr.operands` — the operands of a chain;
* `Reckoner.Expr.height`, `Reckoner.Expr.tallest` — the height of a tree, and of the tallest
  operand of a chain;
* `Reckoner.Expr.Visits`, `Reckoner.Expr.Nests` — single visits, and visits in one another.

Main results:

* `Reckoner.Expr.nests_height`, `Reckoner.Expr.Nests.le_height` — the height is the greatest number
  of visits in one another;
* `Reckoner.Grammar.Derives.height_le` — a phrase is not much higher than it is deep;
* `Reckoner.Expr.height_within_limit` — **what is read within a limit is at most three higher than
  twice the limit, and may be as high as that**.
-/

import Reckoner.Proofs.Reading

set_option relaxedAutoImplicit false
set_option autoImplicit false

namespace Reckoner

open Grammar

namespace Expr

/-! ### Chains and heights -/

/-- The operands of a chain: the first node down the left operands that is no operation, and then
all right operands.  Any other tree is a chain of itself alone. -/
def operands : Expr → List Expr
  | literal value p => [literal value p]
  | signed sign operand p => [signed sign operand p]
  | joined _ left right _ => left.operands ++ [right]

mutual

/-- The height of a tree: that of a chain is one more than that of its tallest operand. -/
def height : Expr → Nat
  | literal _ _ => 1
  | signed _ operand _ => 1 + operand.height
  | joined _ left right _ => 1 + max left.tallest right.height

/-- The height of the tallest operand of a chain. -/
def tallest : Expr → Nat
  | literal _ _ => 1
  | signed _ operand _ => 1 + operand.height
  | joined _ left right _ => max left.tallest right.height

end

theorem height_joined (op : Operation) (left right : Expr) (p : Position) :
    (joined op left right p).height = 1 + (joined op left right p).tallest := rfl

theorem tallest_le_height (e : Expr) : e.tallest ≤ e.height := by
  cases e with
  | literal value p => simp [height, tallest]
  | signed sign operand p => simp [height, tallest]
  | joined op left right p =>
      rw [height_joined]
      omega

theorem one_le_height (e : Expr) : 1 ≤ e.height := by
  cases e <;> simp [height]

theorem height_le_tallest {e x : Expr} (h : x ∈ e.operands) : x.height ≤ e.tallest := by
  induction e with
  | literal value p =>
      rw [List.mem_singleton.1 h]
      exact Nat.le_refl _
  | signed sign operand p =>
      rw [List.mem_singleton.1 h]
      exact Nat.le_refl _
  | joined op left right p ihl _ =>
      rw [tallest]
      rcases List.mem_append.1 h with h | h
      · exact Nat.le_trans (ihl h) (Nat.le_max_left _ _)
      · rw [List.mem_singleton.1 h]
        exact Nat.le_max_right _ _

/-- **The tallest operand is one of the operands.** -/
theorem exists_operand_height (e : Expr) : ∃ x ∈ e.operands, x.height = e.tallest := by
  induction e with
  | literal value p => exact ⟨_, List.mem_singleton_self _, rfl⟩
  | signed sign operand p => exact ⟨_, List.mem_singleton_self _, rfl⟩
  | joined op left right p ihl _ =>
      obtain ⟨x, hx, hheight⟩ := ihl
      rw [tallest]
      rcases Nat.le_total left.tallest right.height with hle | hle
      · exact ⟨right, by simp [operands], by omega⟩
      · exact ⟨x, List.mem_append_left _ hx, by omega⟩

/-! ### Visits -/

/-- While a tree is gone through, another one is visited on its own. -/
inductive Visits : Expr → Expr → Prop
  /-- What stands under a sign is visited. -/
  | operand {sign : Sign} {x : Expr} {p : Position} : Visits (signed sign x p) x
  /-- All operands of a chain are visited. -/
  | chain {op : Operation} {left right x : Expr} {p : Position}
      (h : x ∈ (joined op left right p).operands) : Visits (joined op left right p) x

/-- Going through a tree takes so many visits in one another, its own among them. -/
inductive Nests : Expr → Nat → Prop
  | alone (e : Expr) : Nests e 1
  | within {e x : Expr} {n : Nat} (h : e.Visits x) (inner : Nests x n) : Nests e (n + 1)

theorem Visits.height_lt {e x : Expr} (h : e.Visits x) : x.height < e.height := by
  cases h with
  | operand =>
      rw [height]
      omega
  | chain h =>
      have htallest := height_le_tallest h
      rw [height_joined]
      omega

/-- A tree makes no visit, or makes one to a tree that is lower by one. -/
theorem height_eq_one_or_visits (e : Expr) :
    e.height = 1 ∨ ∃ x, e.Visits x ∧ e.height = x.height + 1 := by
  cases e with
  | literal value p => exact Or.inl rfl
  | signed sign x p => exact Or.inr ⟨x, .operand, Nat.add_comm 1 _⟩
  | joined op left right p =>
      obtain ⟨x, hx, hheight⟩ := exists_operand_height (joined op left right p)
      exact Or.inr ⟨x, .chain hx, by rw [height_joined, hheight, Nat.add_comm]⟩

/-- No more visits nest in one another than the tree is high. -/
theorem Nests.le_height {e : Expr} {n : Nat} (h : e.Nests n) : n ≤ e.height := by
  induction h with
  | alone e => exact e.one_le_height
  | within h _ ih => exact Nat.lt_of_le_of_lt ih h.height_lt

/-- **So many do.** -/
theorem nests_height (e : Expr) : e.Nests e.height := by
  induction hn : e.height using Nat.strongRecOn generalizing e with
  | ind n ih =>
      rcases e.height_eq_one_or_visits with hone | ⟨x, hx, hheight⟩
      · rw [← hn, hone]
        exact .alone e
      · rw [← hn, hheight]
        exact .within hx (ih x.height (hn ▸ hx.height_lt) x rfl)

end Expr

/-! ### Heights and depths -/

namespace Grammar

/-- How much higher than twice its depth a phrase may be. -/
def Phrase.level : Phrase → Nat
  | factor => 1
  | chain .term => 2
  | chain .expression => 3

theorem Phrase.level_chain (rank : Rank) : (chain rank).level = rank.operand.level + 1 := by
  cases rank <;> rfl

variable {p : Phrase} {ts : List Token} {e : Expr} {d : Nat}

/-- **A phrase is not much higher than it is deep**, and a chain owes one of its height to being a
chain. -/
theorem Derives.height_le (h : Derives p ts e d) : e.height ≤ 2 * d + p.level ∧
    ∀ rank, p = .chain rank → e.tallest ≤ 2 * d + rank.operand.level := by
  induction h with
  | number h => exact ⟨Nat.le_refl 1, by simp⟩
  | signed h _ ih =>
      refine ⟨?_, by simp⟩
      have hoperand := ih.1
      simp only [Expr.height, Phrase.level] at hoperand ⊢
      omega
  | bracketed _ _ _ ih =>
      refine ⟨?_, by simp⟩
      -- all that an expression has in height is paid for by the brackets around it
      have hinner := ih.1
      simp only [Phrase.level] at hinner ⊢
      omega
  | @single rank _ e d _ ih =>
      refine ⟨?_, ?_⟩
      · rw [Phrase.level_chain]
        exact Nat.le_succ_of_le ih.1
      · rintro _ ⟨⟩
        exact Nat.le_trans e.tallest_le_height ih.1
  | @joined rank t op _ _ l r d d' _ _ _ ihl ihr =>
      have htallest : (Expr.joined op l r t.position).tallest ≤
          2 * max d d' + rank.operand.level := by
        have hleft := ihl.2 rank rfl
        have hright := ihr.1
        rw [Expr.tallest]
        omega
      refine ⟨?_, ?_⟩
      · rw [Phrase.level_chain, Expr.height_joined]
        omega
      · rintro _ ⟨⟩
        exact htallest

/-! ### Phrases as high as they may be -/

theorem derives_one : Derives .factor [⟨.integer, some (.int 1), Position.start⟩]
    (.literal (.int 1) Position.start) 0 := .number ⟨Or.inl rfl, rfl⟩

/-- A weakly bound operation, a tightly bound one behind it, and a factor at the end. -/
theorem Derives.exists_sum (h : Derives .factor ts e d) :
    ∃ ts' e', Derives (.chain .expression) ts' e' d ∧ e'.height = e.height + 2 := by
  have hterm : Derives (.chain .term) _ _ (max 0 d) :=
    .joined (t := ⟨.star, none, Position.start⟩) rfl (.single derives_one) h
  have hsum : Derives (.chain .expression) _ _ (max 0 (max 0 d)) :=
    .joined (t := ⟨.plus, none, Position.start⟩) rfl (.single (.single derives_one)) hterm
  rw [Nat.zero_max, Nat.zero_max] at hsum
  refine ⟨_, _, hsum, ?_⟩
  have hheight := e.one_le_height
  simp only [Expr.height, Expr.tallest]
  omega

/-- Bracket by bracket, there are expressions of all depths that are as high as they may be. -/
theorem exists_height_eq (d : Nat) :
    ∃ ts e, Derives (.chain .expression) ts e d ∧ e.height = 2 * d + 3 := by
  induction d with
  | zero => exact derives_one.exists_sum
  | succ d ih =>
      obtain ⟨ts, e, h, hheight⟩ := ih
      have hfirst : (⟨.opening, none, Position.start⟩ : Token).kind = .opening := rfl
      have hlast : (⟨.closing, none, Position.start⟩ : Token).kind = .closing := rfl
      obtain ⟨ts', e', h', hheight'⟩ := (Derives.bracketed hfirst hlast h).exists_sum
      exact ⟨ts', e', h', by omega⟩

end Grammar

namespace Expr

/-- **The limit on nesting bounds the height of a tree**, and with it the number of visits that nest
in one another whenever the tree is gone through, no matter how long its chains are.  The bound is
the best one: there are tokens whose tree is as high with every limit. -/
theorem height_within_limit (source : String) (limit : Nat) :
    (∀ tokens e, (ofTokens source limit tokens).value = .ok e →
      e.height ≤ 2 * limit + 3 ∧ ∀ n, e.Nests n → n ≤ 2 * limit + 3) ∧
    ∃ tokens e, (ofTokens source limit tokens).value = .ok e ∧ e.height = 2 * limit + 3 := by
  constructor
  · intro tokens e h
    obtain ⟨-, d, hd, hderives⟩ := ofTokens_eq_ok_iff_derives.1 h
    have hheight : e.height ≤ 2 * limit + 3 := by
      have hdeep := hderives.height_le.1
      rw [Phrase.level] at hdeep
      omega
    exact ⟨hheight, fun n hn => Nat.le_trans hn.le_height hheight⟩
  · obtain ⟨ts, e, h, hheight⟩ := exists_height_eq limit
    let mark : Token := ⟨.ending, none, Position.start⟩
    have hbefore : beforeEnd (ts ++ [mark]) = ts := beforeEnd_append_cons h.kind_ne_ending rfl
    refine ⟨(ts ++ [mark]).toArray, e, ofTokens_eq_ok_iff_derives.2 ⟨⟨mark, by simp, rfl⟩, ?_⟩,
      hheight⟩
    exact ⟨limit, Nat.le_refl _, by rwa [hbefore]⟩

/-- The tokens of `1+2*(3+4*5)`. -/
def zigzag : Array Token :=
  #[⟨.integer, some (.int 1), ⟨0, 1, 0⟩⟩, ⟨.plus, none, ⟨1, 1, 1⟩⟩,
    ⟨.integer, some (.int 2), ⟨2, 1, 2⟩⟩, ⟨.star, none, ⟨3, 1, 3⟩⟩,
    ⟨.opening, none, ⟨4, 1, 4⟩⟩, ⟨.integer, some (.int 3), ⟨5, 1, 5⟩⟩,
    ⟨.plus, none, ⟨6, 1, 6⟩⟩, ⟨.integer, some (.int 4), ⟨7, 1, 7⟩⟩,
    ⟨.star, none, ⟨8, 1, 8⟩⟩, ⟨.integer, some (.int 5), ⟨9, 1, 9⟩⟩,
    ⟨.closing, none, ⟨10, 1, 10⟩⟩, ⟨.ending, none, ⟨11, 1, 11⟩⟩]

/-- One bracket, and a tree as high as one bracket allows. -/
theorem height_within_limit_zigzag : ∃ e, (ofTokens "sums" 1 zigzag).value = .ok e ∧
    e.height = 5 ∧ e.height ≤ 2 * 1 + 3 ∧ ¬ e.Nests 6 := by
  have hread : ∃ e, (ofTokens "sums" 1 zigzag).value = .ok e ∧ e.height = 5 := by
    refine ⟨joined .add (literal (.int 1) ⟨0, 1, 0⟩)
      (joined .mul (literal (.int 2) ⟨2, 1, 2⟩)
        (joined .add (literal (.int 3) ⟨5, 1, 5⟩)
          (joined .mul (literal (.int 4) ⟨7, 1, 7⟩) (literal (.int 5) ⟨9, 1, 9⟩) ⟨8, 1, 8⟩)
          ⟨6, 1, 6⟩) ⟨3, 1, 3⟩) ⟨1, 1, 1⟩, ?_, rfl⟩
    exact ofTokens_eq_ok_iff.2 ⟨⟨11, 0, [9, 7, 5, 4, 2, 0]⟩, by decide +kernel⟩
  obtain ⟨e, he, hheight⟩ := hread
  obtain ⟨hbound, hnests⟩ := (height_within_limit "sums" 1).1 zigzag e he
  exact ⟨e, he, hheight, hbound, fun h => absurd (hnests 6 h) (by decide)⟩

end Expr

end Reckoner
