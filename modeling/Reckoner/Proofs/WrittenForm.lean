/-
**The written form of a tree is the nested one, and its brackets match.**

A chain of operations is written without nesting along its left operands: first all of its brackets,
then its first operand, and then one operation after the other from the innermost one on, each with
its right operand and the bracket that closes it.  Only operands are written on their own.

This module shows that the text is nevertheless the one that is read off the tree: a number as it
is written by itself, and a sign or an operation in a pair of brackets, around its operands written
in the same way.  Since no number has a bracket in it, not even one that is negative or not finite,
the brackets of a tree are those of its signs and operations, one pair for each, and every pair is
closed behind the operands of its node.

Main definitions:

* `Reckoner.Expr.first`, `Reckoner.Expr.links` — the first operand of a chain, and the operations
  that follow it;
* `Reckoner.Expr.operators` — the number of signs and operations of a tree;
* `Reckoner.Balanced` — the texts whose brackets match.

Main results:

* `Reckoner.Expr.write_along` — a chain is written along its links;
* `Reckoner.Expr.balanced_written`, `Reckoner.Expr.count_written` — the brackets of the nested form
  match, one pair for each operator;
* `Reckoner.Expr.text_nested` — **the written form of a tree is the nested one**.
-/

import Reckoner.Proofs.ReadBack
import Reckoner.Proofs.SignChains

set_option relaxedAutoImplicit false
set_option autoImplicit false

namespace Reckoner

namespace Expr

/-! ### Chains -/

/-- The first operand of a chain: the first node down the left operands that is no operation. -/
def first : Expr → Expr
  | literal value p => literal value p
  | signed sign operand p => signed sign operand p
  | joined _ left _ _ => left.first

/-- The operations of a chain with their right operands, the innermost one first. -/
def links : Expr → List (Operation × Expr)
  | literal _ _ => []
  | signed _ _ _ => []
  | joined op left right _ => left.links ++ [(op, right)]

/-- What is written for a link of a chain behind all that it is joined to. -/
def writeLink (link : Operation × Expr) : List Char :=
  ' ' :: link.1.symbol :: ' ' :: (link.2.chars ++ [')'])

/-- What is written on its own is written the same anywhere. -/
theorem write_eq_chars (e : Expr) (opened : Nat) (after : List Char) :
    e.write opened after = List.replicate opened '(' ++ (e.chars ++ after) := by
  rw [write_eq, chars_eq_written, List.append_assoc]

/-- **A chain is written along its links**: its brackets, its first operand, and then link by
link. -/
theorem write_along (e : Expr) : ∀ (opened : Nat) (after : List Char), e.write opened after =
    List.replicate (opened + e.links.length) '(' ++
      (e.first.chars ++ (e.links.flatMap writeLink ++ after)) := by
  induction e with
  | literal value p =>
      intro opened after
      exact write_eq_chars _ opened after
  | signed sign operand p _ =>
      intro opened after
      exact write_eq_chars _ opened after
  | joined op left right p ihl _ =>
      intro opened after
      have hcount : opened + 1 + left.links.length =
          opened + (joined op left right p).links.length := by
        rw [links, List.length_append, List.length_singleton]
        omega
      rw [write, ihl, hcount, write_eq_chars right]
      simp [links, first, writeLink]

theorem chars_along (e : Expr) : e.chars =
    List.replicate e.links.length '(' ++ (e.first.chars ++ e.links.flatMap writeLink) := by
  have halong := write_along e 0 []
  rwa [Nat.zero_add, List.append_nil] at halong

/-- The number of signs and operations of a tree. -/
def operators : Expr → Nat
  | literal _ _ => 0
  | signed _ operand _ => operand.operators + 1
  | joined _ left right _ => left.operators + right.operators + 1

end Expr

/-! ### Brackets that match -/

/-- The brackets of the text match: it closes all that it opens, and none before it is opened. -/
structure Balanced (text : List Char) : Prop where
  closes : text.count '(' = text.count ')'
  opensFirst : ∀ before, before <+: text → before.count ')' ≤ before.count '('

section Balanced

variable {text text' : List Char}

theorem balanced_of_not_mem (hopening : '(' ∉ text) (hclosing : ')' ∉ text) : Balanced text where
  closes := by
    rw [List.count_eq_zero_of_not_mem hopening, List.count_eq_zero_of_not_mem hclosing]
  opensFirst := by
    intro before hbefore
    rw [List.count_eq_zero_of_not_mem fun hmem => hclosing (hbefore.subset hmem)]
    exact Nat.zero_le _

theorem Balanced.append (h : Balanced text) (h' : Balanced text') : Balanced (text ++ text') where
  closes := by
    rw [List.count_append, List.count_append, h.closes, h'.closes]
  opensFirst := by
    intro before hbefore
    obtain ⟨rest, hrest⟩ := hbefore
    rcases List.append_eq_append_iff.1 hrest with ⟨more, rfl, -⟩ | ⟨more, rfl, rfl⟩
    · exact h.opensFirst before (List.prefix_append before more)
    · have hle := h'.opensFirst more (List.prefix_append more rest)
      rw [List.count_append, List.count_append, h.closes]
      exact Nat.add_le_add_left hle _

/-- A text in a pair of brackets, if its own match, is enclosed in that pair. -/
theorem Balanced.enclosed (h : Balanced text) : Enclosed ('(' :: (text ++ [')'])) :=
  ⟨text, rfl, h.closes, h.opensFirst⟩

/-- The brackets of an enclosed text match. -/
theorem Enclosed.balanced (h : Enclosed text) : Balanced text := by
  obtain ⟨inner, rfl, hcloses, hopens⟩ := h
  constructor
  · simp [hcloses]
  · intro before hbefore
    rcases List.prefix_cons_iff.1 hbefore with rfl | ⟨start, rfl, hstart⟩
    · exact Nat.le_refl 0
    · rcases List.prefix_concat_iff.1 hstart with rfl | hinner
      · simp [hcloses]
      · have hle := hopens start hinner
        simp only [List.count_cons_self, List.count_cons_of_ne (show '(' ≠ ')' by decide)]
        omega

end Balanced

/-! ### Brackets of trees -/

namespace Number

theorem opening_not_mem_chars (v : Number) : '(' ∉ v.chars := not_mem_chars rfl (by decide) v

theorem closing_not_mem_chars (v : Number) : ')' ∉ v.chars := not_mem_chars rfl (by decide) v

end Number

namespace Expr

theorem balanced_symbol (op : Operation) : Balanced [' ', op.symbol, ' '] := by
  cases op <;> exact balanced_of_not_mem (by decide) (by decide)

theorem balanced_sign (sign : Sign) : Balanced [sign.symbol] := by
  cases sign <;> exact balanced_of_not_mem (by decide) (by decide)

/-- A sign or an operation is enclosed with its operands, if the brackets of these match. -/
theorem enclosed_signed {sign : Sign} {operand : Expr} {p : Position}
    (h : Balanced operand.written) : Enclosed (signed sign operand p).written :=
  ((balanced_sign sign).append h).enclosed

theorem enclosed_joined {op : Operation} {left right : Expr} {p : Position}
    (hl : Balanced left.written) (hr : Balanced right.written) :
    Enclosed (joined op left right p).written := by
  have hinner := (hl.append ((balanced_symbol op).append hr)).enclosed
  simpa [written] using hinner

/-- **The brackets of the nested form match.** -/
theorem balanced_written (e : Expr) : Balanced e.written := by
  induction e with
  | literal value p =>
      exact balanced_of_not_mem value.opening_not_mem_chars value.closing_not_mem_chars
  | signed sign operand p ih => exact (enclosed_signed ih).balanced
  | joined op left right p ihl ihr => exact (enclosed_joined ihl ihr).balanced

/-- **It has one pair of brackets for each sign and each operation.** -/
theorem count_written (e : Expr) : e.written.count '(' = e.operators := by
  induction e with
  | literal value p => exact List.count_eq_zero_of_not_mem value.opening_not_mem_chars
  | signed sign operand p ih => cases sign <;> simp [written, operators, Sign.symbol, ih]
  | joined op left right p ihl ihr =>
      cases op <;> simp [written, operators, Operation.symbol, ihl, ihr]

/-- A tree that is more than a number is enclosed in the brackets of its root. -/
theorem enclosed_written (e : Expr) (h : 0 < e.operators) : Enclosed e.written := by
  cases e with
  | literal value p => exact absurd h (Nat.lt_irrefl 0)
  | signed sign operand p => exact enclosed_signed operand.balanced_written
  | joined op left right p => exact enclosed_joined left.balanced_written right.balanced_written

/-- **The written form of a tree is the nested one**, though a chain is written along its links.
Whatever numbers the tree holds, it has as many opening and closing brackets as signs and
operations, closes none before it is opened, and is enclosed in a pair of them unless it is a
number. -/
theorem text_nested (e : Expr) :
    e.text = String.ofList e.written ∧
    e.chars = List.replicate e.links.length '(' ++ (e.first.chars ++ e.links.flatMap writeLink) ∧
    e.chars.count '(' = e.operators ∧ e.chars.count ')' = e.operators ∧
    (∀ before, before <+: e.chars → before.count ')' ≤ before.count '(') ∧
    (0 < e.operators → Enclosed e.chars) := by
  have hbalanced := e.balanced_written
  refine ⟨?_, e.chars_along, ?_⟩
  · rw [text, chars_eq_written]
  · rw [chars_eq_written, ← hbalanced.closes]
    exact ⟨e.count_written, e.count_written, hbalanced.opensFirst, e.enclosed_written⟩

/-- A chain of two operations on a negative integer, negative infinity, and the sign of what is not
a number. -/
def unruly : Expr :=
  joined .sub
    (joined .add (literal (.int (-1)) ⟨0, 1, 0⟩)
      (literal (.float (Float.ofBits 0xFFF0000000000000)) ⟨5, 1, 5⟩) ⟨3, 1, 3⟩)
    (signed .minus (literal (.float (Float.ofBits 0x7FF8000000000000)) ⟨13, 1, 13⟩) ⟨12, 1, 12⟩)
    ⟨10, 1, 10⟩

/-- The numbers bring no brackets, and three operators bring one pair each. -/
theorem text_nested_unruly :
    unruly.text = "((-1 + -inf) - (-NaN))" ∧ unruly.text = String.ofList unruly.written ∧
    unruly.chars.count '(' = 3 ∧ unruly.chars.count ')' = 3 ∧
    0 < unruly.operators ∧ Enclosed unruly.chars := by
  obtain ⟨htext, -, hopening, hclosing, -, henclosed⟩ := text_nested unruly
  have hsome : 0 < unruly.operators := by decide
  exact ⟨by decide +kernel, htext, hopening, hclosing, hsome, henclosed hsome⟩

end Expr

end Reckoner
