import Mathlib.Data.List.Forall2
import Sigil.Grammar.Descent.Build
import Sigil.Proofs.Climbing

/-! # Folding comes to an end

    The trees in an expression are a row in which operands and connectives
    alternate, as the grammar has them.  On such a row the climbing over
    trees does what the climbing over items does, and meets none of the
    parts on which it would crash.  All of the row is used up.

    Key theorem: `Descent.fold_of_starts`. -/

namespace Sigil.Descent

open Grammar

/-! ### The table -/

/-- The table has the power of each connective. -/
theorem lookup_connective (c : Connective) :
    table.lookup (.connective c) = some (c.grouping, c.power) := by
  cases c <;> decide

theorem lookup_call : table.lookup .call = none := by
  decide

theorem lookup_group : table.lookup .group = none := by
  decide

/-! ### Parts and items -/

/-- The part stands for the item: it is a connective, or the operand is built of it. -/
inductive Stands : Part → Item → Prop where
  | operand {part : Part} {x : Expr} (outside : table.lookup part.tree.rule = none)
      (built : part.operand = pure x) : Stands part (.operand x)
  | sign {part : Part} {c : Connective} (rule : part.tree.rule = .connective c) :
      Stands part (.sign c)

theorem under_of_rule {t : Tree} {c : Connective} (h : t.rule = .connective c) (x : Expr) :
    t.under (.ok x) = .ok (.unary c x) := by
  rw [Tree.under, Tree.connective, h]
  rfl

theorem between_of_rule {t : Tree} {c : Connective} (h : t.rule = .connective c) (x y : Expr) :
    t.between (.ok x) (.ok y) = .ok (.binary c x y) := by
  rw [Tree.between, Tree.connective, h]
  rfl

/-! ### Climbing -/

/-- Climbing comes to an expression and a rest of parts.  The same comes of the items that
the parts stand for, and their rest is a row again, before which the climb ends. -/
def Reaches (bound : Nat) (climbs : Expr → List Item → Prop) {n : Nat}
    (result : Except Crash (Climbed n)) : Prop :=
  ∃ y rest parts le, result = .ok ⟨.ok y, parts, le⟩ ∧ climbs y rest ∧
    List.Forall₂ Stands parts rest ∧ (∃ ms, Continues rest ms) ∧ Stopped bound rest

/-- Climbing over parts does what climbing over the items does, in rows of up to `n`
items. -/
def ClimbsAlike (n : Nat) : Prop :=
  ∀ (bound : Nat) {items : List Item} {parts : List Part} {ls : List Lexeme}, items.length ≤ n →
    Starts items ls → List.Forall₂ Stands parts items →
    Reaches bound (Climbs bound items) (climb bound parts)

/-- Going on over parts does what going on over the items does, in rows of up to `n`
items. -/
def ExtendsAlike (n : Nat) : Prop :=
  ∀ (bound : Nat) (x : Expr) {items : List Item} {parts : List Part} {ls : List Lexeme},
    items.length ≤ n → Continues items ls → List.Forall₂ Stands parts items →
    Reaches bound (Extends bound x items) (extend bound (.ok x) parts)

section Steps

variable {n bound : Nat} {x : Expr} {c : Connective} {part : Part} {items : List Item}
  {parts : List Part} {ls : List Lexeme}

/-- What climbing leaves of a row is no longer than the row. -/
theorem length_le_of_stand {middle : List Item} {parts' : List Part} (hn : items.length ≤ n)
    (hparts : List.Forall₂ Stands parts items) (hmiddle : List.Forall₂ Stands parts' middle)
    (short : parts'.length ≤ parts.length - 1) : middle.length ≤ n := by
  have hlength := hparts.length_eq
  have hlength' := hmiddle.length_eq
  omega

/-- An operand is taken, and what binds it. -/
theorem reaches_operand (hextends : ExtendsAlike n) (hn : items.length ≤ n)
    (hrow : Continues items ls) (hpart : Stands part (.operand x))
    (hparts : List.Forall₂ Stands parts items) :
    Reaches bound (Climbs bound (.operand x :: items)) (climb bound (part :: parts)) := by
  cases hpart with
  | operand outside built =>
    obtain ⟨y, rest, parts', le, hextend, hmore, hrest, hrow', hstop⟩ :=
      hextends bound x hn hrow hparts
    refine ⟨y, rest, parts', le, ?_, .operand hmore, hrest, hrow', hstop⟩
    rw [climb, outside, built]
    show (extend bound (.ok x) parts >>= _) = _
    rw [hextend]
    rfl

/-- A `¬` is taken with the operand behind it, and what binds the two. -/
theorem reaches_negation (hclimbs : ClimbsAlike n) (hextends : ExtendsAlike n)
    (hn : items.length ≤ n) (hrow : Starts items ls) (hpart : Stands part (.sign .not))
    (hparts : List.Forall₂ Stands parts items) :
    Reaches bound (Climbs bound (.sign .not :: items)) (climb bound (part :: parts)) := by
  cases hpart with
  | sign rule =>
    obtain ⟨y, middle, parts', short, hclimb, hoperand, hmiddle, ⟨ms, hrow'⟩, -⟩ :=
      hclimbs Connective.not.bound hn hrow hparts
    -- what the operand leaves is no longer than the row, so going on from it is settled too
    have hlength := length_le_of_stand hn hparts hmiddle short
    obtain ⟨z, rest, parts'', le, hextend, hmore, hrest, hrow'', hstop⟩ :=
      hextends bound (.unary .not y) hlength hrow' hmiddle
    refine ⟨z, rest, parts'', by rw [List.length_cons]; omega, ?_, .sign rfl hoperand hmore, hrest,
      hrow'', hstop⟩
    rw [climb, rule, lookup_connective]
    show (climb Connective.not.bound parts >>= _) = _
    rw [hclimb]
    show (extend bound (part.tree.under (.ok y)) parts' >>= _) = _
    rw [under_of_rule rule, hextend]
    rfl

/-- A binary connective that gets through the bound is taken with what is climbed behind it. -/
theorem reaches_binary (hclimbs : ClimbsAlike n) (hextends : ExtendsAlike n)
    (hn : items.length ≤ n) (hbinary : c.isUnary = false) (hstrong : bound < c.power)
    (hrow : Starts items ls) (hpart : Stands part (.sign c))
    (hparts : List.Forall₂ Stands parts items) :
    Reaches bound (Extends bound x (.sign c :: items)) (extend bound (.ok x) (part :: parts)) := by
  cases hpart with
  | sign rule =>
    obtain ⟨y, middle, parts', short, hclimb, hoperand, hmiddle, ⟨ms, hrow'⟩, -⟩ :=
      hclimbs c.bound hn hrow hparts
    have hlength := length_le_of_stand hn hparts hmiddle short
    obtain ⟨z, rest, parts'', le, hextend, hmore, hrest, hrow'', hstop⟩ :=
      hextends bound (.binary c x y) hlength hrow' hmiddle
    refine ⟨z, rest, parts'', by rw [List.length_cons]; omega, ?_,
      .go hstrong hbinary hoperand hmore, hrest, hrow'', hstop⟩
    rw [extend, rule, lookup_connective]
    show (if bound < c.power then _ else _) = _
    rw [if_pos hstrong]
    -- the bound behind the connective is the one that its side sets
    cases hside : c.grouping with
    | leading => rw [Connective.isUnary, hside] at hbinary; cases hbinary
    | left =>
      rw [Connective.bound, hside] at hclimb
      show (climb c.power parts >>= _) = _
      rw [hclimb]
      show (extend bound (part.tree.between (.ok x) (.ok y)) parts' >>= _) = _
      rw [between_of_rule rule, hextend]
      rfl
    | right =>
      rw [Connective.bound, hside] at hclimb
      show (climb (c.power - 1) parts >>= _) = _
      rw [hclimb]
      show (extend bound (part.tree.between (.ok x) (.ok y)) parts' >>= _) = _
      rw [between_of_rule rule, hextend]
      rfl

/-- A connective that does not get through the bound is left where it is. -/
theorem reaches_stop (hweak : c.power ≤ bound) (hrow : Continues (.sign c :: items) ls)
    (hpart : Stands part (.sign c)) (hparts : List.Forall₂ Stands parts items) :
    Reaches bound (Extends bound x (.sign c :: items)) (extend bound (.ok x) (part :: parts)) := by
  refine ⟨x, .sign c :: items, part :: parts, Nat.le_refl _, ?_, .stop hweak, .cons hpart hparts,
    ⟨ls, hrow⟩, ?_⟩
  · cases hpart with
    | sign rule =>
      rw [extend, rule, lookup_connective]
      exact if_neg (Nat.not_lt.2 hweak)
  · intro d rest h
    cases h
    exact hweak

/-- At the end of the row nothing is left to climb. -/
theorem reaches_end : Reaches bound (Extends bound x []) (extend bound (.ok x) []) := by
  refine ⟨x, [], [], Nat.le_refl _, ?_, .done, .nil, ⟨[], .nil⟩, ?_⟩
  · rw [extend]
  · intro c rest h
    cases h

end Steps

/-- Climbing over parts does what climbing over the items does that they stand for. -/
theorem climbs_alike (n : Nat) : ClimbsAlike n ∧ ExtendsAlike n := by
  -- both at once, by the length of the row, since each goes on with a rest of the other
  induction n with
  | zero =>
    constructor
    · intro bound items parts ls hn hrow
      obtain rfl : items = [] := List.length_eq_zero_iff.1 (Nat.le_zero.1 hn)
      cases hrow
    · intro bound x items parts ls hn hrow hparts
      obtain rfl : items = [] := List.length_eq_zero_iff.1 (Nat.le_zero.1 hn)
      cases hparts
      exact reaches_end
  | succ n ih =>
    obtain ⟨hclimbs, hextends⟩ := ih
    constructor
    · intro bound items parts ls hn hrow hparts
      cases hparts with
      | nil => cases hrow
      | cons hpart hparts =>
        have hshorter := Nat.le_of_succ_le_succ hn
        cases hrow with
        | plain operand tail => exact reaches_operand hextends hshorter tail hpart hparts
        | negated operand tail =>
          exact reaches_negation hclimbs hextends hshorter (.plain operand tail) hpart hparts
    · intro bound x items parts ls hn hrow hparts
      cases hparts with
      | nil => exact reaches_end
      | cons hpart hparts =>
        have hshorter := Nat.le_of_succ_le_succ hn
        cases hrow with
        | @cons c items ms binary rest =>
          by_cases hstrong : bound < c.power
          · exact reaches_binary hclimbs hextends hshorter binary hstrong rest hpart hparts
          · exact reaches_stop (Nat.not_lt.1 hstrong) (.cons binary rest) hpart hparts

/-- Parts that stand for the items of a row fold to what the row climbs to. -/
theorem fold_of_starts {items : List Item} {parts : List Part} {ls : List Lexeme}
    (hrow : Starts items ls) (hparts : List.Forall₂ Stands parts items) :
    ∃ x, fold parts = pure x ∧ Climbs 0 items x [] := by
  obtain ⟨x, rest, parts', le, hclimb, hclimbs, hrest, ⟨ms, hrow'⟩, hstop⟩ :=
    (climbs_alike items.length).1 0 (Nat.le_refl _) hrow hparts
  -- every connective gets through the bound 0
  cases hrow' with
  | nil =>
    refine ⟨x, ?_, hclimbs⟩
    rw [fold, hclimb]
    rfl
  | @cons c items ms binary rest =>
    have hpower := hstop c items rfl
    have hrank := c.rank_pos
    rw [Connective.power] at hpower
    omega

end Sigil.Descent
