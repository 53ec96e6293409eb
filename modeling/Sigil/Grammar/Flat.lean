import Sigil.Grammar

/-! # The flat grammar

    A second account of expressions.  Here a group is a flat row: operands,
    each perhaps after a `¬`, with binary connectives between them.  The
    grammar says nothing about grouping; the row is folded afterwards by
    climbing.

    Each connective has a binding power.  Climbing under a bound takes an
    operand and goes on as long as the next connective binds more strongly
    than the bound; what stands right of a connective is climbed under the
    bound that the connective sets.

    Key definitions: `Grammar.Climbs`, `Grammar.FlatSentence`. -/

namespace Sigil

namespace Connective

/-- How strongly the connective binds; there is room between two ranks. -/
def power (c : Connective) : Nat :=
  10 * c.rank

/-- The bound that the connective sets for what stands right of it.  One that
groups to the left stops at its own like. -/
def bound (c : Connective) : Nat :=
  match c.grouping with
  | .left => c.power
  | .right | .leading => c.power - 1

end Connective

namespace Grammar

/-! ### Climbing -/

/-- A part of a flat row. -/
inductive Item where
  | operand (x : Expr)
  | sign (c : Connective)

mutual

/-- Climbing under `bound` makes `x` of the head of a row, and leaves a rest. -/
inductive Climbs : (bound : Nat) → List Item → (x : Expr) → List Item → Prop where
  | operand {bound : Nat} {x y : Expr} {items rest : List Item}
      (more : Extends bound x items y rest) : Climbs bound (.operand x :: items) y rest
  | sign {bound : Nat} {c : Connective} {x y : Expr} {items middle rest : List Item}
      (side : c.grouping = .leading) (operand : Climbs c.bound items x middle)
      (more : Extends bound (.unary c x) middle y rest) :
      Climbs bound (.sign c :: items) y rest

/-- With `x` before the row, climbing under `bound` makes `y`, and leaves a
rest. -/
inductive Extends : (bound : Nat) → (x : Expr) → List Item → (y : Expr) → List Item → Prop where
  | done {bound : Nat} {x : Expr} : Extends bound x [] x []
  | stop {bound : Nat} {x : Expr} {c : Connective} {items : List Item}
      (weak : c.power ≤ bound) : Extends bound x (.sign c :: items) x (.sign c :: items)
  | go {bound : Nat} {c : Connective} {x y z : Expr} {items middle rest : List Item}
      (strong : bound < c.power) (binary : c.isUnary = false)
      (operand : Climbs c.bound items y middle)
      (more : Extends bound (.binary c x y) middle z rest) :
      Extends bound x (.sign c :: items) z rest

end

/-! ### Rows -/

mutual

/-- The lexemes are a symbol with or without arguments, or a group. -/
inductive IsPrimary : List Lexeme → Expr → Prop where
  | symbol (s : Symbol) : IsPrimary [.symbol s] (.call s .empty)
  | call (s : Symbol) {ls : List Lexeme} {entries : List (String × Value)}
      (arguments : AreArguments ls entries) :
      IsPrimary (.symbol s :: .mark .openParen :: (ls ++ [.mark .closeParen]))
        (.call s (.ofList entries))
  | group {ls : List Lexeme} {items : List Item} {x : Expr} (inner : IsRow ls items)
      (climbs : Climbs 0 items x []) :
      IsPrimary (.mark .openParen :: (ls ++ [.mark .closeParen])) x

/-- The lexemes are an operand, perhaps after a `¬`. -/
inductive IsOperand : List Lexeme → List Item → Prop where
  | plain {ls : List Lexeme} {x : Expr} (primary : IsPrimary ls x) : IsOperand ls [.operand x]
  | negated {ls : List Lexeme} {x : Expr} (primary : IsPrimary ls x) :
      IsOperand (.connective .not :: ls) [.sign .not, .operand x]

/-- The lexemes are operands with binary connectives between them. -/
inductive IsRow : List Lexeme → List Item → Prop where
  | one {ls : List Lexeme} {items : List Item} (operand : IsOperand ls items) : IsRow ls items
  | cons {ls ms : List Lexeme} {items more : List Item} {c : Connective}
      (operand : IsOperand ls items) (binary : c.isUnary = false) (rest : IsRow ms more) :
      IsRow (ls ++ .connective c :: ms) (items ++ .sign c :: more)

end

/-- The lexemes are a flat row that folds to `x`. -/
def FlatSentence (lexemes : List Lexeme) (x : Expr) : Prop :=
  ∃ items, IsRow lexemes items ∧ Climbs 0 items x []

end Grammar

end Sigil
