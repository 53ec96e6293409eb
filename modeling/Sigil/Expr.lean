import Sigil.Arguments
import Sigil.Connective
import Sigil.Symbol

/-! # Expressions

    An expression is a symbol with its arguments, or one or two
    expressions under a connective.  Any connective may stand over one or
    two operands here; the expressions that can be read have `¬` over one
    operand and the other connectives over two. -/

namespace Sigil

/-- An expression. -/
inductive Expr where
  /-- A symbol with its arguments. -/
  | call (symbol : Symbol) (arguments : Arguments)
  /-- Two expressions joined by a connective. -/
  | binary (connective : Connective) (left right : Expr)
  /-- An expression under a connective. -/
  | unary (connective : Connective) (operand : Expr)
  deriving DecidableEq

namespace Expr

/-- The name of an expression's form. -/
def form : Expr → String
  | .call .. => "symbol_call"
  | .binary .. => "operation"
  | .unary .. => "unary_operation"

/-- The height of the expression; a call has height 1. -/
def depth : Expr → Nat
  | .call .. => 1
  | .binary _ l r => 1 + max l.depth r.depth
  | .unary _ x => 1 + x.depth

/-- The symbols from left to right. -/
def symbols : Expr → List Symbol
  | .call s _ => [s]
  | .binary _ l r => l.symbols ++ r.symbols
  | .unary _ x => x.symbols

/-- The connectives from left to right: one over two operands stands
between them, one over a single operand before it. -/
def connectives : Expr → List Connective
  | .call .. => []
  | .binary c l r => l.connectives ++ c :: r.connectives
  | .unary c x => c :: x.connectives

/-- Are two expressions the same, up to the order of arguments? -/
def same : Expr → Expr → Bool
  | .call s as, .call t bs => s == t && as.same bs
  | .binary c l r, .binary d l' r' => c == d && l.same l' && r.same r'
  | .unary c x, .unary d y => c == d && x.same y
  | _, _ => false

/-- An expression is at most one higher than it has connectives. -/
theorem depth_le_length_connectives (e : Expr) :
    e.depth ≤ e.connectives.length + 1 := by
  induction e with
  | call => exact Nat.le_refl _
  | binary c l r ihl ihr =>
    simp only [depth, connectives, List.length_append, List.length_cons]
    omega
  | unary c x ih =>
    simp only [depth, connectives, List.length_cons]
    omega

end Expr

end Sigil
