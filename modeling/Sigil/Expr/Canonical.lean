import Sigil.Expr

/-! # Canonical form

    An expression as a text in which the grouping is plain: every binary
    connective stands in parentheses with its operands, one blank on each
    side of it, and `¬` directly before its operand.  A `¬` under a `¬` is
    in parentheses too, because two of them cannot stand side by side. -/

namespace Sigil

namespace Arguments

/-- The arguments as they stand between the parentheses of a call, each value
written by `display`. -/
def listing (as : Arguments) (display : Value → String) : String :=
  Text.commaSeparated (as.entries.map fun e => e.1 ++ ": " ++ display e.2)

end Arguments

namespace Expr

/-- Does a connective over a single operand stand on top? -/
def isUnary : Expr → Bool
  | .unary .. => true
  | _ => false

/-- The canonical form of an expression. -/
def canonical : Expr → String
  | .call s as =>
    if as.isEmpty then s.text
    else s.text ++ "(" ++ as.listing Value.written ++ ")"
  | .binary c l r => "(" ++ l.canonical ++ " " ++ c.text ++ " " ++ r.canonical ++ ")"
  | .unary c x =>
    if x.isUnary then c.text ++ "(" ++ x.canonical ++ ")" else c.text ++ x.canonical

end Expr

end Sigil
