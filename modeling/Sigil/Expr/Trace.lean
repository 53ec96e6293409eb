import Sigil.Expr.Canonical

/-! # Traces

    A trace says in words what an expression would do.  Nothing is
    evaluated: the trace is read off the expression, from the outside in
    and from left to right. -/

namespace Sigil

namespace Expr

/-- The trace of an expression. -/
def trace : Expr → String
  | .call s as =>
    if as.isEmpty then "Executed symbol: " ++ s.text
    else "Executed function: " ++ s.text ++ "(" ++ as.listing Value.plain ++ ")"
  | .binary c l r =>
    "Executed operation: " ++ c.text ++ " on " ++ l.trace ++ " and " ++ r.trace
  | .unary c x => "Executed operation: " ++ c.text ++ " on " ++ x.trace

/-! The trace of an expression from those of its operands. -/

theorem trace_symbol (s : Symbol) {as : Arguments} (h : as.isEmpty = true) :
    trace (.call s as) = "Executed symbol: " ++ s.text :=
  if_pos h

theorem trace_function (s : Symbol) {as : Arguments} (h : as.isEmpty = false) :
    trace (.call s as)
      = "Executed function: " ++ s.text ++ "(" ++ as.listing Value.plain ++ ")" :=
  if_neg (Bool.eq_false_iff.1 h)

theorem trace_binary (c : Connective) (l r : Expr) :
    trace (.binary c l r)
      = "Executed operation: " ++ c.text ++ " on " ++ l.trace ++ " and " ++ r.trace := rfl

theorem trace_unary (c : Connective) (x : Expr) :
    trace (.unary c x) = "Executed operation: " ++ c.text ++ " on " ++ x.trace := rfl

end Expr

end Sigil
