import Sigil.Fault

/-! # Limits on the size of an expression

    Before an expression is read its tokens are counted: at most
    `Expr.maxNesting` brackets may be open at a time, `(` and `[` counted
    together, and at most `Expr.maxConnectives` connectives may occur.  The
    first token that goes beyond a limit is the one reported.  A closing
    bracket where none is open leaves the count at zero. -/

namespace Sigil

/-- The counts over the tokens passed so far. -/
structure Tally where
  /-- Brackets open at this point. -/
  nesting : Nat
  connectives : Nat
  deriving DecidableEq, Repr

namespace Tally

/-- Nothing counted yet. -/
def zero : Tally :=
  ⟨0, 0⟩

/-- The counts after one more lexeme. -/
def add (t : Tally) : Lexeme → Tally
  | .mark .openParen | .mark .openBracket => { t with nesting := t.nesting + 1 }
  | .mark .closeParen | .mark .closeBracket => { t with nesting := t.nesting - 1 }
  | .connective _ => { t with connectives := t.connectives + 1 }
  | _ => t

/-- The limit that the counts go beyond, if they do. -/
def excess (t : Tally) : Option Fault :=
  if Expr.maxNesting < t.nesting then some .tooDeep
  else if Expr.maxConnectives < t.connectives then some .tooManyConnectives
  else none

/-- The first of `tokens` that takes the counts beyond a limit. -/
def firstExcess (t : Tally) : List Token → Option Refusal
  | [] => none
  | token :: rest =>
    let t' := t.add token.lexeme
    match t'.excess with
    | some fault => some ⟨fault, token.span⟩
    | none => t'.firstExcess rest

end Tally

end Sigil
