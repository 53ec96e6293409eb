import Sigil.Fault
import Sigil.Reading

/-! # What may come next

    For every reading, the lexemes and the end that fit there, summed up as
    a message names them.  At the start of a group the three ways to begin
    an expression count as one, and so do the six binary connectives
    everywhere. -/

namespace Sigil

namespace Reading

/-- What fits after an operand, when `more` may go on with it: the end of the
text outside all groups, a closing parenthesis inside one. -/
def expectedAfterOperand (r : Reading) (more : List Expectation) : List Expectation :=
  match r.outer with
  | [] => [.endOfText, .connective] ++ more
  | _ :: _ => [.connective] ++ more ++ [.mark .closeParen]

/-- What fits next, in the order in which a message lists it. -/
def expected (r : Reading) : List Expectation :=
  match r.site with
  | .operand =>
    if r.group.negated then [.symbol, .mark .openParen]
    else if r.group.waiting.isEmpty then [.expression]
    else [.symbol, .negation, .mark .openParen]
  | .called _ => r.expectedAfterOperand [.mark .openParen]
  | .complete _ => r.expectedAfterOperand []
  | .name .. => [.identifier]
  | .named .. => [.mark .colon]
  | .value _ => [.identifier, .literal, .mark .openBracket]
  | .opened _ => [.identifier, .literal, .mark .openBracket, .mark .closeBracket]
  | .listed .. => [.mark .closeBracket, .mark .comma]
  | .filled .. => [.mark .closeParen, .mark .comma]

end Reading

end Sigil
