import Sigil.Reading.Expected
import Sigil.Token.Limit
import Sigil.Token.Stop

/-! # From tokens to expression

    Tokens can be read as an expression without another look at their text:
    they are counted against the limits, and then a `Reading` goes over them
    for as long as they fit.

    Key definition: `Expr.ofTokens`. -/

namespace Sigil

namespace Reading.Halt

/-- Why the reading came to its end, in a text of `length` bytes. -/
def refusal (h : Halt) (length : Nat) : Refusal :=
  .between length h.passed.getLast? h.rest.head? h.reading.expected

/-- The expression, if all tokens fitted and the text may end after them. -/
def result? (h : Halt) : Option Expr :=
  if h.rest.isEmpty then h.reading.result? else none

end Reading.Halt

/-- Read tokens of a text of `length` bytes as an expression. -/
def Expr.ofTokens (length : Nat) (tokens : List Token) : Except Refusal Expr :=
  match Tally.zero.firstExcess tokens with
  | some refusal => .error refusal
  | none =>
    let halt := Reading.start.run tokens
    match halt.result? with
    | some x => .ok x
    | none => .error (halt.refusal length)

end Sigil
