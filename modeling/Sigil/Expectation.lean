import Sigil.Text.Listing
import Sigil.Token

/-! # Expectations

    What could stand at a place of a text, in the words of a message.  The
    wording is fixed here and nowhere else. -/

namespace Sigil

/-- What could stand at a place of a text.  `expression` sums up the ways in
which an expression can begin, and `connective` the six binary ones; `other` is
what has no name of its own. -/
inductive Expectation where
  | endOfText
  | expression
  | symbol
  | negation
  | connective
  | identifier
  | literal
  | argument
  | mark (mark : Mark)
  | other
  deriving DecidableEq

namespace Expectation

/-- An expectation in the words of a message. -/
def description : Expectation → String
  | .endOfText => "end of input"
  | .expression => "expression"
  | .symbol => "symbol"
  | .negation => "'" ++ Connective.not.text ++ "'"
  | .connective => "operator"
  | .identifier => "identifier"
  | .literal => "string literal"
  | .argument => "parameter"
  | .mark m => "'" ++ String.singleton m.glyph ++ "'"
  | .other => "token"

/-- Expectations as a message lists them. -/
def listing : List Expectation → String
  | [] => "a different token"
  | expected => Text.alternatives (expected.map description)

end Expectation

end Sigil
