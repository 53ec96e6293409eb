import Sigil.Grammar.Descent.Build
import Sigil.Grammar.Descent.Read
import Sigil.Token.Limit
import Sigil.Token.Scan
import Sigil.Token.Stop

/-! # From text to expression

    A text is read in passes, and the first fault is the one reported: it is
    cut into tokens, the tokens are counted against the limits, and then the
    text is read once more by going down the rules of the grammar.  Of what
    is found there an expression is built.  What is not found is refused
    between two of the tokens, those around the furthest byte at which a
    rule has failed.

    Key definition: `Expr.parse`. -/

namespace Sigil

/-! ### Refusals -/

namespace Refusal

/-- The number of tokens before a place in bytes.  A token that ends behind the place is not
before it. -/
def indexAt (tokens : List Token) (place : Nat) : Nat :=
  tokens.findIdx fun t => place < t.span.stop

/-- Why a text of `length` bytes with these tokens is refused, when the reader has failed
with the book. -/
def ofFailure (length : Nat) (tokens : List Token) (b : Descent.Book) : Refusal :=
  let index := indexAt tokens (length - b.left)
  .between length (tokens.take index).getLast? tokens[index]? b.expected

/-- Why it is refused when the reader has given up with the book.  A reader without a limit
on the rules that it tries never comes to this. -/
def ofGivingUp (length : Nat) (tokens : List Token) (b : Descent.Book) : Refusal :=
  let place := length - b.left
  ⟨.tooDeep, (tokens[indexAt tokens place]?.map (·.span)).getD (.point place)⟩

end Refusal

/-! ### Parsing -/

/-- What has been built, when nothing crashed. -/
def Descent.Build.outcome {α : Type} (built : Build α) : Except Refusal α :=
  match built.run with
  | .ok result => result
  | .error crash => .error ⟨.crash crash, .point 0⟩

namespace Expr

/-- The expression that the reader has found in a text of `length` bytes with these tokens. -/
def ofFinding (length : Nat) (tokens : List Token) : Descent.Finding → Except Refusal Expr
  | .found trees _ _ => (Descent.build trees).outcome
  | .failed b => .error (.ofFailure length tokens b)
  | .gaveUp b => .error (.ofGivingUp length tokens b)

/-- Read a text as an expression. -/
def parse (text : String) : Except Refusal Expr := do
  let tokens ← Token.readAll text
  match Tally.zero.firstExcess tokens with
  | some refusal => .error refusal
  | none => ofFinding (Text.width text.toList) tokens (Descent.read text)

end Expr

namespace Symbol

/-- Read a text as a symbol, and nothing but a symbol. -/
def parse (text : String) : Except Refusal Symbol :=
  match parse? text with
  | some s => .ok s
  | none => .error ⟨.notSymbol text, ⟨0, Text.width text.toList⟩⟩

end Symbol

end Sigil
