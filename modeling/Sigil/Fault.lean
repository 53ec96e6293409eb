import Sigil.Grammar.Descent.Defect

/-! # Faults

    Why a text is refused.  A `Fault` is a cause, with what its message
    has to name; the wording of messages and of advice is fixed here and
    nowhere else.  A `Refusal` is a fault at its place in the text.

    Faults belong to three stages: a text that cannot be cut into lexemes,
    lexemes that are no expression, and, among these, a connective that
    lacks an operand.  Two faults come after the reading, when an expression
    is built of what has been read: a defect, and a crash, which is no
    refusal but the end of the program.  Neither ever occurs. -/

namespace Sigil

/-! ### Limits -/

namespace Expr

/-- The deepest allowed nesting of `(` and `[`, counted together. -/
def maxNesting : Nat := 256

/-- The largest allowed number of connectives. -/
def maxConnectives : Nat := 256

end Expr

/-! ### Faults -/

/-- The stage at which a text is refused. -/
inductive Stage where
  | lexical
  | grammatical
  | semantic
  deriving DecidableEq, Repr

/-- Why a text is refused. -/
inductive Fault where
  /-- A quote without a second one after it. -/
  | unterminated (quote : Quote)
  /-- A character that begins no lexeme. -/
  | unreadable (char : Char)
  /-- A text that is not, as a whole, a symbol. -/
  | notSymbol (text : String)
  /-- Too many brackets are open at a time. -/
  | tooDeep
  | tooManyConnectives
  /-- A lexeme, or the end of the text, where something else has to stand. -/
  | unexpected (expected : List Expectation) (found : Option Lexeme)
  /-- Nothing after a connective that it could apply to. -/
  | missingOperand (connective : Connective)
  /-- Nothing before a binary connective that it could apply to. -/
  | missingLeft (connective : Connective)
  /-- Something is lacking in the trees of which an expression is built. -/
  | defect (defect : Descent.Defect)
  /-- The program ends in the building of an expression. -/
  | crash (crash : Descent.Crash)
  deriving DecidableEq

namespace Fault

def stage : Fault → Stage
  | .unterminated _ | .unreadable _ | .notSymbol _ => .lexical
  | .tooDeep | .tooManyConnectives | .unexpected .. | .defect _ | .crash _ => .grammatical
  | .missingOperand _ | .missingLeft _ => .semantic

/-- What is wrong, in a sentence. -/
def message : Fault → String
  | .unterminated _ => "unterminated string literal"
  | .unreadable c => "unrecognized character '" ++ String.singleton c ++ "'"
  | .notSymbol text => "'" ++ text ++ "' is not a valid symbol"
  | .tooDeep => s!"expression nests too deeply (limit {Expr.maxNesting})"
  | .tooManyConnectives =>
    s!"expression has too many operators (limit {Expr.maxConnectives})"
  | .unexpected expected found =>
    "expected " ++ Expectation.listing expected
      ++ ", found " ++ (found.map Lexeme.description).getD "end of input"
  | .missingOperand c =>
    "operator '" ++ c.text ++ "' is missing its "
      ++ if c.isUnary then "operand" else "right-hand operand"
  | .missingLeft c => "operator '" ++ c.text ++ "' is missing its left-hand operand"
  | .defect d => d.message
  | .crash _ => "the program ends"

/-- What to do about it, where there is something to say. -/
def advice : Fault → Option String
  | .unterminated q =>
    some ("close the literal with " ++ String.singleton q.char
      ++ "; string literals have no escapes")
  | .unreadable _ =>
    some ("expected a symbol, identifier, quoted string, one of ∴ ⇒ ≡ ∨ ∧ ⊗ ¬, "
      ++ "or one of ( ) [ ] , :")
  | .notSymbol _ => some "symbols look like ΔΕ1, ΜΑΝ12 or ΣΑ1α"
  | .tooDeep => some "remove redundant parentheses or split the expression"
  | .tooManyConnectives => some "split the expression into several shorter ones"
  | .unexpected .. | .defect _ | .crash _ => none
  | .missingOperand c =>
    some ("put a symbol call or a parenthesised expression after '" ++ c.text ++ "'")
  | .missingLeft c =>
    some ("put a symbol call or a parenthesised expression before '" ++ c.text ++ "'")

end Fault

/-- A fault at its place in the text. -/
structure Refusal where
  fault : Fault
  span : Span
  deriving DecidableEq

end Sigil
