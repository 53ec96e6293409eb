import Sigil.Grammar.Descent
import Sigil.Text.Place

/-! # The rules over characters

    The grammar as it is written for a text, from single characters up.
    Blanks occur nowhere in it: whether they are passed over between two
    parts of a rule is a matter of the `Mode` in which the rule is read.  A
    symbol, an identifier and a quoted text are atomic, everything else may
    be spaced.

    Key definition: `Descent.Rule.pattern`. -/

namespace Sigil.Descent

/-! ### Patterns -/

/-- What a reader of characters can look for. -/
inductive Pattern where
  /-- One character of a class. -/
  | one (isIn : Char → Bool)
  /-- The start of the text. -/
  | start
  /-- The end of the text. -/
  | finish
  /-- What a rule says, and a failure of it is booked. -/
  | rule (rule : Rule)
  | seq (first second : Pattern)
  /-- The first, and the second only where the first fails. -/
  | choice (first second : Pattern)
  | optional (body : Pattern)
  /-- As many times as it fits. -/
  | many (body : Pattern)
  /-- Nothing, in a place where the body fails. -/
  | without (body : Pattern)

namespace Pattern

def char (c : Char) : Pattern :=
  .one (· == c)

/-- Any character. -/
def any : Pattern :=
  .one fun _ => true

/-! ### Tokens -/

/-- A symbol: its leading letter, up to two capitals, its digits, and the letter of a
variant. -/
def symbol : Pattern :=
  .seq (.one Symbol.isLead) <|
  .seq (.optional (.one Symbol.isCapital)) <|
  .seq (.optional (.one Symbol.isCapital)) <|
  .seq (.one Char.isDigit) <|
  .seq (.many (.one Char.isDigit)) <|
  .optional (.one Symbol.isVariant)

def identifier : Pattern :=
  .seq (.one Char.isAlpha) (.many (.choice (.one Char.isAlphanum) (.char '_')))

/-- A text between two of the quotes, in which the quote does not occur. -/
def quoted (q : Quote) : Pattern :=
  .seq (.char q.char) (.seq (.many (.seq (.without (.char q.char)) .any)) (.char q.char))

def literal : Pattern :=
  .choice (quoted .single) (quoted .double)

/-- The first of the rules that fits, `r` before the others. -/
def oneOf (r : Rule) : List Rule → Pattern
  | [] => .rule r
  | s :: rs => .choice (.rule r) (oneOf s rs)

/-- The first token of a text. -/
def token : Pattern :=
  oneOf .symbol
    ([.identifier, .literal] ++ Connective.all.map Rule.connective ++ Mark.all.map Rule.mark)

/-- A text that is a symbol and nothing else. -/
def symbolText : Pattern :=
  .seq .start (.seq (.rule .symbol) (.rule .endOfText))

/-! ### Expressions -/

/-- A binary connective. -/
def binary : Pattern :=
  oneOf (.connective .therefore)
    ([.implies, .equiv, .or, .and, .compose].map Rule.connective)

def primary : Pattern :=
  .choice (.rule .call) (.rule .group)

def operand : Pattern :=
  .seq (.optional (.rule (.connective .not))) primary

def value : Pattern :=
  .choice (.rule .list) (.choice (.rule .literal) (.rule .identifier))

/-- The pattern at least once, with commas in between. -/
def separated (item : Pattern) : Pattern :=
  .seq item (.many (.seq (.rule (.mark .comma)) item))

/-- The pattern between two marks. -/
def enclosed (left : Mark) (body : Pattern) (right : Mark) : Pattern :=
  .seq (.rule (.mark left)) (.seq body (.rule (.mark right)))

end Pattern

namespace Rule

/-- What a rule looks for in a text. -/
def pattern : Rule → Pattern
  | .endOfText => .finish
  | .symbol => .symbol
  | .identifier => .identifier
  | .literal => .literal
  | .connective c => .char c.glyph
  | .mark m => .char m.glyph
  | .input => .seq .start (.seq (.rule .expression) (.rule .endOfText))
  | .expression => .seq .operand (.many (.seq .binary .operand))
  | .group => .enclosed .openParen (.rule .expression) .closeParen
  | .call => .seq (.rule .symbol) (.optional (.rule .arguments))
  | .arguments => .enclosed .openParen (.separated (.rule .argument)) .closeParen
  | .argument => .seq (.rule .identifier) (.seq (.rule (.mark .colon)) .value)
  | .list => .enclosed .openBracket (.optional (.separated .value)) .closeBracket

/-- Is the rule about characters that stand side by side? -/
def isAtomic : Rule → Bool
  | .symbol | .identifier | .literal => true
  | _ => false

end Rule

/-! ### Modes -/

/-- How the parts of a rule follow one another. -/
inductive Mode where
  /-- Blanks between two parts are passed over. -/
  | spaced
  /-- The parts stand side by side. -/
  | tight
  /-- The parts stand side by side, and no rule in them has a tree or is booked. -/
  | atomic
  deriving DecidableEq

namespace Mode

/-- The mode in which a rule is read that is met in the mode `m`. -/
def inside (m : Mode) (r : Rule) : Mode :=
  if r.isAtomic then .atomic else m

/-- The place behind what is passed over between two parts. -/
def skip (m : Mode) (p : Text.Place) : Text.Place :=
  match m with
  | .spaced => p.skipBlanks
  | .tight | .atomic => p

theorem left_skip_le (m : Mode) (p : Text.Place) : (m.skip p).left ≤ p.left := by
  cases m with
  | spaced => exact p.left_skipBlanks_le
  | tight | atomic => exact Nat.le_refl _

end Mode

end Sigil.Descent
