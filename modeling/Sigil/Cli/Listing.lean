import Sigil.Cli.Run

/-! # What a line of the listing tells

    The other side of the listing of tokens, when it has no colors.  A line
    has three columns: the class in a fixed width, the text, and behind the
    last two blanks the span.  The text may hold blanks of its own, so that
    the line is read from both ends.

    Key definitions: `Cli.Listed`, `Cli.Listed.ofLine?`. -/

namespace Sigil

/-- The span that is written as `start..stop`. -/
def Span.ofText? (s : String) : Option Span :=
  match s.toList.dropWhile Char.isDigit with
  | '.' :: '.' :: stop =>
    if stop.all Char.isDigit then
      some ⟨Nat.ofDigitChars 10 (s.toList.takeWhile Char.isDigit) 0, Nat.ofDigitChars 10 stop 0⟩
    else none
  | _ => none

namespace Cli

/-- What the listing says of a token. -/
structure Listed where
  kind : String
  text : String
  span : Span
  deriving DecidableEq

namespace Listed

/-- All there is to say of a token. -/
def ofToken (t : Token) : Listed :=
  ⟨t.lexeme.kind, t.lexeme.text, t.span⟩

/-- The columns of a line, with blanks between them. -/
def line (l : Listed) : String :=
  Text.padded Action.kindWidth l.kind ++ " " ++ l.text ++ "  " ++ l.span.text

/-- What a line says, if it has the columns. -/
def ofLine? (line : String) : Option Listed :=
  let kind := (line.toList.take Action.kindWidth).takeWhile (· != ' ')
  -- Behind the class the text may hold anything, so the rest is read from its end.
  let backwards := (line.toList.drop (Action.kindWidth + 1)).reverse
  match backwards.dropWhile (· != ' ') with
  | ' ' :: ' ' :: text =>
    (Span.ofText? (String.ofList (backwards.takeWhile (· != ' ')).reverse)).map fun span =>
      ⟨String.ofList kind, String.ofList text.reverse, span⟩
  | _ => none

end Listed

end Cli

end Sigil
