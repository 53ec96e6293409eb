import Sigil.Connective
import Sigil.Span
import Sigil.Symbol

/-! # Tokens

    A text is a row of lexemes with blanks between them.  A lexeme carries
    what it means, and its characters follow from that; a token is a lexeme
    at its place in a text. -/

namespace Sigil

/-! ### Quotes and marks -/

/-- The sign that opens and closes a quoted text. -/
inductive Quote where
  | single
  | double
  deriving DecidableEq, Repr

namespace Quote

def char : Quote → Char
  | .single => '\''
  | .double => '"'

/-- The quote that a character is. -/
def ofChar? (c : Char) : Option Quote :=
  if c = '\'' then some .single else if c = '"' then some .double else none

@[simp] theorem ofChar?_char (q : Quote) : ofChar? q.char = some q := by
  cases q <;> decide

theorem char_of_ofChar? {c : Char} {q : Quote} (h : ofChar? c = some q) : q.char = c := by
  unfold ofChar? at h
  split at h
  · next hc => cases h; exact hc.symm
  · split at h
    · next hc => cases h; exact hc.symm
    · cases h

end Quote

/-- A bracket, a comma or a colon. -/
inductive Mark where
  | openParen
  | closeParen
  | openBracket
  | closeBracket
  | comma
  | colon
  deriving DecidableEq, Repr

namespace Mark

/-- Every mark. -/
def all : List Mark :=
  [.openParen, .closeParen, .openBracket, .closeBracket, .comma, .colon]

def glyph : Mark → Char
  | .openParen => '('
  | .closeParen => ')'
  | .openBracket => '['
  | .closeBracket => ']'
  | .comma => ','
  | .colon => ':'

/-- The upper-case name of a mark. -/
def name : Mark → String
  | .openParen => "LPAREN"
  | .closeParen => "RPAREN"
  | .openBracket => "LBRACKET"
  | .closeBracket => "RBRACKET"
  | .comma => "COMMA"
  | .colon => "COLON"

/-- The mark that a character is. -/
def ofGlyph? (glyph : Char) : Option Mark :=
  all.find? fun m => m.glyph == glyph

@[simp] theorem ofGlyph?_glyph (m : Mark) : ofGlyph? m.glyph = some m := by
  cases m <;> decide

theorem glyph_of_ofGlyph? {g : Char} {m : Mark} (h : ofGlyph? g = some m) :
    m.glyph = g := by
  have := List.find?_some h
  simpa using this

end Mark

/-! ### Lexemes -/

/-- What a token is. -/
inductive Lexeme where
  | symbol (symbol : Symbol)
  | identifier (name : String)
  /-- A quoted text; `content` is what stands between the quotes. -/
  | literal (quote : Quote) (content : String)
  | connective (connective : Connective)
  | mark (mark : Mark)
  deriving DecidableEq

namespace Lexeme

/-- The characters of a lexeme. -/
def chars : Lexeme → List Char
  | .symbol s => s.chars
  | .identifier name => name.toList
  | .literal q content => q.char :: (content.toList ++ [q.char])
  | .connective c => [c.glyph]
  | .mark m => [m.glyph]

/-- The text of a lexeme. -/
def text (l : Lexeme) : String :=
  String.ofList l.chars

/-- The upper-case name of a lexeme's class. -/
def kind : Lexeme → String
  | .symbol _ => "SYMBOL"
  | .identifier _ => "IDENTIFIER"
  | .literal .. => "STRING_LITERAL"
  | .connective c => c.name
  | .mark m => m.name

/-- The connective that a lexeme is. -/
def connective? : Lexeme → Option Connective
  | .connective c => some c
  | _ => none

/-- A lexeme in the words of a message. -/
def description : Lexeme → String
  | .symbol s => "symbol '" ++ s.text ++ "'"
  | .identifier name => "identifier '" ++ name ++ "'"
  | l@(.literal ..) => "string literal " ++ l.text
  | .connective c => "operator '" ++ c.text ++ "'"
  | l@(.mark _) => "'" ++ l.text ++ "'"

end Lexeme

/-! ### Tokens -/

/-- A lexeme at its place in a text. -/
structure Token where
  lexeme : Lexeme
  span : Span
  deriving DecidableEq

end Sigil
