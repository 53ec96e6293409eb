import Sigil.Expr.Canonical
import Sigil.Token.Scan

/-! # Printable expressions

    The canonical form can be taken for every expression, but not every
    one can be read back: a `∧` over a single operand has no place in the
    grammar, a name with a blank in it falls apart, and a text that holds
    both quotes has no quoted form.  `Expr.isPrintable` says that nothing
    of this kind is in an expression, and `Expr.nesting` how deep the
    brackets of its canonical form are.

    Key definitions: `Expr.lexemes`, `Expr.isPrintable`, `Expr.nesting`. -/

namespace Sigil

namespace Lexeme

/-- Several rows as one, with a comma between each two. -/
def listing : List (List Lexeme) → List Lexeme
  | [] => []
  | [part] => part
  | part :: next :: rest => part ++ .mark .comma :: listing (next :: rest)

/-- A row between a pair of marks. -/
def enclosed (opening closing : Mark) (ls : List Lexeme) : List Lexeme :=
  .mark opening :: (ls ++ [.mark closing])

end Lexeme

namespace Value

/-! ### Values -/

/-- The quote in which a text is written. -/
def quoteOf (content : String) : Quote :=
  if content.toList.contains '\'' then .double else .single

mutual

/-- The lexemes of the written form of a value. -/
def lexemes : Value → List Lexeme
  | .text s => [.literal (quoteOf s) s]
  | .name s => [.identifier s]
  | .list vs => Lexeme.enclosed .openBracket .closeBracket (Lexeme.listing (itemLexemes vs))

/-- The lexemes of each of several values. -/
def itemLexemes : List Value → List (List Lexeme)
  | [] => []
  | v :: vs => lexemes v :: itemLexemes vs

end

mutual

/-- Can the value be read back from its written form? -/
def isPrintable : Value → Bool
  | .text s => !(s.toList.contains '\'' && s.toList.contains '"')
  | .name s => Lexeme.isName s.toList
  | .list vs => arePrintable vs

/-- Can all of several values be read back? -/
def arePrintable : List Value → Bool
  | [] => true
  | v :: vs => isPrintable v && arePrintable vs

end

mutual

/-- How deep the brackets of the written form are. -/
def nesting : Value → Nat
  | .text _ | .name _ => 0
  | .list vs => itemNesting vs + 1

/-- How deep the brackets of several values are. -/
def itemNesting : List Value → Nat
  | [] => 0
  | v :: vs => max (nesting v) (itemNesting vs)

end

end Value

namespace Arguments

/-! ### Arguments -/

/-- The lexemes of an argument. -/
def lexemesOf (entry : String × Value) : List Lexeme :=
  .identifier entry.1 :: .mark .colon :: entry.2.lexemes

/-- Can the arguments be read back from their written form? -/
def isPrintable (as : Arguments) : Bool :=
  as.entries.all fun e => Lexeme.isName e.1.toList && e.2.isPrintable

/-- How deep the brackets of the values are. -/
def nesting (as : Arguments) : Nat :=
  Value.itemNesting (as.entries.map Prod.snd)

end Arguments

namespace Expr

/-! ### Expressions -/

/-- The lexemes of the canonical form. -/
def lexemes : Expr → List Lexeme
  | .call s as =>
    if as.isEmpty then [.symbol s]
    else .symbol s :: Lexeme.enclosed .openParen .closeParen
      (Lexeme.listing (as.entries.map Arguments.lexemesOf))
  | .binary c l r =>
    Lexeme.enclosed .openParen .closeParen (l.lexemes ++ .connective c :: r.lexemes)
  | .unary c x =>
    .connective c ::
      (if x.isUnary then Lexeme.enclosed .openParen .closeParen x.lexemes else x.lexemes)

/-- Can the expression be read back from its canonical form, as far as its parts go? -/
def isPrintable : Expr → Bool
  | .call _ as => as.isPrintable
  | .binary c l r => !c.isUnary && l.isPrintable && r.isPrintable
  | .unary c x => c.isUnary && x.isPrintable

/-- How deep the brackets of the canonical form are: those of binary connectives, of
a `¬` under a `¬`, of arguments and of lists. -/
def nesting : Expr → Nat
  | .call _ as => if as.isEmpty then 0 else as.nesting + 1
  | .binary _ l r => max l.nesting r.nesting + 1
  | .unary _ x => if x.isUnary then x.nesting + 1 else x.nesting

end Expr

end Sigil
