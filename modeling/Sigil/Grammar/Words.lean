import Sigil.Text.Blank
import Sigil.Token.Scan

/-! # Words

    What a lexeme is as a row of characters, said without reading it: one
    pattern for each class of lexemes, under the name of the class.  A text
    can be segmented when it is a row of words and blanks, cut apart in any
    way that fits the patterns.

    Key definitions: `Grammar.IsWord`, `Grammar.Segmentable`. -/

namespace Sigil.Grammar

/-- The characters are a word of the class with the given name. -/
inductive IsWord : (kind : String) → List Char → Prop where
  /-- A leading letter, at most two capitals, decimal digits, and at most one small
  letter. -/
  | symbol {lead : Char} {capitals index variant : List Char} (hlead : lead ∈ Symbol.leads)
      (hcapitals : ∀ c ∈ capitals, Symbol.isCapital c = true) (hle : capitals.length ≤ 2)
      (hindex : ∀ c ∈ index, c.isDigit = true) (hne : index ≠ [])
      (hvariant : ∀ c ∈ variant, Symbol.isVariant c = true) (hone : variant.length ≤ 1) :
      IsWord "SYMBOL" (lead :: (capitals ++ index ++ variant))
  /-- A letter, then letters, digits and underscores. -/
  | identifier {first : Char} {rest : List Char} (hfirst : first.isAlpha = true)
      (hrest : ∀ c ∈ rest, c.isAlphanum = true ∨ c = '_') :
      IsWord "IDENTIFIER" (first :: rest)
  /-- A quote, characters other than that quote, and the quote again. -/
  | literal (q : Quote) {content : List Char} (hcontent : q.char ∉ content) :
      IsWord "STRING_LITERAL" (q.char :: (content ++ [q.char]))
  | connective (c : Connective) : IsWord c.name [c.glyph]
  | mark (m : Mark) : IsWord m.name [m.glyph]

/-- The characters are a blank, or a word of some class. -/
inductive IsPiece : List Char → Prop where
  | blank {c : Char} (hc : Text.isBlank c = true) : IsPiece [c]
  | word {kind : String} {cs : List Char} (word : IsWord kind cs) : IsPiece cs

/-- The characters can be cut, in some way, into blanks and words. -/
def Segmentable (cs : List Char) : Prop :=
  ∃ pieces : List (List Char), (∀ piece ∈ pieces, IsPiece piece) ∧ pieces.flatten = cs

end Sigil.Grammar
