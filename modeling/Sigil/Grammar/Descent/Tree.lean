import Sigil.Grammar.Descent

/-! # Trees of a descent

    What a reader by descent has found it hands on as trees.  A rule that
    fits gives a tree with the rule's name, and inside it the trees of the
    rules that it went through, in their order; the other phrases give no
    trees of their own.  So the trees in an expression are operands and
    connectives side by side, without a word on how they group.

    `Forms` says which trees a row of lexemes can give, however the choices
    in the phrase are made.  The reader makes them in one way, and what it
    accepts has trees (`Forms` contains them).

    Key definitions: `Descent.Tree`, `Descent.Forms`. -/

namespace Sigil.Descent

/-- What has been found under a rule, and where. -/
inductive Tree where
  | node (rule : Rule) (text : String) (span : Span) (inner : List Tree)

namespace Tree

def rule : Tree → Rule
  | .node r _ _ _ => r

/-- The stretch of the source that the tree is about. -/
def text : Tree → String
  | .node _ s _ _ => s

/-- Where the stretch is. -/
def span : Tree → Span
  | .node _ _ s _ => s

def inner : Tree → List Tree
  | .node _ _ _ trees => trees

/-- The tree of a single lexeme. -/
def leaf (r : Rule) (l : Lexeme) (span : Span) : Tree :=
  .node r l.text span []

end Tree

/-- The lexemes are an instance of the phrase, with these trees.  The text of a rule that
stands for more than a lexeme may hold blanks, and is left open; so are the spans, which
lexemes do not tell. -/
inductive Forms : Phrase → List Lexeme → List Tree → Prop where
  | lexeme {r : Rule} {l : Lexeme} (fits : r.fits l = true) : Forms (.lexeme r) [l] []
  | endOfText : Forms .endOfText [] []
  | leaf {r : Rule} {l : Lexeme} (body : r.body = .lexeme r) (fits : r.fits l = true)
      (span : Span) : Forms (.rule r) [l] [.leaf r l span]
  | rule {r : Rule} {ls : List Lexeme} {trees : List Tree} (several : r.body ≠ .lexeme r)
      (text : String) (span : Span) (body : Forms r.body ls trees) :
      Forms (.rule r) ls [.node r text span trees]
  | seq {p q : Phrase} {ls ms : List Lexeme} {trees trees' : List Tree} (first : Forms p ls trees)
      (second : Forms q ms trees') : Forms (.seq p q) (ls ++ ms) (trees ++ trees')
  | choice {p q : Phrase} {ls : List Lexeme} {trees : List Tree} (first : Forms p ls trees) :
      Forms (.choice p q) ls trees
  | otherwise {p q : Phrase} {ls : List Lexeme} {trees : List Tree} (second : Forms q ls trees) :
      Forms (.choice p q) ls trees
  | optional {p : Phrase} {ls : List Lexeme} {trees : List Tree} (body : Forms p ls trees) :
      Forms (.optional p) ls trees
  | absent {p : Phrase} : Forms (.optional p) [] []
  | many {p : Phrase} {ls ms : List Lexeme} {trees trees' : List Tree} (first : Forms p ls trees)
      (more : Forms (.many p) ms trees') : Forms (.many p) (ls ++ ms) (trees ++ trees')
  | noMore {p : Phrase} : Forms (.many p) [] []

end Sigil.Descent
