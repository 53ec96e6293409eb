import Sigil.Expectation

/-! # Reading by descent

    The grammar as a reader has it that goes down its rules, tries the
    ways of a choice in their order and keeps to the first that fits.
    Such a reader keeps a book on its failures.  The book holds the
    furthest place at which a rule has failed, and the rules that failed
    there.  A rule that fails at the place where it began takes the room
    of the rules that failed inside it, unless that is only one, which
    then stands for both.  What was expected of a text is read off the
    book at the end.

    Key definitions: `Descent.Runs`, `Descent.Book.note`,
    `Descent.Book.names`. -/

namespace Sigil.Descent

/-! ### Rules -/

/-- The rules under which failures are booked. -/
inductive Rule where
  | endOfText
  | symbol
  | identifier
  | literal
  | connective (connective : Connective)
  | mark (mark : Mark)
  | input
  | expression
  | group
  | call
  | arguments
  | argument
  | list
  deriving DecidableEq

namespace Rule

/-- Every rule, in the order in which they are listed. -/
def all : List Rule :=
  [.endOfText, .symbol, .identifier, .literal] ++ Connective.all.map Rule.connective
    ++ Mark.all.map Rule.mark ++ [.input, .expression, .group, .call, .arguments, .argument, .list]

/-- What the failure of a rule says was expected. -/
def expectation : Rule → Expectation
  | .endOfText => .endOfText
  | .symbol | .call => .symbol
  | .identifier => .identifier
  | .literal => .literal
  | .connective .not => .negation
  | .connective _ => .connective
  | .mark m => .mark m
  | .group | .arguments => .mark .openParen
  | .list => .mark .openBracket
  | .argument => .argument
  | .expression => .expression
  | .input => .other

/-- A rule in the words of a message. -/
def description (r : Rule) : String :=
  r.expectation.description

/-- Is the lexeme one of the rule's, where the rule is about single lexemes? -/
def fits : Rule → Lexeme → Bool
  | .symbol, .symbol _ => true
  | .identifier, .identifier _ => true
  | .literal, .literal .. => true
  | .connective c, .connective d => c == d
  | .mark m, .mark n => m == n
  | _, _ => false

end Rule

/-! ### Phrases -/

/-- What a reader by descent can look for. -/
inductive Phrase where
  /-- One of the lexemes of a rule. -/
  | lexeme (rule : Rule)
  | endOfText
  /-- What a rule says, and a failure of it is booked. -/
  | rule (rule : Rule)
  | seq (first second : Phrase)
  /-- The first, and the second only where the first fails. -/
  | choice (first second : Phrase)
  | optional (body : Phrase)
  /-- As many times as it fits. -/
  | many (body : Phrase)

namespace Phrase

/-- The first of the connectives that fits, `c` before the others. -/
def oneOf (c : Connective) : List Connective → Phrase
  | [] => .rule (.connective c)
  | d :: ds => .choice (.rule (.connective c)) (oneOf d ds)

/-- A binary connective. -/
def binary : Phrase :=
  oneOf .therefore [.implies, .equiv, .or, .and, .compose]

def primary : Phrase :=
  .choice (.rule .call) (.rule .group)

def operand : Phrase :=
  .seq (.optional (.rule (.connective .not))) primary

def value : Phrase :=
  .choice (.rule .list) (.choice (.rule .literal) (.rule .identifier))

/-- The phrase at least once, with commas in between. -/
def separated (item : Phrase) : Phrase :=
  .seq item (.many (.seq (.rule (.mark .comma)) item))

/-- The phrase between two marks. -/
def enclosed (left : Mark) (body : Phrase) (right : Mark) : Phrase :=
  .seq (.rule (.mark left)) (.seq body (.rule (.mark right)))

end Phrase

/-- What a rule looks for. -/
def Rule.body : Rule → Phrase
  | .endOfText => .endOfText
  | .input => .seq (.rule .expression) (.rule .endOfText)
  | .expression => .seq .operand (.many (.seq .binary .operand))
  | .group => .enclosed .openParen (.rule .expression) .closeParen
  | .call => .seq (.rule .symbol) (.optional (.rule .arguments))
  | .arguments => .enclosed .openParen (.separated (.rule .argument)) .closeParen
  | .argument => .seq (.rule .identifier) (.seq (.rule (.mark .colon)) .value)
  | .list => .enclosed .openBracket (.optional (.separated .value)) .closeBracket
  | r => .lexeme r

/-! ### The book -/

/-- The furthest place at which a rule has failed, and the rules that failed there. -/
structure Book where
  /-- How many lexemes come after the place. -/
  left : Nat
  failed : List Rule

namespace Book

/-- Nothing has failed in a row of `left` lexemes. -/
def blank (left : Nat) : Book :=
  ⟨left, []⟩

/-- The rules that are booked at a place. -/
def failedAt (b : Book) (left : Nat) : List Rule :=
  if b.left = left then b.failed else []

/-- The book after the failure of the rule `r`, which began where `left` lexemes were
left; `before` is what the book was then. -/
def note (r : Rule) (left : Nat) (before after : Book) : Book :=
  let earlier := (before.failedAt left).length
  if (after.failedAt left).length = earlier + 1 then after
  else if after.left = left then ⟨left, after.failed.take earlier ++ [r]⟩
  else if left < after.left then ⟨left, [r]⟩
  else after

/-- The booked rules in the order of listings. -/
def sorted (b : Book) : List Rule :=
  Rule.all.filter fun r => b.failed.contains r

/-- The names of the booked rules in the order of listings, none of them twice. -/
def names (b : Book) : List String :=
  (b.sorted.map Rule.description).eraseDups

/-- What was expected at the place, none of it twice. -/
def expected (b : Book) : List Expectation :=
  (b.sorted.map Rule.expectation).eraseDups

/-- The names in the words of a message. -/
def listing (b : Book) : String :=
  match b.names with
  | [] => "a different token"
  | names => Text.alternatives names

end Book

/-! ### Runs -/

/-- Looking for a phrase in a row, with a book, ends in success and the rest of the row,
or in failure; the book in the last place is the one at the end. -/
inductive Runs : Phrase → List Lexeme → Book → Option (List Lexeme) → Book → Prop where
  | lexeme {r : Rule} {l : Lexeme} {ls : List Lexeme} {b : Book} (fits : r.fits l = true) :
      Runs (.lexeme r) (l :: ls) b (some ls) b
  | noLexeme {r : Rule} {ls : List Lexeme} {b : Book}
      (differs : ∀ l ∈ ls.head?, r.fits l = false) : Runs (.lexeme r) ls b none b
  | endOfText {b : Book} : Runs .endOfText [] b (some []) b
  | noEnd {l : Lexeme} {ls : List Lexeme} {b : Book} : Runs .endOfText (l :: ls) b none b
  | rule {r : Rule} {ls ms : List Lexeme} {b b' : Book} (body : Runs r.body ls b (some ms) b') :
      Runs (.rule r) ls b (some ms) b'
  | noRule {r : Rule} {ls : List Lexeme} {b b' : Book} (body : Runs r.body ls b none b') :
      Runs (.rule r) ls b none (Book.note r ls.length b b')
  | seq {p q : Phrase} {ls ms : List Lexeme} {result : Option (List Lexeme)} {b b' b'' : Book}
      (first : Runs p ls b (some ms) b') (second : Runs q ms b' result b'') :
      Runs (.seq p q) ls b result b''
  | noSeq {p q : Phrase} {ls : List Lexeme} {b b' : Book} (first : Runs p ls b none b') :
      Runs (.seq p q) ls b none b'
  | choice {p q : Phrase} {ls ms : List Lexeme} {b b' : Book}
      (first : Runs p ls b (some ms) b') : Runs (.choice p q) ls b (some ms) b'
  | otherwise {p q : Phrase} {ls : List Lexeme} {result : Option (List Lexeme)}
      {b b' b'' : Book} (first : Runs p ls b none b') (second : Runs q ls b' result b'') :
      Runs (.choice p q) ls b result b''
  | optional {p : Phrase} {ls ms : List Lexeme} {b b' : Book} (body : Runs p ls b (some ms) b') :
      Runs (.optional p) ls b (some ms) b'
  | absent {p : Phrase} {ls : List Lexeme} {b b' : Book} (body : Runs p ls b none b') :
      Runs (.optional p) ls b (some ls) b'
  | many {p : Phrase} {ls ms : List Lexeme} {result : Option (List Lexeme)} {b b' b'' : Book}
      (first : Runs p ls b (some ms) b') (more : Runs (.many p) ms b' result b'') :
      Runs (.many p) ls b result b''
  | noMore {p : Phrase} {ls : List Lexeme} {b b' : Book} (first : Runs p ls b none b') :
      Runs (.many p) ls b (some ls) b'

/-- A reader by descent has no choice in what it does. -/
theorem Runs.unique {p : Phrase} {ls : List Lexeme} {b b₁ b₂ : Book}
    {result₁ result₂ : Option (List Lexeme)} (h₁ : Runs p ls b result₁ b₁)
    (h₂ : Runs p ls b result₂ b₂) : result₁ = result₂ ∧ b₁ = b₂ := by
  -- along the first run; the second can only end as the first does, phrase by phrase
  induction h₁ generalizing result₂ b₂ with
  | lexeme fits =>
    cases h₂ with
    | lexeme fits' => exact ⟨rfl, rfl⟩
    | noLexeme differs =>
      rw [differs _ rfl] at fits
      cases fits
  | noLexeme differs =>
    cases h₂ with
    | lexeme fits' =>
      rw [differs _ rfl] at fits'
      cases fits'
    | noLexeme differs' => exact ⟨rfl, rfl⟩
  | endOfText =>
    cases h₂ with
    | endOfText => exact ⟨rfl, rfl⟩
  | noEnd =>
    cases h₂ with
    | noEnd => exact ⟨rfl, rfl⟩
  | rule body ih =>
    cases h₂ with
    | rule body' => exact ih body'
    | noRule body' => cases (ih body').1
  | noRule body ih =>
    cases h₂ with
    | rule body' => cases (ih body').1
    | noRule body' => exact ⟨rfl, by rw [(ih body').2]⟩
  | seq first second ih₁ ih₂ =>
    cases h₂ with
    | seq first' second' =>
      obtain ⟨hrest, rfl⟩ := ih₁ first'
      obtain rfl := Option.some.inj hrest
      exact ih₂ second'
    | noSeq first' => cases (ih₁ first').1
  | noSeq first ih =>
    cases h₂ with
    | seq first' second' => cases (ih first').1
    | noSeq first' => exact ih first'
  | choice first ih =>
    cases h₂ with
    | choice first' => exact ih first'
    | otherwise first' second' => cases (ih first').1
  | otherwise first second ih₁ ih₂ =>
    cases h₂ with
    | choice first' => cases (ih₁ first').1
    | otherwise first' second' =>
      cases (ih₁ first').2
      exact ih₂ second'
  | optional body ih =>
    cases h₂ with
    | optional body' => exact ih body'
    | absent body' => cases (ih body').1
  | absent body ih =>
    cases h₂ with
    | optional body' => cases (ih body').1
    | absent body' => exact ⟨rfl, (ih body').2⟩
  | many first more ih₁ ih₂ =>
    cases h₂ with
    | many first' more' =>
      obtain ⟨hrest, rfl⟩ := ih₁ first'
      obtain rfl := Option.some.inj hrest
      exact ih₂ more'
    | noMore first' => cases (ih₁ first').1
  | noMore first ih =>
    cases h₂ with
    | many first' more' => cases (ih first').1
    | noMore first' => exact ⟨rfl, (ih first').2⟩

end Sigil.Descent
