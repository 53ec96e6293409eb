import Sigil.Grammar.Descent.Pattern
import Sigil.Grammar.Descent.Tree
import Sigil.Text.Slice

/-! # Reading a text by descent

    A text is read from its first character on by going down the rules.
    Between the parts of a rule blanks are passed over, in the modes that
    allow it; a repetition that fails to go on gives back the blanks behind
    it.  What fits gives trees with their places in bytes; what fails is
    noted in a book, under the number of bytes that were left where it began.

    The rules go round in circles, so a reader has to keep count of the
    rules that it is in.  It gives up when there are too many of them, but
    a text has too few characters to bring it there.  No other limit is set
    for it: it may try as many rules as it likes.

    Key definitions: `Descent.readToken`, `Descent.readSymbol`, `Descent.read`. -/

namespace Sigil.Descent

open Text

/-! ### Findings -/

/-- What comes of looking for a pattern. -/
inductive Finding where
  /-- It fits: its trees, the place behind it, and the book. -/
  | found (trees : List Tree) (rest : Place) (book : Book)
  | failed (book : Book)
  /-- The reader has gone too deep. -/
  | gaveUp (book : Book)

namespace Finding

/-- What is found, with trees before its own. -/
def prepend (trees : List Tree) : Finding → Finding
  | .found more rest b => .found (trees ++ more) rest b
  | .failed b => .failed b
  | .gaveUp b => .gaveUp b

@[simp] theorem prepend_nil (finding : Finding) : finding.prepend [] = finding := by
  cases finding <;> rfl

/-- Go on behind what is found. -/
def andThen (finding : Finding) (next : Place → Book → Finding) : Finding :=
  match finding with
  | .found trees rest b => (next rest b).prepend trees
  | .failed b => .failed b
  | .gaveUp b => .gaveUp b

/-- Go on where nothing is found. -/
def orElse (finding : Finding) (next : Book → Finding) : Finding :=
  match finding with
  | .failed b => next b
  | finding => finding

end Finding

/-! ### Patterns -/

/-- Look for a body again and again, from `p` on; between two rounds blanks are passed
over.  A round that fails leaves the reader at `back`.  A round that takes no characters
would never come to an end. -/
def rounds (mode : Mode) (body : Place → Book → Finding) (back p : Place) (b : Book) : Finding :=
  match body p b with
  | .found trees rest b' =>
    if rest.left < p.left then
      (rounds mode body rest (mode.skip rest) b').prepend trees
    else .gaveUp b'
  | .failed b' => .found [] back b'
  | .gaveUp b' => .gaveUp b'
termination_by p.left
decreasing_by
  have := mode.left_skip_le rest
  omega

/-- Look for a pattern at a place, in a text of `length` bytes; `call` looks for what a rule
says. -/
def Pattern.read (length : Nat) (call : Mode → Rule → Place → Book → Finding) (mode : Mode) :
    Pattern → Place → Book → Finding
  | .one isIn, p, b =>
    match p.next? with
    | none => .failed b
    | some (c, rest) => if isIn c then .found [] rest b else .failed b
  | .start, p, b => if p.left = length then .found [] p b else .failed b
  | .finish, p, b => if p.left = 0 then .found [] p b else .failed b
  | .rule r, p, b => call mode r p b
  | .seq first second, p, b =>
    (first.read length call mode p b).andThen fun rest b' =>
      second.read length call mode (mode.skip rest) b'
  | .choice first second, p, b =>
    (first.read length call mode p b).orElse fun b' => second.read length call mode p b'
  | .optional body, p, b => (body.read length call mode p b).orElse fun b' => .found [] p b'
  | .many body, p, b => rounds mode (body.read length call mode) p p b
  | .without body, p, b =>
    match body.read length call mode p b with
    | .found _ _ b' => .failed b'
    | .failed b' => .found [] p b'
    | .gaveUp b' => .gaveUp b'

/-! ### Rules -/

/-- The tree of a rule that has been found from `p` to `rest`, in a text of `length` bytes. -/
def Tree.over (length : Nat) (r : Rule) (p rest : Place) (inner : List Tree) : Tree :=
  .node r (String.ofList ((before? (p.left - rest.left) p.chars).getD []))
    ⟨length - p.left, length - rest.left⟩ inner

/-- What comes of looking for a rule at `p`, where the book was `b`, when its pattern comes
to a finding. -/
def Finding.ofRule (length : Nat) (mode : Mode) (r : Rule) (p : Place) (b : Book) :
    Finding → Finding
  | .found trees rest b' =>
    if mode = .atomic then .found trees rest b'
    else .found [.over length r p rest trees] rest b'
  | .failed b' => .failed (if mode = .atomic then b' else Book.note r p.left b b')
  | .gaveUp b' => .gaveUp b'

/-- Look for what a rule says, with `depth` more rules to go down. -/
def Rule.read (length : Nat) : (depth : Nat) → Mode → Rule → Place → Book → Finding
  | 0, _, _, _, b => .gaveUp b
  | depth + 1, mode, r, p, b =>
    (r.pattern.read length (Rule.read length depth) (mode.inside r) p b).ofRule length mode r p b

/-- Look for the first token of the characters. -/
def readToken (cs : List Char) : Finding :=
  let p := Place.before cs
  Pattern.token.read p.left (Rule.read p.left 1) .spaced p (.blank p.left)

/-- Look for a symbol that is the whole of a text. -/
def readSymbol (text : String) : Finding :=
  let p := Place.before text.toList
  Pattern.symbolText.read p.left (Rule.read p.left 1) .tight p (.blank p.left)

/-- Look for an expression that is the whole of a text. -/
def read (text : String) : Finding :=
  let p := Place.before text.toList
  Rule.read p.left (4 * (p.left + 1)) .spaced .input p (.blank p.left)

end Sigil.Descent
