/-! # Colored text

    A painted text begins with a reset and the codes of its ink, and ends
    with a reset.  Without colors it is the text alone. -/

namespace Sigil.Cli

/-- How a text is colored. -/
inductive Ink where
  | boldCyan
  | boldGreen
  | dim
  deriving DecidableEq, Repr

namespace Ink

/-- The code that ends every color. -/
def reset : String := "\x1b[0m"

/-- The codes of an ink. -/
def codes : Ink → String
  | .boldCyan => "\x1b[1m\x1b[36m"
  | .boldGreen => "\x1b[1m\x1b[32m"
  | .dim => "\x1b[2m"

/-- A text in an ink, when colors are used. -/
def paint (ink : Ink) (colored : Bool) (s : String) : String :=
  if colored then reset ++ ink.codes ++ s ++ reset else s

end Ink

end Sigil.Cli
