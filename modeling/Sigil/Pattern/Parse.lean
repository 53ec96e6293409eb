import Sigil.Pattern.Groups
import Sigil.Pattern.Meaning
import Sigil.Pattern.Room

/-! # From text to a pattern

    A text is taken as a pattern in three steps: its form is read, the form
    is given its meaning, and the pattern that it means must not take too
    much room.  What cannot be told without a table of words is refused
    last.

    Key definition: `Pattern.parse`. -/

namespace Sigil

/-- The pattern that a text spells out. -/
def Pattern.parse (text : String) : Except Pattern.Refusal Pattern := do
  let form ← Pattern.Form.read text
  let m ← form.meaning .initial
  if Pattern.maxRoom < m.pattern.room then throw .tooLarge
  if m.needsWordTable then throw .noWordTable
  pure m.pattern

end Sigil
