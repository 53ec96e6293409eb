/-! # Blank characters

    A blank is a character with the Unicode property `White_Space`: the
    ASCII controls from tabulation to carriage return, the space, and
    nineteen code points beyond ASCII.  Blanks separate lexemes, and
    whole texts are trimmed of them before they are used.

    Key definitions: `isBlank`, `trimEnd`, `trim`. -/

namespace Sigil.Text

/-- The code points with the property `White_Space`, as closed ranges in
increasing order. -/
def blankRanges : List (Nat × Nat) :=
  [(0x09, 0x0D), (0x20, 0x20), (0x85, 0x85), (0xA0, 0xA0), (0x1680, 0x1680),
   (0x2000, 0x200A), (0x2028, 0x2029), (0x202F, 0x202F), (0x205F, 0x205F),
   (0x3000, 0x3000)]

/-- Does `c` have the property `White_Space`? -/
def isBlank (c : Char) : Bool :=
  blankRanges.any fun r => r.1 ≤ c.toNat && c.toNat ≤ r.2

/-! ### Trimming -/

/-- Characters without the blanks at their end. -/
def dropEndBlanks (cs : List Char) : List Char :=
  (cs.reverse.dropWhile isBlank).reverse

/-- Characters without the blanks at either end. -/
def dropBlanks (cs : List Char) : List Char :=
  dropEndBlanks (cs.dropWhile isBlank)

/-- A text without the blanks at its end. -/
def trimEnd (s : String) : String :=
  String.ofList (dropEndBlanks s.toList)

/-- A text without the blanks at either end. -/
def trim (s : String) : String :=
  String.ofList (dropBlanks s.toList)

/-- What is cut off the end of a text is blank. -/
theorem dropEndBlanks_append (cs : List Char) :
    ∃ blanks : List Char, blanks.all isBlank = true ∧ cs = dropEndBlanks cs ++ blanks := by
  refine ⟨(cs.reverse.takeWhile isBlank).reverse, ?_, ?_⟩
  · rw [List.all_reverse]; exact List.all_takeWhile
  · unfold dropEndBlanks
    rw [← List.reverse_append, List.takeWhile_append_dropWhile, List.reverse_reverse]

end Sigil.Text
