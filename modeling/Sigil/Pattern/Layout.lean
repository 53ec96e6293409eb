import Sigil.Pattern.Fault
import Sigil.Text.Blank

/-! # Going through the text of a pattern

    Readers of a pattern are given what is left of its text, and leave what
    they did not take.  How much is left tells the place.

    In a spaced pattern, gaps between its parts are left out: blanks, and
    comments, which go from `#` to the end of the line.

    Key definitions: `Layout.stretch`, `Layout.skip`, `Layout.collect`.
    Key theorem: `Layout.length_skip_le`, by which `collect` ends. -/

namespace Sigil.Pattern

/-- What is known of a text while it is read. -/
structure Layout where
  /-- The number of its characters. -/
  length : Nat
  /-- Are gaps left out? -/
  spaced : Bool

/-- A part that has been read, or a refusal. -/
abbrev Parsed := Except Refusal

namespace Layout

/-! ### Places -/

/-- The number of characters before `cs`, which is the rest of the text. -/
def offset (l : Layout) (cs : List Char) : Nat :=
  l.length - cs.length

/-- The stretch from one rest of the text to a later one. -/
def stretch (l : Layout) (start stop : List Char) : Stretch :=
  ⟨l.offset start, l.offset stop⟩

/-- A fault at the stretch from one rest of the text to a later one. -/
def refuse {α : Type} (l : Layout) (f : Fault) (start stop : List Char) : Parsed α :=
  .error (.fault f (l.stretch start stop) none)

/-- A fault at the first character of `cs`. -/
def refuseHead {α : Type} (l : Layout) (f : Fault) (cs : List Char) : Parsed α :=
  l.refuse f cs cs.tail

/-- A fault before the first character of `cs`. -/
def refuseBefore {α : Type} (l : Layout) (f : Fault) (cs : List Char) : Parsed α :=
  l.refuse f cs cs

/-! ### Gaps -/

/-- What follows a gap; `inComment` tells that it begins within a comment. -/
def dropGap (inComment : Bool) : List Char → List Char
  | [] => []
  | c :: cs =>
    if inComment then dropGap (c != '\n') cs
    else if Text.isBlank c then dropGap false cs
    else if c == '#' then dropGap true cs
    else c :: cs

/-- What is left after a gap, if gaps are left out. -/
def skip (l : Layout) (cs : List Char) : List Char :=
  if l.spaced then dropGap false cs else cs

theorem length_dropGap_le (inComment : Bool) (cs : List Char) :
    (dropGap inComment cs).length ≤ cs.length := by
  induction cs generalizing inComment with
  | nil => exact Nat.le_refl _
  | cons c cs ih =>
    rw [dropGap, List.length_cons]
    split
    · have := ih (c != '\n'); omega
    · split
      · have := ih false; omega
      · split
        · have := ih true; omega
        · simp

theorem length_skip_le (l : Layout) (cs : List Char) : (l.skip cs).length ≤ cs.length := by
  unfold skip
  split
  · exact length_dropGap_le false cs
  · exact Nat.le_refl _

/-- The character after a gap.  A comment is taken to end with its blanks; when
nothing but the gap is left, its first character is given. -/
def peek? (l : Layout) (cs : List Char) : Option Char :=
  let rec afterGap (inComment : Bool) : List Char → Option Char
    | [] => none
    | c :: cs =>
      if Text.isBlank c then afterGap inComment cs
      else if !inComment && c == '#' then afterGap true cs
      else some c
  if l.spaced then (afterGap false cs).or cs.head? else cs.head?

/-- The characters at the head for which `keep` holds, without the gaps after
them, and what is left. -/
def collect (l : Layout) (keep : Char → Bool) : List Char → List Char × List Char
  | [] => ([], [])
  | c :: cs =>
    if keep c then
      let (taken, rest) := collect l keep (l.skip cs)
      (c :: taken, rest)
    else ([], c :: cs)
termination_by cs => cs.length
decreasing_by
  have := length_skip_le l cs
  rw [List.length_cons]
  omega

end Layout

end Sigil.Pattern
