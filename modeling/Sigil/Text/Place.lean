import Sigil.Text.Blank
import Sigil.Text.Width

/-! # Places in a text

    A place in a text is what stands behind it, together with the number of
    bytes that this takes.  The number goes along with every step, so it is
    never counted again, and it says where the place is in a text of a known
    length. -/

namespace Sigil.Text

/-- A place in a text. -/
structure Place where
  /-- The characters behind it. -/
  chars : List Char
  /-- The number of bytes behind it. -/
  left : Nat
  left_eq : left = width chars

namespace Place

/-- The place before the characters. -/
def before (cs : List Char) : Place :=
  ⟨cs, width cs, rfl⟩

theorem left_before (cs : List Char) : (before cs).left = width cs := rfl

/-- Characters are before one place only. -/
@[ext] theorem ext {p q : Place} (h : p.chars = q.chars) : p = q := by
  obtain ⟨cs, left, rfl⟩ := p
  obtain ⟨ds, left', rfl⟩ := q
  obtain rfl : cs = ds := h
  rfl

/-- The first character behind a place, and the place behind it. -/
def next? : Place → Option (Char × Place)
  | ⟨[], _, _⟩ => none
  | ⟨c :: cs, left, h⟩ => some (c, ⟨cs, left - c.utf8Size, by rw [h, width_cons]; omega⟩)

theorem next?_cons (c : Char) (cs : List Char) : (before (c :: cs)).next? = some (c, before cs) :=
  congrArg (fun p => some (c, p)) (Place.ext rfl)

/-! ### Passing over blanks -/

/-- The place behind the blanks at the head of characters that take `left` bytes. -/
def behindBlanks : (cs : List Char) → (left : Nat) → left = width cs → Place
  | [], left, h => ⟨[], left, h⟩
  | c :: cs, left, h =>
    if isBlank c then behindBlanks cs (left - c.utf8Size) (by rw [h, width_cons]; omega)
    else ⟨c :: cs, left, h⟩

theorem chars_behindBlanks {cs : List Char} {left : Nat} (h : left = width cs) :
    (behindBlanks cs left h).chars = cs.dropWhile isBlank := by
  induction cs generalizing left with
  | nil => rfl
  | cons c cs ih =>
    rw [behindBlanks, List.dropWhile_cons]
    split
    · exact ih _
    · rfl

/-- The place behind the blanks at a place. -/
def skipBlanks (p : Place) : Place :=
  behindBlanks p.chars p.left p.left_eq

@[simp] theorem chars_skipBlanks (p : Place) : p.skipBlanks.chars = p.chars.dropWhile isBlank :=
  chars_behindBlanks p.left_eq

theorem left_skipBlanks_le (p : Place) : p.skipBlanks.left ≤ p.left := by
  have happ := List.takeWhile_append_dropWhile (p := isBlank) (l := p.chars)
  have hwidth := congrArg width happ
  rw [width_append, ← chars_skipBlanks, ← p.skipBlanks.left_eq, ← p.left_eq] at hwidth
  omega

end Place

end Sigil.Text
