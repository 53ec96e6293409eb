import Sigil.Text.Width

/-! # Slices

    A slice of a text goes from one byte offset to another.  There is one
    only when neither offset lies within a character or behind the end of
    the text, and when they come in their order.

    Key definition: `slice?`.
    Key theorem: `slice?_eq_some` — characters within a text are a slice of
    it. -/

namespace Sigil.Text

/-- The characters in the first `n` bytes, when a character ends there. -/
def before? : (n : Nat) → List Char → Option (List Char)
  | 0, _ => some []
  | _ + 1, [] => none
  | n + 1, c :: cs =>
    if c.utf8Size ≤ n + 1 then (before? (n + 1 - c.utf8Size) cs).map (c :: ·) else none

/-- The characters behind the first `n` bytes, when a character ends there. -/
def behind? : (n : Nat) → List Char → Option (List Char)
  | 0, cs => some cs
  | _ + 1, [] => none
  | n + 1, c :: cs => if c.utf8Size ≤ n + 1 then behind? (n + 1 - c.utf8Size) cs else none

/-- The text from the byte `start` up to, and without, the byte `stop`. -/
def slice? (s : String) (start stop : Nat) : Option String :=
  if start ≤ stop then do
    let rest ← behind? start s.toList
    let cs ← before? (stop - start) rest
    pure (String.ofList cs)
  else none

/-- A character has bytes. -/
theorem exists_width_cons (c : Char) (cs : List Char) :
    ∃ n, width (c :: cs) = n + 1 ∧ c.utf8Size ≤ n + 1 ∧ n + 1 - c.utf8Size = width cs := by
  have hpos := c.utf8Size_pos
  have hwidth := width_cons c cs
  exact ⟨width (c :: cs) - 1, by omega, by omega, by omega⟩

theorem before?_width (cs ds : List Char) : before? (width cs) (cs ++ ds) = some cs := by
  induction cs with
  | nil => rw [width_nil, before?]
  | cons c cs ih =>
    obtain ⟨n, hn, hle, hrest⟩ := exists_width_cons c cs
    rw [hn, List.cons_append, before?, if_pos hle, hrest, ih]
    rfl

theorem behind?_width (cs ds : List Char) : behind? (width cs) (cs ++ ds) = some ds := by
  induction cs with
  | nil => rw [width_nil, List.nil_append, behind?]
  | cons c cs ih =>
    obtain ⟨n, hn, hle, hrest⟩ := exists_width_cons c cs
    rw [hn, List.cons_append, behind?, if_pos hle, hrest, ih]

/-- Characters within a text are the slice between the widths of what stands before them
and of what stands up to their end. -/
theorem slice?_eq_some {s : String} {before cs behind : List Char}
    (h : s.toList = before ++ (cs ++ behind)) :
    slice? s (width before) (width before + width cs) = some (String.ofList cs) := by
  rw [slice?, if_pos (Nat.le_add_right _ _), h, behind?_width, Nat.add_sub_cancel_left]
  show (before? (width cs) (cs ++ behind)).bind _ = _
  rw [before?_width]
  rfl

end Sigil.Text
