/-! # Widths in bytes

    Positions in a text are byte offsets into its UTF-8 form.  A list of
    characters is as wide as its members together, so the offset of a
    character is the width of what stands before it. -/

namespace Sigil.Text

/-- The number of bytes of `cs` in UTF-8. -/
def width : List Char → Nat
  | [] => 0
  | c :: cs => c.utf8Size + width cs

@[simp] theorem width_nil : width [] = 0 := rfl

@[simp] theorem width_cons (c : Char) (cs : List Char) :
    width (c :: cs) = c.utf8Size + width cs := rfl

@[simp] theorem width_append (cs ds : List Char) :
    width (cs ++ ds) = width cs + width ds := by
  induction cs with
  | nil => rw [List.nil_append, width_nil, Nat.zero_add]
  | cons c cs ih => rw [List.cons_append, width_cons, width_cons, ih, Nat.add_assoc]

/-- Every character takes at least one byte. -/
theorem length_le_width (cs : List Char) : cs.length ≤ width cs := by
  induction cs with
  | nil => exact Nat.le_refl _
  | cons c cs ih =>
    have := c.utf8Size_pos
    rw [width_cons, List.length_cons]
    omega

theorem width_pos {cs : List Char} (h : cs ≠ []) : 0 < width cs :=
  Nat.lt_of_lt_of_le (List.length_pos_iff.2 h) (length_le_width cs)

end Sigil.Text
