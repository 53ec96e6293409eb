import Sigil.Proofs.Progress
import Sigil.Proofs.Recognition

/-! # Readings and sentences

    A reading goes over the whole of a row exactly when the row is a
    sentence of the grammar, and what is read is the expression that the
    grammar makes of it (`Reading.advance_start_iff`).  Since a reading has
    no choice, the grammar has none either (`Grammar.sentence_unique`). -/

namespace Sigil

open Grammar

/-- A row is read to its end as `x` exactly when the grammar makes it `x`. -/
theorem Reading.advance_start_iff {ls : List Lexeme} {x : Expr} :
    (start.advance ls).bind result? = some x ↔ Sentence ls x := by
  constructor
  · intro h
    obtain ⟨r, hr, hx⟩ := Option.bind_eq_some_iff.1 h
    exact (hasRead_of_advance hr).sentence hx
  · intro h
    obtain ⟨r, y, hr, hout, hy, ws, hw, -, hx⟩ :=
      reads_of_layer h .fresh [] (Group.admits_nil _) (Or.inr rfl)
    have hclose : r.group.close y = x := by
      rw [Group.close_eq_gather, hw]
      simpa [Group.fresh, Group.negate] using hx
    refine Option.bind_eq_some_iff.2 ⟨r, hr, ?_⟩
    rw [result?, hout, hy, Option.map_some, hclose]

/-- The grammar is unambiguous. -/
theorem Grammar.sentence_unique {ls : List Lexeme} {x y : Expr} (hx : Sentence ls x)
    (hy : Sentence ls y) : x = y := by
  have hx' := Reading.advance_start_iff.2 hx
  rw [Reading.advance_start_iff.2 hy] at hx'
  exact (Option.some.inj hx').symm

end Sigil
