import Sigil.Proofs.Completion
import Sigil.Proofs.Descent.Building
import Sigil.Proofs.Descent.Operands

/-! # What descent accepts

    A reader by descent accepts the rows that are expressions, and no
    others (`Descent.runs_input_iff`).  A reading that passes over the whole
    of an expression cannot get stuck in it: the end of the text would then
    be in the book, and no rule inside an expression looks for the end of
    the text (`Descent.ending_notMem_failed`). -/

namespace Sigil.Descent

open Grammar Reading

/-! ### What is booked inside an expression -/

/-- The rules that a phrase comes to, without what is inside them. -/
def Phrase.rules : Phrase → List Rule
  | .lexeme _ | .endOfText => []
  | .rule r => [r]
  | .seq p q | .choice p q => p.rules ++ q.rules
  | .optional p | .many p => p.rules

/-- A rule that is not about the end of the text. -/
def Rule.isInner : Rule → Bool
  | .input | .endOfText => false
  | _ => true

theorem all_isInner_body {r : Rule} (h : r.isInner = true) :
    r.body.rules.all Rule.isInner = true := by
  cases r <;> first | rfl | cases h

theorem mem_failed_note {r r' : Rule} {left : Nat} {before after : Book}
    (h : r' ∈ (Book.note r left before after).failed) : r' = r ∨ r' ∈ after.failed := by
  rw [Book.note] at h
  split at h
  · exact .inr h
  · split at h
    · rw [List.mem_append, List.mem_singleton] at h
      exact h.symm.imp_right List.mem_of_mem_take
    · split at h
      · exact .inl (List.mem_singleton.1 h)
      · exact .inr h

/-- Inside an expression the end of the text is never booked. -/
theorem ending_notMem_failed {p : Phrase} {ls : List Lexeme} {b b' : Book}
    {result : Option (List Lexeme)} (h : Runs p ls b result b')
    (hp : p.rules.all Rule.isInner = true) (hb : .endOfText ∉ b.failed) :
    .endOfText ∉ b'.failed := by
  -- along the run; only a rule that fails is booked
  induction h with
  | rule body ih => exact ih (all_isInner_body (List.all_eq_true.1 hp _ List.mem_cons_self)) hb
  | noRule body ih =>
    have hinner := List.all_eq_true.1 hp _ List.mem_cons_self
    intro hmem
    rcases mem_failed_note hmem with rfl | hafter
    · cases hinner
    · exact ih (all_isInner_body hinner) hb hafter
  | seq first second ih₁ ih₂ | otherwise first second ih₁ ih₂ =>
    rw [Phrase.rules, List.all_append, Bool.and_eq_true] at hp
    exact ih₂ hp.2 (ih₁ hp.1 hb)
  | noSeq first ih | choice first ih =>
    rw [Phrase.rules, List.all_append, Bool.and_eq_true] at hp
    exact ih hp.1 hb
  | optional body ih | absent body ih | noMore body ih => exact ih hp hb
  | many first more ih₁ ih₂ => exact ih₂ hp (ih₁ hp hb)
  | _ => exact hb

/-! ### Whole rows -/

section Rows

variable {ls : List Lexeme} {r : Reading} {x : Expr} {result : Option (List Lexeme)} {b b' : Book}

/-- Where the whole of an expression is read, the end of the text is tried last. -/
theorem ending_mem_tried (hresult : r.result? = some x) : .endOfText ∈ tried r := by
  obtain ⟨g, outer, site⟩ := r
  cases outer with
  | cons _ _ => cases hresult
  | nil =>
    obtain ⟨y, hy, -⟩ := Option.map_eq_some_iff.1 hresult
    rw [tried_of_operand? hy]
    exact List.mem_append_right _ (List.mem_singleton_self _)

/-- A reading that passes over the whole of an expression is not stuck in it. -/
theorem not_stuck_of_runs (hadvance : start.advance ls = some r) (hresult : r.result? = some x)
    (run : Runs (.rule .expression) ls b result b') (hb : .endOfText ∉ b.failed) :
    ¬ Stuck start ls b' := by
  rintro ⟨ms, r', ⟨passed, happ, hpassed⟩, hstop, rfl⟩
  have hwhole : passed ++ ms = ls ++ [] := by
    rw [← happ, List.append_nil]
  -- it stops nowhere but at the end, and there the end of the text would be booked
  obtain ⟨-, rfl⟩ := stop_unique hwhole hpassed hstop hadvance nofun
  exact ending_notMem_failed run rfl hb (ending_mem_tried hresult)

theorem runs_of_sentence (h : Sentence ls x) :
    ∃ b, Runs (.rule .input) ls (.blank ls.length) (some []) b := by
  obtain ⟨r, hadvance, hresult⟩ := Option.bind_eq_some_iff.1 (advance_start_iff.2 h)
  have hblank : .endOfText ∉ (Book.blank ls.length).failed := List.not_mem_nil
  cases follows_expression [] (Book.holds_blank ls.length) with
  | @ends ms r' y b' run passes operand houter holds stop =>
    -- where descent ends the reading stops, and that is the end of the row
    obtain ⟨passed, rfl, hpassed⟩ := passes
    have hwhole : passed ++ ms = (passed ++ ms) ++ [] := (List.append_nil _).symm
    obtain ⟨hall, -⟩ :=
      stop_unique hwhole hpassed (step_eq_none_of_ends operand houter stop) hadvance nofun
    obtain rfl : ms = [] := List.append_cancel_left (hall.symm.trans (List.append_nil passed).symm)
    exact ⟨b', .rule (.seq run (.rule .endOfText))⟩
  | cut run head differs ahead stuck =>
    exact absurd stuck (not_stuck_of_runs hadvance hresult run hblank)
  | stuck run stuck => exact absurd stuck (not_stuck_of_runs hadvance hresult run hblank)

/-- A row that is refused is no expression, and the reading gets stuck in it. -/
theorem stuck_of_refused (run : Runs (.rule .input) ls (.blank ls.length) none b) :
    Stuck start ls b := by
  cases h : (start.advance ls).bind result? with
  | some x =>
    obtain ⟨b', run'⟩ := runs_of_sentence (advance_start_iff.1 h)
    cases (run.unique run').1
  | none =>
    obtain ⟨b', run', hstuck⟩ := runs_input h
    rwa [(run.unique run').2]

/-- What is accepted is accepted as a whole, and has trees. -/
theorem forms_of_accepted {ms : List Lexeme} (h : Runs (.rule .input) ls b (some ms) b') :
    ms = [] ∧ ∃ trees, Forms (.rule .input) ls trees := by
  have hnil : ms = [] := by
    cases h with
    | rule body =>
      cases body with
      | seq _ ending =>
        cases ending with
        | rule body =>
          cases body with
          | endOfText => rfl
  obtain ⟨taken, trees, rfl, hforms⟩ := forms_of_runs h
  rw [hnil, List.append_nil]
  exact ⟨rfl, trees, hforms⟩

/-- A reader by descent accepts the rows that are expressions. -/
theorem runs_input_iff :
    (∃ b, Runs (.rule .input) ls (.blank ls.length) (some []) b) ↔ ∃ x, Sentence ls x := by
  constructor
  · rintro ⟨b, hrun⟩
    obtain ⟨-, trees, hforms⟩ := forms_of_accepted hrun
    obtain ⟨x, -, hx⟩ := build_of_forms hforms
    exact ⟨x, hx⟩
  · rintro ⟨x, hx⟩
    exact runs_of_sentence hx

end Rows

end Sigil.Descent
