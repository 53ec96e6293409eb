import Sigil.Proofs.Sentences

/-! # Completing what is read

    Whatever has been read of an expression, the rest of one can follow.
    From every reading there is a row of lexemes to the end of the text:
    close what is open, from the inside out (`Reading.exists_completion`).
    So the rows that a reading takes are those that begin an expression
    (`Grammar.viable_iff`), and a reading never goes on in vain. -/

namespace Sigil

open Grammar

namespace Reading

/-! ### Ways to the end -/

/-- Some row of lexemes leads from the reading to the end of an expression. -/
def Completable (r : Reading) : Prop :=
  ∃ more x, (r.advance more).bind result? = some x

theorem Completable.of_step {r r' : Reading} {l : Lexeme} (hstep : r.step l = some r')
    (h : r'.Completable) : r.Completable := by
  obtain ⟨more, x, hx⟩ := h
  refine ⟨l :: more, x, ?_⟩
  rw [advance_cons, hstep, Option.bind_some]
  exact hx

/-- Behind an operand the open groups can be closed. -/
theorem completable_of_operand {g : Group} {outer : List Group} {site : Site} {x : Expr}
    (h : operand? ⟨g, outer, site⟩ = some x) : Completable ⟨g, outer, site⟩ := by
  induction outer generalizing g site x with
  | nil =>
    refine ⟨[], g.close x, ?_⟩
    show ((operand? ⟨g, [], site⟩).map g.close) = some (g.close x)
    rw [h, Option.map_some]
  | cons g' outer ih =>
    have hstep : step ⟨g, g' :: outer, site⟩ (.mark .closeParen)
        = some ⟨g', outer, .complete (g.close x)⟩ :=
      step_of_operand? h nofun
    exact .of_step hstep (ih rfl)

/-- Behind a value the lists around it can be closed, and then the arguments. -/
theorem completable_fill (g : Group) (outer : List Group) (slot : Slot) (v : Value) :
    Completable ⟨g, outer, slot.fill v⟩ := by
  obtain ⟨s, earlier, key, lists⟩ := slot
  induction lists generalizing v with
  | nil =>
    have hstep : step ⟨g, outer, .filled s (earlier.insert key v)⟩ (.mark .closeParen)
        = some ⟨g, outer, .complete (.call s (earlier.insert key v))⟩ := rfl
    exact .of_step hstep (completable_of_operand rfl)
  | cons items lists ih =>
    have hstep : step ⟨g, outer, .listed ⟨s, earlier, key, lists⟩ (v :: items)⟩
        (.mark .closeBracket)
        = some ⟨g, outer, Slot.fill ⟨s, earlier, key, lists⟩ (.list (v :: items).reverse)⟩ := rfl
    exact .of_step hstep (ih _)

/-- A symbol, to have one. -/
def someSymbol : Symbol :=
  ⟨'Δ', [], ['1'], none, rfl, rfl, by decide, rfl, by decide, rfl⟩

/-- Every reading can be completed. -/
theorem exists_completion (r : Reading) : r.Completable := by
  obtain ⟨g, outer, site⟩ := r
  have hvalue : ∀ slot : Slot, Completable ⟨g, outer, .value slot⟩ := by
    intro slot
    have hstep : step ⟨g, outer, .value slot⟩ (.identifier "a")
        = some ⟨g, outer, slot.fill (.name "a")⟩ := rfl
    exact .of_step hstep (completable_fill g outer slot _)
  have hnamed : ∀ s earlier key, Completable ⟨g, outer, .named s earlier key⟩ := by
    intro s earlier key
    have hstep : step ⟨g, outer, .named s earlier key⟩ (.mark .colon)
        = some ⟨g, outer, .value ⟨s, earlier, key, []⟩⟩ := rfl
    exact .of_step hstep (hvalue _)
  cases site with
  | operand =>
    have hstep : step ⟨g, outer, .operand⟩ (.symbol someSymbol)
        = some ⟨g, outer, .called someSymbol⟩ := rfl
    exact .of_step hstep (completable_of_operand rfl)
  | called s => exact completable_of_operand rfl
  | complete x => exact completable_of_operand rfl
  | name s earlier =>
    have hstep : step ⟨g, outer, .name s earlier⟩ (.identifier "a")
        = some ⟨g, outer, .named s earlier "a"⟩ := rfl
    exact .of_step hstep (hnamed s earlier "a")
  | named s earlier key => exact hnamed s earlier key
  | value slot => exact hvalue slot
  | opened slot =>
    have hstep : step ⟨g, outer, .opened slot⟩ (.mark .closeBracket)
        = some ⟨g, outer, slot.fill (.list [])⟩ := rfl
    exact .of_step hstep (completable_fill g outer slot _)
  | listed slot items =>
    have hstep : step ⟨g, outer, .listed slot items⟩ (.mark .closeBracket)
        = some ⟨g, outer, slot.fill (.list items.reverse)⟩ := rfl
    exact .of_step hstep (completable_fill g outer slot _)
  | filled s arguments =>
    have hstep : step ⟨g, outer, .filled s arguments⟩ (.mark .closeParen)
        = some ⟨g, outer, .complete (.call s arguments)⟩ := rfl
    exact .of_step hstep (completable_of_operand rfl)

end Reading

/-! ### Beginnings of expressions -/

/-- What begins an expression is exactly what can be read. -/
theorem Grammar.viable_iff {ls : List Lexeme} :
    Viable ls ↔ ∃ r, Reading.start.advance ls = some r := by
  constructor
  · rintro ⟨more, x, hx⟩
    have hread := Reading.advance_start_iff.2 hx
    obtain ⟨r', hr', -⟩ := Option.bind_eq_some_iff.1 hread
    rw [Reading.advance_append] at hr'
    obtain ⟨r, hr, -⟩ := Option.bind_eq_some_iff.1 hr'
    exact ⟨r, hr⟩
  · rintro ⟨r, hr⟩
    obtain ⟨more, x, hx⟩ := r.exists_completion
    refine ⟨more, x, Reading.advance_start_iff.1 ?_⟩
    rw [Reading.advance_append_of_eq_some hr]
    exact hx

namespace Reading

/-- What can follow is what the next step takes. -/
theorem viable_concat_iff {ls : List Lexeme} {r : Reading} (h : start.advance ls = some r)
    (l : Lexeme) : Viable (ls ++ [l]) ↔ (r.step l).isSome = true := by
  rw [viable_iff, advance_append_of_eq_some h, Option.isSome_iff_exists]
  have hone : r.advance [l] = r.step l := Option.bind_fun_some _
  rw [hone]

theorem sentence_iff_of_advance {ls : List Lexeme} {r : Reading}
    (h : start.advance ls = some r) (x : Expr) : Sentence ls x ↔ r.result? = some x := by
  rw [← advance_start_iff, h, Option.bind_some]

/-! ### Where a run stops -/

/-- A run stops behind the tokens that fit, at one that does not fit. -/
theorem advance_passed (r : Reading) (tokens : List Token) :
    r.advance ((r.run tokens).passed.map (·.lexeme)) = some (r.run tokens).reading ∧
      ∀ t ∈ (r.run tokens).rest.head?, (r.run tokens).reading.step t.lexeme = none := by
  induction tokens generalizing r with
  | nil => exact ⟨rfl, nofun⟩
  | cons token rest ih =>
    rw [run]
    cases hstep : r.step token.lexeme with
    | none =>
      refine ⟨rfl, ?_⟩
      intro t ht
      obtain rfl : token = t := Option.some.inj ht
      exact hstep
    | some r' =>
      refine ⟨?_, (ih r').2⟩
      show (r.step token.lexeme).bind _ = _
      rw [hstep]
      exact (ih r').1

/-- There is one place at which a reading stops. -/
theorem stop_unique {r r' r'' : Reading} {passed passed' rest rest' : List Lexeme}
    (happ : passed ++ rest = passed' ++ rest')
    (h : r.advance passed = some r') (hstop : ∀ l ∈ rest.head?, r'.step l = none)
    (h' : r.advance passed' = some r'') (hstop' : ∀ l ∈ rest'.head?, r''.step l = none) :
    passed = passed' ∧ r' = r'' := by
  -- what is passed over behind a stop is nothing
  have hnil : ∀ {r₁ r₂ : Reading} {ls ms : List Lexeme},
      (∀ l ∈ (ls ++ ms).head?, r₁.step l = none) → r₁.advance ls = some r₂ → ls = [] := by
    intro r₁ r₂ ls ms hnone hsome
    cases ls with
    | nil => rfl
    | cons l ls =>
      rw [advance_cons, hnone l rfl] at hsome
      cases hsome
  rcases List.append_eq_append_iff.1 happ with ⟨es, rfl, rfl⟩ | ⟨es, rfl, rfl⟩
  · rw [advance_append_of_eq_some h] at h'
    obtain rfl := hnil hstop h'
    exact ⟨(List.append_nil passed).symm, Option.some.inj h'⟩
  · rw [advance_append_of_eq_some h'] at h
    obtain rfl := hnil hstop' h
    exact ⟨List.append_nil passed', (Option.some.inj h).symm⟩

theorem run_unique {r r' : Reading} {tokens : List Token} {passed rest : List Lexeme}
    (happ : tokens.map (·.lexeme) = passed ++ rest) (h : r.advance passed = some r')
    (hstop : ∀ l ∈ rest.head?, r'.step l = none) :
    (r.run tokens).rest.length = rest.length ∧ (r.run tokens).reading = r' := by
  obtain ⟨hadvance, hhalt⟩ := advance_passed r tokens
  have htokens : (r.run tokens).passed.map (·.lexeme) ++ (r.run tokens).rest.map (·.lexeme)
      = passed ++ rest := by
    rw [← List.map_append, passed_append_rest, happ]
  have hhalt' : ∀ l ∈ ((r.run tokens).rest.map (·.lexeme)).head?,
      (r.run tokens).reading.step l = none := by
    intro l hl
    rw [List.head?_map] at hl
    obtain ⟨t, ht, rfl⟩ := Option.map_eq_some_iff.1 hl
    exact hhalt t ht
  obtain ⟨hpassed, hreading⟩ := stop_unique htokens hadvance hhalt' h hstop
  rw [hpassed] at htokens
  refine ⟨?_, hreading⟩
  rw [← List.append_cancel_left htokens, List.length_map]

end Reading

end Sigil
