import Sigil.Proofs.Spelling

/-! # What may stand side by side

    Two lexemes need a blank between them only when both are identifiers:
    without one they would be a single identifier.  In every other pair the
    first stops where the second begins (`Lexeme.stops_of_valid`), because
    no lexeme begins with a digit, an underscore or the small letter of a
    variant, and only an identifier begins with a letter.

    * `Lexeme.Parts`: a text before which every lexeme stops.
    * `Lexeme.Spells.glue`: a lexeme may be put in front of every text that
      is spelled, blank or no blank. -/

namespace Sigil

namespace Lexeme

/-! ### Texts that part from what is before them -/

/-- Neither a symbol nor a name goes on with the text. -/
def Parts (rest : List Char) : Prop :=
  ∀ c ∈ rest.head?, isNamePart c = false ∧ Symbol.isVariant c = false

theorem parts_nil : Parts [] :=
  nofun

theorem parts_cons {c : Char} (hname : isNamePart c = false) (hvariant : Symbol.isVariant c = false)
    (cs : List Char) : Parts (c :: cs) := by
  intro d hd
  obtain rfl : c = d := by simpa using hd
  exact ⟨hname, hvariant⟩

theorem parts_mark (m : Mark) (cs : List Char) : Parts (m.glyph :: cs) := by
  cases m <;> exact parts_cons (by decide) (by decide) cs

/-- Every lexeme stops before a text that parts from it. -/
theorem Parts.stops {rest : List Char} (h : Parts rest) (l : Lexeme) : l.Stops rest := by
  cases l with
  | symbol s =>
    intro _ c hc
    have hname := (h c hc).1
    rw [isNamePart, Bool.or_eq_false_iff, Char.isAlphanum, Bool.or_eq_false_iff] at hname
    exact ⟨hname.1.2, (h c hc).2⟩
  | identifier name => exact fun c hc => (h c hc).1
  | literal q content => exact trivial
  | connective k => exact trivial
  | mark m => exact trivial

/-! ### How lexemes begin -/

theorem toNat_of_isNamePart {c : Char} (h : isNamePart c = true) :
    48 ≤ c.toNat ∧ c.toNat ≤ 122 := by
  rw [isNamePart, Bool.or_eq_true, Char.isAlphanum, Bool.or_eq_true] at h
  rcases h with (halpha | hdigit) | hunderscore
  · have hrange := Text.toNat_of_isAlpha halpha
    omega
  · have hrange := Text.toNat_of_isDigit hdigit
    omega
  · rw [beq_iff_eq] at hunderscore
    subst hunderscore
    decide

theorem not_isBlank_of_isNamePart {c : Char} (h : isNamePart c = true) :
    Text.isBlank c = false := by
  rw [Bool.eq_false_iff]
  intro hblank
  have hrange := Text.toNat_of_isBlank hblank
  have hname := toNat_of_isNamePart h
  omega

theorem not_isBlank_of_isVariant {c : Char} (h : Symbol.isVariant c = true) :
    Text.isBlank c = false := by
  rw [Bool.eq_false_iff]
  intro hblank
  have hrange := Text.toNat_of_isBlank hblank
  have hvariant := Symbol.toNat_of_isVariant h
  omega

theorem parts_blank {c : Char} (hc : Text.isBlank c = true) (cs : List Char) :
    Parts (c :: cs) := by
  apply parts_cons
  · rw [Bool.eq_false_iff]
    intro hname
    rw [not_isBlank_of_isNamePart hname] at hc
    cases hc
  · rw [Bool.eq_false_iff]
    intro hvariant
    rw [not_isBlank_of_isVariant hvariant] at hc
    cases hc

/-- Is the lexeme an identifier? -/
def isIdentifier : Lexeme → Bool
  | .identifier _ => true
  | _ => false

theorem exists_of_isIdentifier {l : Lexeme} (h : l.isIdentifier = true) :
    ∃ name, l = .identifier name := by
  cases l with
  | identifier name => exact ⟨name, rfl⟩
  | _ => cases h

/-- A lexeme other than an identifier parts from whatever is before it. -/
theorem parts_chars {l : Lexeme} (h : l.isIdentifier = false) (rest : List Char) :
    Parts (l.chars ++ rest) := by
  cases l with
  | symbol s =>
    have hlead := Symbol.toNat_of_isLead s.lead_ok
    apply parts_cons
    · rw [Bool.eq_false_iff]
      intro hname
      have hrange := toNat_of_isNamePart hname
      omega
    · rw [Bool.eq_false_iff]
      intro hvariant
      have hrange := Symbol.toNat_of_isVariant hvariant
      omega
  | identifier name => cases h
  | literal q content => cases q <;> exact parts_cons (by decide) (by decide) _
  | connective k => cases k <;> exact parts_cons (by decide) (by decide) _
  | mark m => exact parts_mark m rest

/-- A lexeme stops before every lexeme, unless both are identifiers. -/
theorem stops_of_valid {l next : Lexeme} (hnext : next.Valid)
    (h : l.isIdentifier = false ∨ next.isIdentifier = false) (rest : List Char) :
    l.Stops (next.chars ++ rest) := by
  cases hidentifier : next.isIdentifier with
  | false => exact (parts_chars hidentifier rest).stops l
  | true =>
    have hl : l.isIdentifier = false := h.resolve_right (by rw [hidentifier]; decide)
    obtain ⟨name, rfl⟩ := exists_of_isIdentifier hidentifier
    obtain ⟨c, cs, hname, halpha, -⟩ := exists_cons_of_isName hnext
    cases l with
    | symbol s =>
      -- a letter is neither a digit nor the letter of a variant
      intro _ d hd
      obtain rfl : c = d := by simpa [chars, hname] using hd
      have hletter := Text.toNat_of_isAlpha halpha
      refine ⟨?_, ?_⟩
      · rw [Bool.eq_false_iff]
        intro hdigit
        have hrange := Text.toNat_of_isDigit hdigit
        omega
      · rw [Bool.eq_false_iff]
        intro hvariant
        have hrange := Symbol.toNat_of_isVariant hvariant
        omega
    | identifier first => cases hl
    | literal q content => exact trivial
    | connective k => exact trivial
    | mark m => exact trivial

/-! ### Putting a lexeme in front -/

/-- Two identifiers without a blank between them are one identifier. -/
theorem valid_identifier_append {first second : String}
    (h₁ : (Lexeme.identifier first).Valid) (h₂ : (Lexeme.identifier second).Valid) :
    (Lexeme.identifier (first ++ second)).Valid := by
  obtain ⟨c, cs, hfirst, hc, hcs⟩ := exists_cons_of_isName h₁
  obtain ⟨d, ds, hsecond, hd, hds⟩ := exists_cons_of_isName h₂
  have hpart : isNamePart d = true := by simp [isNamePart, Char.isAlphanum, hd]
  show isName (first ++ second).toList = true
  rw [String.toList_append, hfirst, hsecond, List.cons_append, isName, hc, List.all_append, hcs,
    List.all_cons, hpart, hds]
  rfl

/-- A lexeme in front of a text that is spelled gives a text that is spelled. -/
theorem Spells.glue {l : Lexeme} (hl : l.Valid) {ls : List Lexeme} {cs : List Char}
    (h : Spells ls cs) : ∃ ms, Spells ms (l.chars ++ cs) := by
  cases h with
  | nil => exact ⟨[l], .cons hl (parts_nil.stops l) .nil⟩
  | blank hc rest => exact ⟨_, .cons hl ((parts_blank hc _).stops l) (.blank hc rest)⟩
  | @cons next ls cs valid stops rest =>
    by_cases hseparate : l.isIdentifier = false ∨ next.isIdentifier = false
    · exact ⟨_, .cons hl (stops_of_valid valid hseparate cs) (.cons valid stops rest)⟩
    · -- the two identifiers run together
      rw [not_or, Bool.not_eq_false, Bool.not_eq_false] at hseparate
      obtain ⟨first, rfl⟩ := exists_of_isIdentifier hseparate.1
      obtain ⟨second, rfl⟩ := exists_of_isIdentifier hseparate.2
      refine ⟨.identifier (first ++ second) :: ls, ?_⟩
      have hchars : (Lexeme.identifier first).chars ++ ((Lexeme.identifier second).chars ++ cs)
          = (Lexeme.identifier (first ++ second)).chars ++ cs := by
        simp [chars]
      rw [hchars]
      exact .cons (valid_identifier_append hl valid) stops rest

end Lexeme

end Sigil
