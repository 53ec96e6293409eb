import Sigil.Proofs.Language
import Sigil.Proofs.Segmentation
import Mathlib.Tactic.TFAE

/-! # Symbols on their own

    A text that is one symbol can be met with in three ways: it is read as
    a symbol, it is cut into tokens, or it is read as an expression.  The
    three agree with each other and with the pattern of symbols, and the
    parts of a symbol can be found in its text again
    (`Symbol.recognition_is_exact`). -/

namespace Sigil

open Grammar

theorem Lexeme.eq_symbol_of_kind {l : Lexeme} (h : l.kind = "SYMBOL") : ∃ s, l = .symbol s := by
  cases l with
  | symbol s => exact ⟨s, rfl⟩
  | identifier | literal => simp [kind] at h
  | connective c => cases c <;> simp [kind, Connective.name] at h
  | mark m => cases m <;> simp [kind, Mark.name] at h

namespace Symbol

/-! ### The parts in the text -/

theorem isCapital_of_isLead {c : Char} (h : isLead c = true) : isCapital c = true := by
  have hall : leads.all isCapital = true := by decide
  exact List.all_eq_true.1 hall c (List.contains_iff_mem.1 h)

theorem isDigit_eq_false_of_isCapital {c : Char} (h : isCapital c = true) :
    c.isDigit = false := by
  rw [Bool.eq_false_iff]
  intro hdigit
  rw [isCapital_eq_false_of_isDigit hdigit] at h
  cases h

theorem isVariant_eq_false_of_isDigit {c : Char} (h : c.isDigit = true) :
    isVariant c = false := by
  rw [Bool.eq_false_iff]
  intro hvariant
  rw [isDigit_eq_false_of_isVariant hvariant] at h
  cases h

/-- The leading letter and the capitals behind it. -/
def letters (s : Symbol) : List Char :=
  s.lead :: s.capitals

theorem chars_eq (s : Symbol) : s.chars = s.letters ++ (s.index ++ s.variant.toList) := by
  simp [chars, letters]

theorem all_letters (s : Symbol) : s.letters.all isCapital = true := by
  rw [letters, List.all_cons, isCapital_of_isLead s.lead_ok, s.capitals_ok]
  rfl

/-- Behind the letters stands a digit. -/
theorem isDigit_of_mem_head? (s : Symbol) :
    ∀ c ∈ (s.index ++ s.variant.toList).head?, c.isDigit = true := by
  cases hindex : s.index with
  | nil => exact absurd hindex s.index_ne
  | cons d ds =>
    intro c hc
    obtain rfl : d = c := by simpa using hc
    exact List.all_eq_true.1 s.index_ok d (hindex ▸ List.mem_cons_self)

theorem isDigit_eq_false_of_mem_variant (s : Symbol) :
    ∀ c ∈ s.variant.toList, c.isDigit = false := by
  intro c hc
  have hc' : isVariant c = true :=
    (Option.all_eq_true _ _).1 s.variant_ok c (Option.mem_toList.1 hc)
  exact isDigit_eq_false_of_isVariant hc'

theorem takeWhile_isCapital_chars (s : Symbol) : s.chars.takeWhile isCapital = s.letters := by
  rw [chars_eq]
  exact Text.takeWhile_append_of_stop s.all_letters fun c hc =>
    isCapital_eq_false_of_isDigit (s.isDigit_of_mem_head? c hc)

theorem dropWhile_isCapital_chars (s : Symbol) :
    s.chars.dropWhile isCapital = s.index ++ s.variant.toList := by
  rw [chars_eq]
  exact Text.dropWhile_append_of_stop s.all_letters fun c hc =>
    isCapital_eq_false_of_isDigit (s.isDigit_of_mem_head? c hc)

theorem takeWhile_isDigit_rest (s : Symbol) :
    (s.index ++ s.variant.toList).takeWhile Char.isDigit = s.index :=
  Text.takeWhile_append_of_stop s.index_ok fun c hc =>
    s.isDigit_eq_false_of_mem_variant c (List.mem_of_mem_head? hc)

/-- Cutting off what is no digit at the front leaves the index and the variant, and
cutting it off at the end leaves the index. -/
theorem digits_eq (s : Symbol) : s.digits = String.ofList s.index := by
  have hletters : s.letters.all (fun c => !c.isDigit) = true := by
    refine List.all_eq_true.2 fun c hc => ?_
    rw [isDigit_eq_false_of_isCapital (List.all_eq_true.1 s.all_letters c hc)]
    rfl
  have hfront : s.chars.dropWhile (fun c => !c.isDigit) = s.index ++ s.variant.toList := by
    rw [chars_eq]
    refine Text.dropWhile_append_of_stop hletters fun c hc => ?_
    rw [s.isDigit_of_mem_head? c hc]
    rfl
  have hvariant : s.variant.toList.reverse.all (fun c => !c.isDigit) = true := by
    refine List.all_eq_true.2 fun c hc => ?_
    rw [s.isDigit_eq_false_of_mem_variant c (List.mem_reverse.1 hc)]
    rfl
  have hend : (s.index ++ s.variant.toList).reverse.dropWhile (fun c => !c.isDigit)
      = s.index.reverse := by
    rw [List.reverse_append]
    refine Text.dropWhile_append_of_stop hvariant fun c hc => ?_
    rw [List.all_eq_true.1 s.index_ok c (List.mem_reverse.1 (List.mem_of_mem_head? hc))]
    rfl
  rw [digits, toList_text]
  simp only [hfront, hend, List.reverse_reverse]

/-- The last character is the variant, or it is a digit, which is no variant. -/
theorem suffix?_eq (s : Symbol) : s.suffix? = s.variant := by
  rw [suffix?, toList_text, chars_eq]
  cases hvariant : s.variant with
  | some v =>
    have hv : isVariant v = true := (Option.all_eq_true _ _).1 s.variant_ok v hvariant
    simp [hv]
  | none =>
    obtain ⟨d, hd⟩ : ∃ d, s.index.getLast? = some d :=
      ⟨_, List.getLast?_eq_some_getLast s.index_ne⟩
    have hdigit : d.isDigit = true :=
      List.all_eq_true.1 s.index_ok d (List.mem_of_getLast? hd)
    have hnot := isVariant_eq_false_of_isDigit hdigit
    simp [hd, hnot]

/-- A text is its letters, its index and its variant. -/
theorem text_eq (s : Symbol) :
    s.text = String.ofList s.letters ++ s.digits ++ (s.suffix?.map String.singleton).getD "" := by
  have hsuffix : (s.variant.map String.singleton).getD "" = String.ofList s.variant.toList := by
    cases s.variant with
    | none => rfl
    | some v => exact String.singleton_eq_ofList
  rw [digits_eq, suffix?_eq, hsuffix, ← String.ofList_append, ← String.ofList_append,
    List.append_assoc, ← chars_eq, text]

/-! ### Recognition -/

/-- A text is read as the symbol whose text it is. -/
theorem parse_eq_ok_iff {text : String} {s : Symbol} :
    Symbol.parse text = .ok s ↔ s.text = text := by
  rw [← parse?_eq_some_iff, Symbol.parse]
  cases parse? text <;> simp

/-- The text of a symbol is cut into that symbol alone. -/
theorem readAll_text (s : Symbol) :
    Token.readAll s.text = .ok [⟨.symbol s, 0, Text.width s.chars⟩] := by
  have hstops : (Lexeme.symbol s).Stops [] := fun _ _ hc => nomatch hc
  have hread := Token.readFrom_chars_append (l := .symbol s) trivial hstops 0
  rw [Token.readFrom, List.append_nil, Nat.zero_add] at hread
  rw [Token.readAll, toList_text]
  exact hread

/-- The text of a symbol is read as that symbol, called without arguments. -/
theorem expr_parse_text (s : Symbol) : Expr.parse s.text = .ok (.call s .empty) := by
  refine Expr.parse_eq_ok_iff.2 ⟨_, readAll_text s, rfl, ?_⟩
  exact (Layer.symbol s).loosen (Nat.le_refl _) (by decide)

/-- A text is read as a symbol exactly when its only token is a symbol that is the whole
text, exactly when it is read as the call of a symbol that is the whole text, without
arguments, and exactly when it fits the pattern of symbols.  Such a text is its one to
three leading capitals, the run of digits behind them, and the mark of the variant if
there is one; and these are the parts that the symbol gives out. -/
theorem recognition_is_exact (text : String) :
    [∃ s, Symbol.parse text = .ok s,
      ∃ t, Token.readAll text = .ok [t] ∧ t.lexeme.kind = "SYMBOL" ∧ t.lexeme.text = text,
      ∃ s, Expr.parse text = .ok (.call s .empty) ∧ s.text = text,
      IsWord "SYMBOL" text.toList].TFAE ∧
    ∀ s, Symbol.parse text = .ok s →
      let capitals := text.toList.takeWhile isCapital
      let rest := text.toList.dropWhile isCapital
      s.text = text ∧
      text = String.ofList capitals ++ s.digits ++ (s.suffix?.map String.singleton).getD "" ∧
      (1 ≤ capitals.length ∧ capitals.length ≤ 3) ∧
      s.digits = String.ofList (rest.takeWhile Char.isDigit) ∧ s.digits ≠ "" ∧
      s.suffix?.all isVariant = true := by
  refine ⟨?_, ?_⟩
  · tfae_have 1 → 2 := by
      rintro ⟨s, hs⟩
      obtain rfl := parse_eq_ok_iff.1 hs
      exact ⟨_, readAll_text s, rfl, rfl⟩
    tfae_have 2 → 1 := by
      rintro ⟨t, -, hkind, htext⟩
      obtain ⟨s, hs⟩ := Lexeme.eq_symbol_of_kind hkind
      rw [hs] at htext
      exact ⟨s, parse_eq_ok_iff.2 htext⟩
    tfae_have 1 → 3 := by
      rintro ⟨s, hs⟩
      obtain rfl := parse_eq_ok_iff.1 hs
      exact ⟨s, expr_parse_text s, rfl⟩
    tfae_have 3 → 1 := by
      rintro ⟨s, -, htext⟩
      exact ⟨s, parse_eq_ok_iff.2 htext⟩
    tfae_have 1 → 4 := by
      rintro ⟨s, hs⟩
      obtain rfl := parse_eq_ok_iff.1 hs
      exact Lexeme.isWord_iff.2 ⟨.symbol s, trivial, rfl, s.toList_text.symm⟩
    tfae_have 4 → 1 := by
      intro h
      obtain ⟨l, -, hkind, hchars⟩ := Lexeme.isWord_iff.1 h
      obtain ⟨s, rfl⟩ := Lexeme.eq_symbol_of_kind hkind
      exact ⟨s, parse_eq_ok_iff.2 (String.toList_inj.1 (s.toList_text.trans hchars))⟩
    tfae_finish
  · intro s hs
    obtain rfl := parse_eq_ok_iff.1 hs
    simp only [toList_text, takeWhile_isCapital_chars, dropWhile_isCapital_chars,
      takeWhile_isDigit_rest]
    have hlength : s.letters.length = s.capitals.length + 1 := rfl
    have hle := s.capitals_le
    refine ⟨trivial, s.text_eq, ⟨by omega, by omega⟩, s.digits_eq, ?_, ?_⟩
    · rw [digits_eq]
      intro hempty
      exact s.index_ne (String.ofList_eq_empty_iff.1 hempty)
    · rw [suffix?_eq]
      exact s.variant_ok

end Symbol

end Sigil
