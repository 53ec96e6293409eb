import Sigil.Proofs.Parsing
import Sigil.Proofs.Seams

/-! # Blanks around a text

    A text without the blanks around it is read as the text with them, also
    when it cannot be cut into tokens: what makes a place unreadable is
    never a blank, and a literal that is not closed is not closed by
    blanks.  So both texts are the same expression or have the same fault
    (`Expr.fault_parse_trim`); only the places differ.  Where just the
    blanks at the end are cut off, the tokens keep their places too
    (`Token.fault_readAll_trimEnd`). -/

namespace Sigil

open Lexeme

/-! ### Outcomes but for the place -/

section Outcomes

variable {α β : Type}

theorem mapError_fault_map (f : α → β) (e : Except Refusal α) :
    (e.map f).mapError (·.fault) = (e.mapError (·.fault)).map f := by
  cases e <;> rfl

variable {e e' : Except Refusal α} (h : e'.mapError (·.fault) = e.mapError (·.fault))

include h

theorem eq_ok_of_fault_eq {a : α} (he : e = .ok a) : e' = .ok a := by
  rw [he] at h
  cases e' with
  | ok b => exact congrArg Except.ok (Except.ok.inj h)
  | error r => cases h

theorem eq_error_of_fault_eq {r : Refusal} (he : e = .error r) :
    ∃ span, e' = .error ⟨r.fault, span⟩ := by
  rw [he] at h
  cases e' with
  | ok a => cases h
  | error r' =>
    have hfault : r'.fault = r.fault := Except.error.inj h
    exact ⟨r'.span, by rw [← hfault]⟩

end Outcomes

namespace Token

/-! ### Lexemes without their places -/

/-- The lexemes of a text that begins with `cs`, or the fault for which there are none. -/
def lexemesFrom (start : Nat) (cs : List Char) : Except Fault (List Lexeme) :=
  ((readFrom start cs).map (·.map (·.lexeme))).mapError (·.fault)

theorem lexemesFrom_nil (start : Nat) : lexemesFrom start [] = .ok [] := by
  rw [lexemesFrom, readFrom]
  rfl

theorem lexemesFrom_blank {c : Char} (hc : Text.isBlank c = true) (start : Nat)
    (cs : List Char) : lexemesFrom start (c :: cs) = lexemesFrom (start + c.utf8Size) cs := by
  rw [lexemesFrom, readFrom_blank hc]
  rfl

theorem lexemesFrom_chars_append {l : Lexeme} {cs : List Char} (hvalid : l.Valid)
    (hstops : l.Stops cs) (start : Nat) :
    lexemesFrom start (l.chars ++ cs)
      = (lexemesFrom (start + Text.width l.chars) cs).map (l :: ·) := by
  rw [lexemesFrom, readFrom_chars_append hvalid hstops, lexemesFrom]
  cases readFrom (start + Text.width l.chars) cs <;> rfl

/-- The fault of a place that cannot be read lies in its first character. -/
theorem fault_unscannable (start start' : Nat) (c : Char) (cs ds : List Char) :
    (unscannable start c cs).fault = (unscannable start' c ds).fault := by
  unfold unscannable
  cases Quote.ofChar? c <;> rfl

theorem lexemesFrom_stuck {c : Char} {cs : List Char} (hc : Text.isBlank c = false)
    (hscan : scan (c :: cs) = none) (start : Nat) :
    lexemesFrom start (c :: cs) = .error (unscannable 0 c []).fault := by
  rw [lexemesFrom, readFrom_stuck hc hscan, fault_unscannable 0 start c [] cs]
  rfl

/-- Lexemes do not depend on where a text begins. -/
theorem lexemesFrom_start (start start' : Nat) (cs : List Char) :
    lexemesFrom start cs = lexemesFrom start' cs := by
  induction cs using text_induction generalizing start start' with
  | nil => rw [lexemesFrom_nil, lexemesFrom_nil]
  | blank c cs hc ih =>
    rw [lexemesFrom_blank hc, lexemesFrom_blank hc]
    exact ih _ _
  | lexeme l cs hvalid hstops ih =>
    rw [lexemesFrom_chars_append hvalid hstops, lexemesFrom_chars_append hvalid hstops]
    exact congrArg (Except.map (l :: ·)) (ih _ _)
  | stuck c cs hc hscan => rw [lexemesFrom_stuck hc hscan, lexemesFrom_stuck hc hscan]

/-! ### Blanks behind a text -/

theorem lexemesFrom_blanks_append {gap : List Char} (hgap : gap.all Text.isBlank = true)
    (start : Nat) (cs : List Char) : lexemesFrom start (gap ++ cs) = lexemesFrom start cs := by
  induction gap generalizing start with
  | nil => rfl
  | cons c gap ih =>
    rw [List.all_cons, Bool.and_eq_true] at hgap
    rw [List.cons_append, lexemesFrom_blank hgap.1, ih hgap.2]
    exact lexemesFrom_start _ _ cs

end Token

/-- No character of a symbol is a blank. -/
theorem Symbol.not_isBlank_of_mem {s : Symbol} {c : Char} (hc : c ∈ s.chars) :
    Text.isBlank c = false := by
  rw [Bool.eq_false_iff]
  intro hblank
  have hrange := Text.toNat_of_isBlank hblank
  rw [chars, List.mem_cons, List.mem_append, List.mem_append, Option.mem_toList] at hc
  rcases hc with rfl | (hcapital | hdigit) | hvariant
  · have hlead := toNat_of_isLead s.lead_ok
    omega
  · have hletter := toNat_of_isCapital (List.all_eq_true.1 s.capitals_ok c hcapital)
    omega
  · have hindex := Text.toNat_of_isDigit (List.all_eq_true.1 s.index_ok c hdigit)
    omega
  · have hok := s.variant_ok
    rw [hvariant] at hok
    have hletter := toNat_of_isVariant hok
    omega

namespace Lexeme

/-- Only what stands between quotes can be blank. -/
theorem Valid.exists_literal_of_isBlank {l : Lexeme} {c : Char} (h : l.Valid)
    (hc : c ∈ l.chars) (hblank : Text.isBlank c = true) :
    ∃ q content, l = .literal q content ∧ c ∈ content.toList := by
  have hne (d : Char) (hd : Text.isBlank d = false) : c ≠ d := by
    rintro rfl
    rw [hd] at hblank
    cases hblank
  cases l with
  | symbol s =>
    rw [s.not_isBlank_of_mem hc] at hblank
    cases hblank
  | identifier name =>
    obtain ⟨d, ds, hname, halpha, hall⟩ := exists_cons_of_isName h
    have hpart : isNamePart d = true := by simp [isNamePart, Char.isAlphanum, halpha]
    have hmem : c ∈ d :: ds := by rwa [← hname]
    rcases List.mem_cons.1 hmem with rfl | hmem
    · exact absurd rfl (hne c (not_isBlank_of_isNamePart hpart))
    · exact absurd rfl (hne c (not_isBlank_of_isNamePart (List.all_eq_true.1 hall c hmem)))
  | literal q content =>
    have hquote : c ≠ q.char := hne q.char (by cases q <;> decide)
    refine ⟨q, content, rfl, ?_⟩
    simpa [chars, hquote] using hc
  | connective k => exact absurd (List.mem_singleton.1 hc) (hne k.glyph (by cases k <;> decide))
  | mark m => exact absurd (List.mem_singleton.1 hc) (hne m.glyph (by cases m <;> decide))

/-- No lexeme ends with a blank. -/
theorem Valid.not_isBlank_getLast {l : Lexeme} {c : Char} (h : l.Valid)
    (hc : c ∈ l.chars.getLast?) : Text.isBlank c = false := by
  rw [Bool.eq_false_iff]
  intro hblank
  obtain ⟨q, content, rfl, -⟩ :=
    h.exists_literal_of_isBlank (List.mem_of_mem_getLast? hc) hblank
  obtain rfl : q.char = c := by simpa [chars, List.getLast?_cons] using hc
  cases q <;> exact absurd hblank (by decide)

/-- Whether a lexeme stops before a text is decided by the first character. -/
theorem Stops.of_cons {l : Lexeme} {c : Char} {rest rest' : List Char} (h : l.Stops (c :: rest)) :
    l.Stops (c :: rest') := by
  cases l with
  | symbol s => exact h
  | identifier name => exact h
  | literal q content => exact trivial
  | connective k => exact trivial
  | mark m => exact trivial

/-- A lexeme that stops before a text with something behind it stops before the text. -/
theorem Stops.of_append {l : Lexeme} {rest more : List Char} (h : l.Stops (rest ++ more)) :
    l.Stops rest := by
  cases rest with
  | nil => exact parts_nil.stops l
  | cons c rest => exact h.of_cons

/-- Blanks behind a text do not make a lexeme go on. -/
theorem Stops.append_blanks {l : Lexeme} {rest gap : List Char} (h : l.Stops rest)
    (hgap : gap.all Text.isBlank = true) : l.Stops (rest ++ gap) := by
  cases rest with
  | cons c rest => exact h.of_cons
  | nil =>
    cases gap with
    | nil => exact h
    | cons c gap =>
      rw [List.all_cons, Bool.and_eq_true] at hgap
      exact (parts_blank hgap.1 gap).stops l

/-- Behind a place that cannot be read, blanks do not help. -/
theorem scan_append_blanks {cs gap : List Char} (hne : cs ≠ []) (hscan : scan cs = none)
    (hgap : gap.all Text.isBlank = true) : scan (cs ++ gap) = none := by
  cases hsome : scan (cs ++ gap) with
  | none => rfl
  | some found =>
    obtain ⟨l, rest⟩ := found
    obtain ⟨happ, hvalid, hstops⟩ := scan_eq_some_iff.1 hsome
    rcases List.append_eq_append_iff.1 happ with ⟨es, hchars, hrest⟩ | ⟨es, rfl, rfl⟩
    · -- the lexeme would end in the blanks, or just before them
      cases hlast : es.getLast? with
      | some c =>
        have hblank : Text.isBlank c = true := by
          apply List.all_eq_true.1 hgap
          rw [hrest]
          exact List.mem_append_left _ (List.mem_of_mem_getLast? hlast)
        have hend : c ∈ l.chars.getLast? := by
          rw [hchars, List.getLast?_append, hlast]
          rfl
        rw [hvalid.not_isBlank_getLast hend] at hblank
        cases hblank
      | none =>
        obtain rfl := List.getLast?_eq_none_iff.1 hlast
        have halone := scan_chars_append hvalid (parts_nil.stops l)
        rw [hchars, List.append_nil, List.append_nil, hscan] at halone
        cases halone
    · have halone := scan_chars_append hvalid hstops.of_append
      rw [hscan] at halone
      cases halone

end Lexeme

namespace Token

theorem readFrom_blanks {gap : List Char} (hgap : gap.all Text.isBlank = true) (start : Nat) :
    readFrom start gap = .ok [] := by
  induction gap generalizing start with
  | nil => rw [readFrom]
  | cons c gap ih =>
    rw [List.all_cons, Bool.and_eq_true] at hgap
    rw [readFrom_blank hgap.1, ih hgap.2]

/-- Blanks behind a text change neither its tokens nor the fault for which there are none. -/
theorem fault_readFrom_append_blanks {gap : List Char} (hgap : gap.all Text.isBlank = true)
    (start : Nat) (cs : List Char) :
    (readFrom start (cs ++ gap)).mapError (·.fault)
      = (readFrom start cs).mapError (·.fault) := by
  induction cs using text_induction generalizing start with
  | nil => rw [List.nil_append, readFrom_blanks hgap, readFrom]
  | blank c cs hc ih =>
    rw [List.cons_append, readFrom_blank hc, readFrom_blank hc]
    exact ih _
  | lexeme l cs hvalid hstops ih =>
    rw [List.append_assoc, readFrom_chars_append hvalid (hstops.append_blanks hgap),
      readFrom_chars_append hvalid hstops, mapError_fault_map, mapError_fault_map, ih]
  | stuck c cs hc hscan =>
    have hscan' := scan_append_blanks (List.cons_ne_nil c cs) hscan hgap
    rw [List.cons_append] at hscan' ⊢
    rw [readFrom_stuck hc hscan', readFrom_stuck hc hscan]
    exact congrArg Except.error (fault_unscannable start start c _ _)

theorem lexemesFrom_append_blanks {gap : List Char} (hgap : gap.all Text.isBlank = true)
    (start : Nat) (cs : List Char) : lexemesFrom start (cs ++ gap) = lexemesFrom start cs := by
  rw [lexemesFrom, mapError_fault_map, fault_readFrom_append_blanks hgap, ← mapError_fault_map,
    lexemesFrom]

/-- The blanks around a text do not count. -/
theorem lexemesFrom_dropBlanks (start : Nat) (cs : List Char) :
    lexemesFrom start (Text.dropBlanks cs) = lexemesFrom start cs := by
  obtain ⟨gap, hgap, happ⟩ := Text.dropEndBlanks_append (cs.dropWhile Text.isBlank)
  calc lexemesFrom start (Text.dropBlanks cs)
      = lexemesFrom start (Text.dropBlanks cs ++ gap) :=
        (lexemesFrom_append_blanks hgap start _).symm
    _ = lexemesFrom start (cs.dropWhile Text.isBlank) := by rw [Text.dropBlanks, ← happ]
    _ = lexemesFrom start (cs.takeWhile Text.isBlank ++ cs.dropWhile Text.isBlank) :=
        (lexemesFrom_blanks_append List.all_takeWhile start _).symm
    _ = lexemesFrom start cs := by rw [List.takeWhile_append_dropWhile]

end Token

namespace Expr

/-- Texts with the same lexemes are the same expression or have the same fault. -/
theorem fault_parse_eq {text text' : String}
    (h : Token.lexemesFrom 0 text.toList = Token.lexemesFrom 0 text'.toList) :
    (parse text).mapError (·.fault) = (parse text').mapError (·.fault) := by
  rw [parse_eq, parse_eq]
  rw [Token.lexemesFrom, Token.lexemesFrom] at h
  unfold Token.readAll
  cases hl : Token.readFrom 0 text.toList with
  | error r =>
    cases hr : Token.readFrom 0 text'.toList with
    | error r' =>
      rw [hl, hr] at h
      have hfault : r.fault = r'.fault := Except.error.inj h
      show Except.error r.fault = Except.error r'.fault
      rw [hfault]
    | ok tokens' =>
      rw [hl, hr] at h
      cases h
  | ok tokens =>
    cases hr : Token.readFrom 0 text'.toList with
    | error r' =>
      rw [hl, hr] at h
      cases h
    | ok tokens' =>
      rw [hl, hr] at h
      have hlexemes : tokens.map (·.lexeme) = tokens'.map (·.lexeme) := Except.ok.inj h
      show (ofTokens (Text.width text.toList) tokens).mapError (·.fault)
        = (ofTokens (Text.width text'.toList) tokens').mapError (·.fault)
      have hagree := ofTokens_agree (Text.width text.toList) (Text.width text'.toList) hlexemes
      generalize ofTokens _ tokens = outcome, ofTokens _ tokens' = outcome' at hagree ⊢
      cases hagree with
      | ok x => rfl
      | error fault place => rfl

/-- A text without the blanks around it is the same expression or has the same fault. -/
theorem fault_parse_trim (text : String) :
    (parse (Text.trim text)).mapError (·.fault) = (parse text).mapError (·.fault) := by
  apply fault_parse_eq
  rw [Text.trim, String.toList_ofList, Token.lexemesFrom_dropBlanks]

theorem parse_trim_of_ok {text : String} {x : Expr} (h : parse text = .ok x) :
    parse (Text.trim text) = .ok x :=
  eq_ok_of_fault_eq (fault_parse_trim text) h

theorem parse_trim_of_error {text : String} {r : Refusal} (h : parse text = .error r) :
    ∃ span, parse (Text.trim text) = .error ⟨r.fault, span⟩ :=
  eq_error_of_fault_eq (fault_parse_trim text) h

end Expr

/-! ### Texts without the blanks at their end -/

namespace Text

/-- The texts differ at most in the blanks at their end. -/
def SameButEnd (s t : String) : Prop :=
  ∃ cs gap gap' : List Char, gap.all isBlank = true ∧ gap'.all isBlank = true ∧
    s.toList = cs ++ gap ∧ t.toList = cs ++ gap'

theorem dropEndBlanks_append_blanks {gap : List Char} (hgap : gap.all isBlank = true)
    (cs : List Char) : dropEndBlanks (cs ++ gap) = dropEndBlanks cs := by
  have hreverse : gap.reverse.all isBlank = true := by rwa [List.all_reverse]
  rw [dropEndBlanks, List.reverse_append,
    List.dropWhile_append_of_pos (List.all_eq_true.1 hreverse), dropEndBlanks]

theorem SameButEnd.trimEnd_eq {s t : String} (h : SameButEnd s t) : trimEnd s = trimEnd t := by
  obtain ⟨cs, gap, gap', hgap, hgap', hs, ht⟩ := h
  rw [trimEnd, trimEnd, hs, ht, dropEndBlanks_append_blanks hgap,
    dropEndBlanks_append_blanks hgap']

theorem exists_trimEnd_append (text : String) :
    ∃ gap : List Char, gap.all isBlank = true ∧ text.toList = (trimEnd text).toList ++ gap := by
  rw [trimEnd, String.toList_ofList]
  exact dropEndBlanks_append text.toList

end Text

theorem Token.fault_readAll_trimEnd (text : String) :
    (readAll (Text.trimEnd text)).mapError (·.fault) = (readAll text).mapError (·.fault) := by
  obtain ⟨gap, hgap, happ⟩ := Text.exists_trimEnd_append text
  rw [readAll, readAll, happ, fault_readFrom_append_blanks hgap]

theorem Expr.fault_parse_trimEnd (text : String) :
    (parse (Text.trimEnd text)).mapError (·.fault) = (parse text).mapError (·.fault) := by
  apply fault_parse_eq
  obtain ⟨gap, hgap, happ⟩ := Text.exists_trimEnd_append text
  rw [happ, Token.lexemesFrom_append_blanks hgap]

end Sigil
