import Sigil.Proofs.Descent.Words

/-! # Tokens and symbols by descent

    A text can be cut into tokens by the rules of the grammar, and a symbol
    can be told by them.  The rule about the first token of a text finds the
    lexeme that is scanned there (`Descent.readToken_eq_scan`), and the rule
    about a text that is nothing but a symbol finds the symbol that the text
    is (`Descent.readSymbol_eq_parse?`). -/

namespace Sigil.Descent

open Text Token Lexeme

/-! ### The first token -/

section Choice

variable {r : Rule} {rs : List Rule} {cs rest : List Char} {l : Lexeme} (length depth : Nat)
  (b : Book)

/-- Of rules about single tokens, one of which a scanned lexeme fits, the reader finds one
that it fits. -/
theorem read_oneOf (hscan : scan cs = some (l, rest)) (hleaf : ∀ s ∈ r :: rs, s.body = .lexeme s)
    (hfits : ∃ s ∈ r :: rs, s.fits l = true) :
    ∃ s b', s.fits l = true ∧
      (Pattern.oneOf r rs).read length (Rule.read length (depth + 1)) .spaced (.before cs) b
        = .found [.leaf s l ⟨length - width cs, length - width rest⟩] (.before rest) b' := by
  -- along the rules, in the order in which they are tried
  induction rs generalizing r b with
  | nil =>
    obtain ⟨s, hs, hfits⟩ := hfits
    obtain rfl := List.mem_singleton.1 hs
    exact ⟨s, b, hfits, read_leaf spaced_ne_atomic (hleaf s hs) hscan hfits⟩
  | cons s rs ih =>
    obtain ⟨hr, hrs⟩ := List.forall_mem_cons.1 hleaf
    show ∃ s' b', _ ∧ (Rule.read length (depth + 1) .spaced r (.before cs) b).orElse _ = _
    cases hfirst : r.fits l with
    | true =>
      rw [read_leaf spaced_ne_atomic hr hscan hfirst]
      exact ⟨r, b, hfirst, rfl⟩
    | false =>
      have hnone : ∀ l' rest', scan cs = some (l', rest') → r.fits l' = false := by
        intro l' rest' hscan'
        rw [hscan] at hscan'
        cases hscan'
        exact hfirst
      have hothers : ∃ t ∈ s :: rs, t.fits l = true := by
        obtain ⟨t, ht, hfits⟩ := hfits
        rcases List.mem_cons.1 ht with rfl | ht
        · rw [hfirst] at hfits
          cases hfits
        · exact ⟨t, ht, hfits⟩
      rw [read_noLeaf spaced_ne_atomic hr hnone]
      exact ih _ hrs hothers

/-- Where no lexeme is scanned, all rules about single tokens fail. -/
theorem read_noneOf (hscan : scan cs = none) (hleaf : ∀ s ∈ r :: rs, s.body = .lexeme s) :
    ∃ b', (Pattern.oneOf r rs).read length (Rule.read length (depth + 1)) .spaced (.before cs) b
      = .failed b' := by
  have hnone : ∀ r : Rule, ∀ l rest, scan cs = some (l, rest) → r.fits l = false := by
    intro r l rest hscan'
    rw [hscan] at hscan'
    cases hscan'
  induction rs generalizing r b with
  | nil => exact ⟨_, read_noLeaf spaced_ne_atomic (hleaf r List.mem_cons_self) (hnone r)⟩
  | cons s rs ih =>
    obtain ⟨hr, hrs⟩ := List.forall_mem_cons.1 hleaf
    show ∃ b', (Rule.read length (depth + 1) .spaced r (.before cs) b).orElse _ = _
    rw [read_noLeaf spaced_ne_atomic hr (hnone r)]
    exact ih _ hrs

end Choice

/-- Every lexeme fits one of the rules about tokens. -/
theorem exists_fits (l : Lexeme) :
    ∃ r ∈ Rule.symbol :: ([.identifier, .literal] ++ Connective.all.map Rule.connective
      ++ Mark.all.map Rule.mark), Rule.fits r l = true := by
  cases l with
  | symbol => exact ⟨.symbol, by simp, rfl⟩
  | identifier => exact ⟨.identifier, by simp, rfl⟩
  | literal => exact ⟨.literal, by simp, rfl⟩
  | connective c =>
    have hmem := c.mem_all
    exact ⟨.connective c, by simp [hmem], beq_self_eq_true c⟩
  | mark m => exact ⟨.mark m, by cases m <;> decide, beq_self_eq_true m⟩

theorem body_of_mem_tokens {r : Rule}
    (h : r ∈ Rule.symbol :: ([.identifier, .literal] ++ Connective.all.map Rule.connective
      ++ Mark.all.map Rule.mark)) : r.body = .lexeme r := by
  cases r with
  | symbol | identifier | literal | connective | mark => rfl
  | _ => simp at h

/-- The first token by the rules of the grammar is the lexeme that is scanned. -/
theorem readToken_eq_scan (cs : List Char) :
    (∀ l rest, scan cs = some (l, rest) → ∃ r b, r.fits l = true ∧
      readToken cs = .found [.leaf r l ⟨0, width l.chars⟩] (.before rest) b) ∧
    (scan cs = none → ∃ b, readToken cs = .failed b) := by
  constructor
  · intro l rest hscan
    obtain ⟨r, b, hfits, hread⟩ := read_oneOf (width cs) 0 (.blank (width cs)) hscan
      (fun _ => body_of_mem_tokens) (exists_fits l)
    have hwidth : width cs - width rest = width l.chars := by
      rw [scan_append hscan, width_append, Nat.add_sub_cancel]
    rw [Nat.sub_self, hwidth] at hread
    exact ⟨r, b, hfits, hread⟩
  · intro hscan
    exact read_noneOf _ 0 _ hscan fun _ => body_of_mem_tokens

/-! ### Symbols -/

/-- The end of a text is found where no character is left. -/
theorem read_endOfText {mode : Mode} {length depth : Nat} {b : Book} (cs : List Char)
    (hmode : mode ≠ .atomic) :
    Rule.read length (depth + 1) mode .endOfText (.before cs) b
      = if cs = [] then .found [.over length .endOfText (.before cs) (.before cs) []] (.before cs) b
        else .failed (Book.note .endOfText (width cs) b b) := by
  rw [Rule.read, Rule.pattern, Pattern.read, Place.left_before]
  cases cs with
  | nil =>
    rw [if_pos width_nil, if_pos rfl, Finding.ofRule, if_neg hmode]
  | cons c cs =>
    have hpos := width_pos (List.cons_ne_nil c cs)
    rw [if_neg (Nat.ne_of_gt hpos), if_neg (List.cons_ne_nil c cs), Finding.ofRule, if_neg hmode]
    rfl

/-- A text that is nothing but a symbol is one behind which the text ends. -/
theorem readSymbol_eq_andThen (text : String) :
    readSymbol text
      = (Rule.read (width text.toList) 1 .tight .symbol (.before text.toList)
          (.blank (width text.toList))).andThen fun rest b =>
        Rule.read (width text.toList) 1 .tight .endOfText rest b := by
  -- the start of the text takes nothing
  rw [readSymbol, Pattern.symbolText, Pattern.read, Pattern.read, if_pos rfl]
  exact Finding.prepend_nil _

/-- Where there is no symbol none is scanned. -/
theorem fits_symbol_eq_false {cs rest : List Char} {l : Lexeme} (hsymbol : Symbol.scan cs = none)
    (hscan : scan cs = some (l, rest)) : Rule.fits .symbol l = false := by
  cases l with
  | symbol s =>
    obtain ⟨happ, -, hstops⟩ := scan_eq_some_iff.1 hscan
    rw [happ, chars, Symbol.scan_chars_append hstops] at hsymbol
    cases hsymbol
  | _ => rfl

/-- A text that is a symbol and nothing else, by the rules of the grammar, is one that is
scanned to its end. -/
theorem readSymbol_eq_parse? (text : String) :
    (∀ s, Symbol.parse? text = some s → ∃ last b,
      readSymbol text = .found [.leaf .symbol (.symbol s) ⟨0, width text.toList⟩, last]
        (.before []) b) ∧
    (Symbol.parse? text = none → ∃ b, readSymbol text = .failed b) := by
  have htight : Mode.tight ≠ .atomic := by decide
  rw [readSymbol_eq_andThen]
  cases hsymbol : Symbol.scan text.toList with
  | none =>
    have hparse : Symbol.parse? text = none := by rw [Symbol.parse?, hsymbol]
    rw [read_noLeaf htight rfl (fun _ _ => fits_symbol_eq_false hsymbol), hparse]
    constructor
    · intro s hs
      cases hs
    · intro _
      exact ⟨_, rfl⟩
  | some found =>
    obtain ⟨s, rest⟩ := found
    rw [read_leaf htight rfl (scan_of_symbol hsymbol) rfl, Finding.andThen,
      read_endOfText rest htight, Place.left_before, Nat.sub_self]
    -- what is behind the symbol decides about the whole text
    cases rest with
    | nil =>
      have hparse : Symbol.parse? text = some s := by rw [Symbol.parse?, hsymbol]
      rw [hparse]
      constructor
      · intro s' hs'
        obtain rfl := Option.some.inj hs'
        exact ⟨_, _, rfl⟩
      · intro hs
        cases hs
    | cons c rest =>
      have hparse : Symbol.parse? text = none := by rw [Symbol.parse?, hsymbol]
      rw [hparse]
      constructor
      · intro s' hs'
        cases hs'
      · intro _
        exact ⟨_, rfl⟩

end Sigil.Descent
