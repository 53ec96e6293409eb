import Sigil.Token.Scan

/-! # Spelling

    Which texts are cut into which lexemes, without cutting them.  A text
    spells a row of lexemes when it consists of their characters, one
    lexeme after the other, with blanks between them as one likes — but
    what stands behind a lexeme must not go on with it, as a further digit
    goes on with a symbol.

    * `Symbol.scan_eq_some_iff`, `Lexeme.scan_eq_some_iff`: what is cut off
      the head of a text.
    * `Lexeme.Spells`: the relation between rows and texts.
    * `Token.Cut`: the same with the places of the lexemes.
    * `Token.lexemes_readAll_iff`: a text is cut into the row that it
      spells. -/

namespace Sigil

/-! ### Runs of characters -/

namespace Text

/-- A run goes up to the first character that does not belong to it. -/
theorem takeWhile_append_of_stop {p : Char → Bool} {cs rest : List Char}
    (hcs : cs.all p = true) (hrest : ∀ c ∈ rest.head?, p c = false) :
    (cs ++ rest).takeWhile p = cs := by
  rw [List.takeWhile_append_of_pos (List.all_eq_true.1 hcs)]
  cases rest with
  | nil => simp
  | cons c rest =>
    have hc : p c = false := hrest c rfl
    simp [hc]

theorem dropWhile_append_of_stop {p : Char → Bool} {cs rest : List Char}
    (hcs : cs.all p = true) (hrest : ∀ c ∈ rest.head?, p c = false) :
    (cs ++ rest).dropWhile p = rest := by
  rw [List.dropWhile_append_of_pos (List.all_eq_true.1 hcs)]
  cases rest with
  | nil => rfl
  | cons c rest =>
    have hc : p c = false := hrest c rfl
    simp [hc]

/-- What stands behind a run does not belong to it. -/
theorem head?_dropWhile {p : Char → Bool} (cs : List Char) :
    ∀ c ∈ (cs.dropWhile p).head?, p c = false := by
  intro c hc
  have hstop := List.head?_dropWhile_not p cs
  rw [Option.mem_def.1 hc] at hstop
  simpa using hstop

/-! ### Ranges of characters -/

theorem toNat_of_isBlank {c : Char} (h : isBlank c = true) :
    c.toNat ≤ 32 ∨ 133 ≤ c.toNat ∧ c.toNat ≤ 160 ∨ 5760 ≤ c.toNat := by
  simp only [isBlank, blankRanges, List.any_cons, List.any_nil, Bool.or_eq_true,
    Bool.and_eq_true, decide_eq_true_eq, Bool.false_eq_true, or_false] at h
  omega

theorem toNat_of_isDigit {c : Char} (h : c.isDigit = true) :
    48 ≤ c.toNat ∧ c.toNat ≤ 57 := by
  simp only [Char.isDigit, Bool.and_eq_true, decide_eq_true_eq, ge_iff_le,
    UInt32.le_iff_toNat_le] at h
  exact h

theorem toNat_of_isAlpha {c : Char} (h : c.isAlpha = true) :
    65 ≤ c.toNat ∧ c.toNat ≤ 122 := by
  rcases Bool.or_eq_true_iff.1 (show (c.isUpper || c.isLower) = true from h) with hu | hl
  · have hrange : 'A'.val ≤ c.val ∧ c.val ≤ 'Z'.val := of_decide_eq_true hu
    have hfirst : 65 ≤ c.toNat := UInt32.le_iff_toNat_le.1 hrange.1
    have hlast : c.toNat ≤ 90 := UInt32.le_iff_toNat_le.1 hrange.2
    omega
  · have hrange := Bool.and_eq_true_iff.1 hl
    have hfirst : 97 ≤ c.toNat := UInt32.le_iff_toNat_le.1 (of_decide_eq_true hrange.1)
    have hlast : c.toNat ≤ 122 := UInt32.le_iff_toNat_le.1 (of_decide_eq_true hrange.2)
    omega

end Text

namespace Symbol

theorem toNat_of_isLead {c : Char} (h : isLead c = true) :
    913 ≤ c.toNat ∧ c.toNat ≤ 937 := by
  have hall : leads.all (fun d => 913 ≤ d.toNat && d.toNat ≤ 937) = true := by rfl
  have hc := List.all_eq_true.1 hall c (List.contains_iff_mem.1 h)
  rw [Bool.and_eq_true, decide_eq_true_eq, decide_eq_true_eq] at hc
  exact hc

theorem toNat_of_isCapital {c : Char} (h : isCapital c = true) :
    913 ≤ c.toNat ∧ c.toNat ≤ 937 := by
  simp only [isCapital, Bool.or_eq_true, Bool.and_eq_true, decide_eq_true_eq, Char.le_def,
    UInt32.le_iff_toNat_le] at h
  have hfirst : 'Α'.val.toNat = 913 := rfl
  have hbefore : 'Ρ'.val.toNat = 929 := rfl
  have hsecond : 'Σ'.val.toNat = 931 := rfl
  have hlast : 'Ω'.val.toNat = 937 := rfl
  show 913 ≤ c.val.toNat ∧ c.val.toNat ≤ 937
  omega

theorem toNat_of_isVariant {c : Char} (h : isVariant c = true) :
    945 ≤ c.toNat ∧ c.toNat ≤ 949 := by
  simp only [isVariant, Bool.and_eq_true, decide_eq_true_eq, Char.le_def,
    UInt32.le_iff_toNat_le] at h
  exact h

theorem isCapital_eq_false_of_isDigit {c : Char} (h : c.isDigit = true) :
    isCapital c = false := by
  rw [Bool.eq_false_iff]
  intro hcapital
  have hle := (Text.toNat_of_isDigit h).2
  have hge := (toNat_of_isCapital hcapital).1
  omega

theorem isDigit_eq_false_of_isVariant {c : Char} (h : isVariant c = true) :
    c.isDigit = false := by
  rw [Bool.eq_false_iff]
  intro hdigit
  have hle := (Text.toNat_of_isDigit hdigit).2
  have hge := (toNat_of_isVariant h).1
  omega

theorem isLead_eq_false_of_isAlpha {c : Char} (h : c.isAlpha = true) :
    isLead c = false := by
  rw [Bool.eq_false_iff]
  intro hlead
  have hle := (Text.toNat_of_isAlpha h).2
  have hge := (toNat_of_isLead hlead).1
  omega

/-! ### Symbols -/

/-- What stands behind the symbol does not go on with it: where a variant letter
could stand there is neither that nor a further digit. -/
def Stops (s : Symbol) (rest : List Char) : Prop :=
  s.variant = none → ∀ c ∈ rest.head?, c.isDigit = false ∧ isVariant c = false

theorem scan_eq_none {c : Char} {cs : List Char} (h : isLead c = false) :
    scan (c :: cs) = none := by
  simp [scan, h]

theorem variantAt_eq_none_iff {cs : List Char} :
    variantAt cs = none ↔ ∀ c ∈ cs.head?, isVariant c = false := by
  unfold variantAt
  cases cs with
  | nil => simp
  | cons c cs => cases h : isVariant c <;> simp [h]

theorem takeWhile_capitals {capitals rest : List Char} (hall : capitals.all isCapital = true)
    (hle : capitals.length ≤ 2) (hstop : ∀ c ∈ rest.head?, isCapital c = false) :
    ((capitals ++ rest).take 2).takeWhile isCapital = capitals := by
  rw [List.take_append, List.take_of_length_le hle]
  refine Text.takeWhile_append_of_stop hall fun c hc => ?_
  rw [List.head?_take] at hc
  split at hc
  · cases hc
  · exact hstop c hc

theorem variantAt_append {variant : Option Char} {rest : List Char}
    (hok : variant.all isVariant = true)
    (hstop : variant = none → ∀ c ∈ rest.head?, isVariant c = false) :
    variantAt (variant.toList ++ rest) = variant := by
  cases variant with
  | none => exact variantAt_eq_none_iff.2 (hstop rfl)
  | some v =>
    have hv : isVariant v = true := hok
    simp [variantAt, hv]

/-- Scanning takes a symbol that stops: a digit ends the capitals, and something else
than a digit ends the index. -/
theorem scan_chars_append {s : Symbol} {rest : List Char} (h : s.Stops rest) :
    scan (s.chars ++ rest) = some (s, rest) := by
  obtain ⟨lead, capitals, index, variant, lead_ok, capitals_ok, capitals_le, index_ok,
    index_ne, variant_ok⟩ := s
  have hvariant : variantAt (variant.toList ++ rest) = variant :=
    variantAt_append variant_ok fun hnone c hc => (h hnone c hc).2
  have hdigit : ∀ c ∈ (variant.toList ++ rest).head?, c.isDigit = false := by
    cases variant with
    | none => exact fun c hc => (h rfl c hc).1
    | some v =>
      intro c hc
      obtain rfl : v = c := by simpa using hc
      exact isDigit_eq_false_of_isVariant variant_ok
  -- there is a digit behind the capitals, so that at most two of them are no restriction
  have hcapital : ∀ c ∈ (index ++ (variant.toList ++ rest)).head?, isCapital c = false := by
    cases index with
    | nil => exact absurd rfl index_ne
    | cons d ds =>
      intro c hc
      obtain rfl : d = c := by simpa using hc
      exact isCapital_eq_false_of_isDigit (List.all_eq_true.1 index_ok d List.mem_cons_self)
  have hcapitals := takeWhile_capitals capitals_ok capitals_le hcapital
  have hindex := Text.takeWhile_append_of_stop index_ok hdigit
  have hafter := Text.dropWhile_append_of_stop index_ok hdigit
  simp only [chars, List.cons_append, List.append_assoc, scan, lead_ok, dite_true, hcapitals,
    List.drop_left, hindex, hafter, hvariant, index_ne, ne_eq, not_false_eq_true]

/-- What is cut off the head of a text as a symbol. -/
theorem scan_eq_some_iff {cs rest : List Char} {s : Symbol} :
    scan cs = some (s, rest) ↔ cs = s.chars ++ rest ∧ s.Stops rest := by
  refine ⟨fun h => ⟨scan_append h, ?_⟩, ?_⟩
  · cases cs with
    | nil => simp [scan] at h
    | cons c cs =>
      rw [scan] at h
      split at h
      · simp only at h
        split at h
        · simp only [Option.some.injEq, Prod.mk.injEq] at h
          obtain ⟨rfl, rfl⟩ := h
          intro hnone d hd
          simp only at hnone
          rw [hnone] at hd
          exact ⟨Text.head?_dropWhile _ d hd, variantAt_eq_none_iff.1 hnone d hd⟩
        · cases h
      · cases h
  · rintro ⟨rfl, h⟩
    exact scan_chars_append h

/-- A text is the symbol whose text it is. -/
theorem parse?_eq_some_iff {text : String} {s : Symbol} : parse? text = some s ↔ s.text = text := by
  have hscan : parse? text = some s ↔ scan text.toList = some (s, []) := by
    unfold parse?
    constructor
    · intro h
      split at h
      · next hs =>
        cases h
        exact hs
      · cases h
    · intro h
      rw [h]
  have hstops : s.Stops [] := fun _ _ hc => nomatch hc
  rw [hscan, scan_eq_some_iff, List.append_nil, and_iff_left hstops, ← toList_text,
    String.toList_inj, eq_comm]

end Symbol

namespace Lexeme

/-! ### Lexemes -/

/-- The lexeme can stand in a text: names are names, and no literal holds its own
quote. -/
def Valid : Lexeme → Prop
  | .identifier name => isName name.toList = true
  | .literal q content => q.char ∉ content.toList
  | .symbol _ | .connective _ | .mark _ => True

/-- What stands behind the lexeme does not go on with it. -/
def Stops : Lexeme → List Char → Prop
  | .symbol s, rest => s.Stops rest
  | .identifier _, rest => ∀ c ∈ rest.head?, isNamePart c = false
  | .literal .., _ | .connective _, _ | .mark _, _ => True

theorem exists_cons_of_isName {cs : List Char} (h : isName cs = true) :
    ∃ c ds, cs = c :: ds ∧ c.isAlpha = true ∧ ds.all isNamePart = true := by
  cases cs with
  | nil => cases h
  | cons c ds =>
    rw [isName, Bool.and_eq_true] at h
    exact ⟨c, ds, rfl, h⟩

theorem scanLiteral_chars_append {q : Quote} {content : String} {rest : List Char}
    (h : q.char ∉ content.toList) :
    scanLiteral q (content.toList ++ q.char :: rest) = some (.literal q content, rest) := by
  have hall : content.toList.all (· != q.char) = true := by
    refine List.all_eq_true.2 fun c hc => bne_iff_ne.2 ?_
    rintro rfl
    exact h hc
  have hstop : ∀ c ∈ (q.char :: rest).head?, (c != q.char) = false := by
    intro c hc
    obtain rfl : q.char = c := by simpa using hc
    simp
  rw [scanLiteral, Text.takeWhile_append_of_stop hall hstop,
    Text.dropWhile_append_of_stop hall hstop]
  simp

theorem scan_of_symbol {cs rest : List Char} {s : Symbol}
    (h : Symbol.scan cs = some (s, rest)) : scan cs = some (.symbol s, rest) := by
  cases cs with
  | nil => cases h
  | cons c cs => rw [scan, h]

theorem scan_of_isAlpha {c : Char} {cs : List Char} (h : c.isAlpha = true) :
    scan (c :: cs)
      = some (.identifier (String.ofList (c :: cs.takeWhile isNamePart)),
          cs.dropWhile isNamePart) := by
  rw [scan, Symbol.scan_eq_none (Symbol.isLead_eq_false_of_isAlpha h)]
  simp [h]

theorem scan_quote (q : Quote) (cs : List Char) :
    scan (q.char :: cs) = scanLiteral q cs := by
  have hlead : Symbol.isLead q.char = false := by cases q <;> decide
  have halpha : q.char.isAlpha = false := by cases q <;> decide
  rw [scan, Symbol.scan_eq_none hlead]
  simp [halpha]

/-- A connective or a mark is a lexeme whatever comes after it. -/
theorem scan_connective (k : Connective) (cs : List Char) :
    scan (k.glyph :: cs) = some (.connective k, cs) := by
  have hlead : Symbol.isLead k.glyph = false := by cases k <;> decide
  have halpha : k.glyph.isAlpha = false := by cases k <;> decide
  have hquote : Quote.ofChar? k.glyph = none := by cases k <;> decide
  rw [scan, Symbol.scan_eq_none hlead]
  simp [halpha, hquote, ofChar?]

theorem scan_mark (m : Mark) (cs : List Char) :
    scan (m.glyph :: cs) = some (.mark m, cs) := by
  have hlead : Symbol.isLead m.glyph = false := by cases m <;> decide
  have halpha : m.glyph.isAlpha = false := by cases m <;> decide
  have hquote : Quote.ofChar? m.glyph = none := by cases m <;> decide
  have hconnective : Connective.ofGlyph? m.glyph = none := by cases m <;> decide
  rw [scan, Symbol.scan_eq_none hlead]
  simp [halpha, hquote, hconnective, ofChar?]

/-- Scanning takes a lexeme that stops. -/
theorem scan_chars_append {l : Lexeme} {rest : List Char} (hvalid : l.Valid)
    (hstops : l.Stops rest) : scan (l.chars ++ rest) = some (l, rest) := by
  cases l with
  | symbol s => exact scan_of_symbol (Symbol.scan_chars_append hstops)
  | identifier name =>
    obtain ⟨c, cs, hname, halpha, hall⟩ := exists_cons_of_isName hvalid
    rw [chars, hname, List.cons_append, scan_of_isAlpha halpha,
      Text.takeWhile_append_of_stop hall hstops, Text.dropWhile_append_of_stop hall hstops,
      ← hname, String.ofList_toList]
  | literal q content =>
    rw [chars, List.cons_append, List.append_assoc, scan_quote]
    exact scanLiteral_chars_append hvalid
  | connective k => exact scan_connective k rest
  | mark m => exact scan_mark m rest

theorem valid_of_scanLiteral {q : Quote} {cs rest : List Char} {l : Lexeme}
    (h : scanLiteral q cs = some (l, rest)) : l.Valid ∧ l.Stops rest := by
  unfold scanLiteral at h
  split at h
  · cases h
  · simp only [Option.some.injEq, Prod.mk.injEq] at h
    obtain ⟨rfl, rfl⟩ := h
    refine ⟨fun hmem => ?_, trivial⟩
    rw [String.toList_ofList] at hmem
    have hne := List.all_eq_true.1 List.all_takeWhile _ hmem
    simp at hne

theorem valid_of_ofChar? {c : Char} {l : Lexeme} (h : ofChar? c = some l)
    (rest : List Char) : l.Valid ∧ l.Stops rest := by
  unfold ofChar? at h
  rcases Option.or_eq_some_iff.1 h with hk | ⟨-, hm⟩
  · obtain ⟨k, -, rfl⟩ := Option.map_eq_some_iff.1 hk
    exact ⟨trivial, trivial⟩
  · obtain ⟨m, -, rfl⟩ := Option.map_eq_some_iff.1 hm
    exact ⟨trivial, trivial⟩

/-- A scanned lexeme can stand in a text, and stops where it was cut off. -/
theorem valid_and_stops_of_scan {cs rest : List Char} {l : Lexeme}
    (h : scan cs = some (l, rest)) : l.Valid ∧ l.Stops rest := by
  cases cs with
  | nil => cases h
  | cons c cs =>
    rw [scan] at h
    split at h
    · next s r hs =>
      simp only [Option.some.injEq, Prod.mk.injEq] at h
      obtain ⟨rfl, rfl⟩ := h
      exact ⟨trivial, (Symbol.scan_eq_some_iff.1 hs).2⟩
    · split at h
      · next halpha =>
        simp only [Option.some.injEq, Prod.mk.injEq] at h
        obtain ⟨rfl, rfl⟩ := h
        refine ⟨?_, Text.head?_dropWhile cs⟩
        have htake : (cs.takeWhile isNamePart).all isNamePart = true := List.all_takeWhile
        rw [Valid, String.toList_ofList, isName, halpha, htake]
        rfl
      · split at h
        · exact valid_of_scanLiteral h
        · obtain ⟨k, hk, hl⟩ := Option.map_eq_some_iff.1 h
          obtain ⟨rfl, rfl⟩ := Prod.mk.inj hl
          exact valid_of_ofChar? hk cs

/-- What is cut off the head of a text. -/
theorem scan_eq_some_iff {cs rest : List Char} {l : Lexeme} :
    scan cs = some (l, rest) ↔ cs = l.chars ++ rest ∧ l.Valid ∧ l.Stops rest := by
  constructor
  · intro h
    exact ⟨scan_append h, valid_and_stops_of_scan h⟩
  · rintro ⟨rfl, hvalid, hstops⟩
    exact scan_chars_append hvalid hstops

/-- No lexeme begins with a blank. -/
theorem Valid.not_isBlank {l : Lexeme} {c : Char} (h : l.Valid) (hc : c ∈ l.chars.head?) :
    Text.isBlank c = false := by
  cases l with
  | symbol s =>
    obtain rfl : s.lead = c := by simpa [chars, Symbol.chars] using hc
    rw [Bool.eq_false_iff]
    intro hblank
    have hrange := Text.toNat_of_isBlank hblank
    have hlead := Symbol.toNat_of_isLead s.lead_ok
    omega
  | identifier name =>
    obtain ⟨d, ds, hname, halpha, -⟩ := exists_cons_of_isName h
    obtain rfl : d = c := by simpa [chars, hname] using hc
    rw [Bool.eq_false_iff]
    intro hblank
    have hrange := Text.toNat_of_isBlank hblank
    have hletter := Text.toNat_of_isAlpha halpha
    omega
  | literal q content =>
    obtain rfl : q.char = c := by simpa [chars] using hc
    cases q <;> decide
  | connective k =>
    obtain rfl : k.glyph = c := by simpa [chars] using hc
    cases k <;> decide
  | mark m =>
    obtain rfl : m.glyph = c := by simpa [chars] using hc
    cases m <;> decide

theorem Valid.chars_ne_nil {l : Lexeme} (h : l.Valid) : l.chars ≠ [] := by
  cases l with
  | symbol s => exact s.chars_ne_nil
  | identifier name =>
    obtain ⟨d, ds, hname, -⟩ := exists_cons_of_isName h
    rw [chars, hname]
    exact List.cons_ne_nil d ds
  | literal q content => exact List.cons_ne_nil _ _
  | connective k => exact List.cons_ne_nil _ _
  | mark m => exact List.cons_ne_nil _ _

/-! ### Rows of lexemes -/

/-- The characters are those of the lexemes, in order, with blanks between them as
one likes; every lexeme stops where its characters do. -/
inductive Spells : List Lexeme → List Char → Prop where
  | nil : Spells [] []
  | blank {c : Char} (hc : Text.isBlank c = true) {ls : List Lexeme} {cs : List Char}
      (rest : Spells ls cs) : Spells ls (c :: cs)
  | cons {l : Lexeme} {ls : List Lexeme} {cs : List Char} (valid : l.Valid)
      (stops : l.Stops cs) (rest : Spells ls cs) : Spells (l :: ls) (l.chars ++ cs)

/-- The lexemes of a text can stand in one. -/
theorem Spells.valid {ls : List Lexeme} {cs : List Char} (h : Spells ls cs) :
    ∀ l ∈ ls, l.Valid := by
  induction h with
  | nil => exact fun l hl => nomatch hl
  | blank _ _ ih => exact ih
  | cons valid _ _ ih => exact List.forall_mem_cons.2 ⟨valid, ih⟩

end Lexeme

namespace Token

open Lexeme

/-! ### Reading what is spelled -/

theorem readFrom_blank {c : Char} (hc : Text.isBlank c = true) (start : Nat)
    (cs : List Char) : readFrom start (c :: cs) = readFrom (start + c.utf8Size) cs := by
  rw [readFrom, if_pos hc]

/-- Reading takes the lexemes of a text one after the other. -/
theorem readFrom_chars_append {l : Lexeme} {cs : List Char} (hvalid : l.Valid)
    (hstops : l.Stops cs) (start : Nat) :
    readFrom start (l.chars ++ cs)
      = (readFrom (start + Text.width l.chars) cs).map
          (⟨l, ⟨start, start + Text.width l.chars⟩⟩ :: ·) := by
  have hscan := scan_chars_append hvalid hstops
  cases happ : l.chars ++ cs with
  | nil => exact absurd (List.append_eq_nil_iff.1 happ).1 hvalid.chars_ne_nil
  | cons c ds =>
    -- the text begins with the lexeme, which is not empty
    have hhead : c ∈ l.chars.head? := by
      cases hchars : l.chars with
      | nil => exact absurd hchars hvalid.chars_ne_nil
      | cons d es =>
        rw [hchars, List.cons_append] at happ
        exact congrArg some (List.cons.inj happ).1
    rw [happ] at hscan
    rw [readFrom, if_neg (Bool.eq_false_iff.1 (hvalid.not_isBlank hhead))]
    split
    · next hnone =>
      rw [hscan] at hnone
      cases hnone
    · next l' rest hsome =>
      rw [hscan] at hsome
      cases hsome
      rfl

/-- Where no lexeme begins, reading ends. -/
theorem readFrom_stuck {c : Char} {cs : List Char} (hc : Text.isBlank c = false)
    (hscan : scan (c :: cs) = none) (start : Nat) :
    readFrom start (c :: cs) = .error (unscannable start c cs) := by
  rw [readFrom, if_neg (Bool.eq_false_iff.1 hc)]
  split
  · rfl
  · next hsome =>
    rw [hscan] at hsome
    cases hsome

/-- A text is empty, or it begins with a blank, with a lexeme that stops, or with a place
that cannot be read. -/
theorem text_induction {P : List Char → Prop} (nil : P [])
    (blank : ∀ c cs, Text.isBlank c = true → P cs → P (c :: cs))
    (lexeme : ∀ (l : Lexeme) cs, l.Valid → l.Stops cs → P cs → P (l.chars ++ cs))
    (stuck : ∀ c cs, Text.isBlank c = false → scan (c :: cs) = none → P (c :: cs))
    (cs : List Char) : P cs := by
  induction 0, cs using readFrom.induct with
  | case1 => exact nil
  | case2 _ c cs hblank ih => exact blank c cs hblank ih
  | case3 _ c cs hblank hscan => exact stuck c cs (Bool.eq_false_iff.2 hblank) hscan
  | case4 _ c cs _ l rest hscan _ =>
    rename_i ih
    obtain ⟨happ, hvalid, hstops⟩ := scan_eq_some_iff.1 hscan
    rw [happ]
    exact lexeme l rest hvalid hstops ih

/-- The characters, which begin at byte `start`, are cut into the tokens: between them
there are blanks, and each token has the span of its characters. -/
inductive Cut : Nat → List Char → List Token → Prop where
  | nil {start : Nat} : Cut start [] []
  | blank {start : Nat} {c : Char} (hc : Text.isBlank c = true) {cs : List Char}
      {tokens : List Token} (rest : Cut (start + c.utf8Size) cs tokens) :
      Cut start (c :: cs) tokens
  | cons {start : Nat} {l : Lexeme} {cs : List Char} {tokens : List Token} (valid : l.Valid)
      (stops : l.Stops cs) (rest : Cut (start + Text.width l.chars) cs tokens) :
      Cut start (l.chars ++ cs) (⟨l, ⟨start, start + Text.width l.chars⟩⟩ :: tokens)

/-- What is read of a text is a way to cut it. -/
theorem cut_of_readFrom {start : Nat} {cs : List Char} {tokens : List Token}
    (h : readFrom start cs = .ok tokens) : Cut start cs tokens := by
  induction cs using text_induction generalizing start tokens with
  | nil =>
    rw [readFrom] at h
    cases h
    exact .nil
  | blank c cs hc ih =>
    rw [readFrom_blank hc] at h
    exact .blank hc (ih h)
  | lexeme l cs hvalid hstops ih =>
    -- the rest of the text is read on its own
    rw [readFrom_chars_append hvalid hstops] at h
    cases hrest : readFrom (start + Text.width l.chars) cs with
    | error r =>
      rw [hrest] at h
      cases h
    | ok later =>
      rw [hrest] at h
      cases h
      exact .cons hvalid hstops (ih hrest)
  | stuck c cs hc hscan =>
    rw [readFrom_stuck hc hscan] at h
    cases h

theorem readFrom_of_cut {start : Nat} {cs : List Char} {tokens : List Token}
    (h : Cut start cs tokens) : readFrom start cs = .ok tokens := by
  induction h with
  | nil => rw [readFrom]
  | blank hc rest ih => rw [readFrom_blank hc, ih]
  | cons valid stops rest ih =>
    rw [readFrom_chars_append valid stops, ih]
    rfl

/-- A text that is cut spells what it is cut into. -/
theorem Cut.spells {start : Nat} {cs : List Char} {tokens : List Token}
    (h : Cut start cs tokens) : Spells (tokens.map (·.lexeme)) cs := by
  induction h with
  | nil => exact .nil
  | blank hc rest ih => exact .blank hc ih
  | cons valid stops rest ih => exact .cons valid stops ih

/-- A text is cut into the row that it spells. -/
theorem exists_cut_of_spells {ls : List Lexeme} {cs : List Char} (h : Spells ls cs)
    (start : Nat) : ∃ tokens, Cut start cs tokens ∧ tokens.map (·.lexeme) = ls := by
  induction h generalizing start with
  | nil => exact ⟨[], .nil, rfl⟩
  | @blank c hc ls cs rest ih =>
    obtain ⟨tokens, hcut, hlexemes⟩ := ih (start + c.utf8Size)
    exact ⟨tokens, .blank hc hcut, hlexemes⟩
  | @cons l ls cs valid stops rest ih =>
    obtain ⟨tokens, hcut, hlexemes⟩ := ih (start + Text.width l.chars)
    refine ⟨_, .cons valid stops hcut, ?_⟩
    rw [List.map_cons, hlexemes]

/-- A text is cut into a row exactly when it spells it, and spells only one. -/
theorem lexemes_readAll_iff {text : String} {ls : List Lexeme} :
    (∃ tokens, readAll text = .ok tokens ∧ tokens.map (·.lexeme) = ls)
      ↔ Spells ls text.toList := by
  constructor
  · rintro ⟨tokens, htokens, rfl⟩
    exact (cut_of_readFrom htokens).spells
  · intro h
    obtain ⟨tokens, hcut, hlexemes⟩ := exists_cut_of_spells h 0
    exact ⟨tokens, readFrom_of_cut hcut, hlexemes⟩

theorem valid_of_readAll {text : String} {tokens : List Token} (h : readAll text = .ok tokens) :
    ∀ t ∈ tokens, t.lexeme.Valid :=
  fun _ ht => (lexemes_readAll_iff.1 ⟨tokens, h, rfl⟩).valid _ (List.mem_map_of_mem ht)

end Token

end Sigil
