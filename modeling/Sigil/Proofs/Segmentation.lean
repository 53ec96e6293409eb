import Sigil.Grammar.Words
import Sigil.Proofs.Seams

/-! # Greed does no harm

    Reading takes the longest word at each place and never takes anything
    back.  A text might be cut in other ways, for `ab` is one name or two;
    but whatever can be cut at all can be cut greedily
    (`Grammar.segmentable_iff`), and at no place does a longer word fit, or
    a word of another class (`Lexeme.longest`). -/

namespace Sigil

open Grammar

namespace Lexeme

/-! ### Words and lexemes -/

/-- The words are the characters of the lexemes that can stand in a text. -/
theorem isWord_iff {kind : String} {cs : List Char} :
    IsWord kind cs ↔ ∃ l : Lexeme, l.Valid ∧ l.kind = kind ∧ l.chars = cs := by
  constructor
  · intro h
    cases h with
    | @symbol lead capitals index variant hlead hcapitals hle hindex hne hvariant hone =>
      have hlist : variant = variant.head?.toList := by
        match variant, hone with
        | [], _ => rfl
        | [v], _ => rfl
      have hok : variant.head?.all Symbol.isVariant = true := by
        rw [Option.all_eq_true]
        intro v hv
        exact hvariant v (List.mem_of_mem_head? hv)
      refine ⟨.symbol ⟨lead, capitals, index, variant.head?, List.contains_iff_mem.2 hlead,
        List.all_eq_true.2 hcapitals, hle, List.all_eq_true.2 hindex, hne, hok⟩, trivial, rfl, ?_⟩
      show lead :: (capitals ++ index ++ variant.head?.toList) = _
      rw [← hlist]
    | @identifier first rest hfirst hrest =>
      refine ⟨.identifier (String.ofList (first :: rest)), ?_, rfl, String.toList_ofList⟩
      have hall : rest.all isNamePart = true := by
        rw [List.all_eq_true]
        intro c hc
        simpa [isNamePart] using hrest c hc
      rw [Valid, String.toList_ofList, isName, hfirst, hall]
      rfl
    | @literal q content hcontent =>
      refine ⟨.literal q (String.ofList content), ?_, rfl, ?_⟩
      · rwa [Valid, String.toList_ofList]
      · rw [chars, String.toList_ofList]
    | connective c => exact ⟨.connective c, trivial, rfl, rfl⟩
    | mark m => exact ⟨.mark m, trivial, rfl, rfl⟩
  · rintro ⟨l, hvalid, rfl, rfl⟩
    cases l with
    | symbol s =>
      refine .symbol (List.contains_iff_mem.1 s.lead_ok) (List.all_eq_true.1 s.capitals_ok)
        s.capitals_le (List.all_eq_true.1 s.index_ok) s.index_ne ?_ ?_
      · intro c hc
        exact (Option.all_eq_true _ _).1 s.variant_ok c (Option.mem_toList.1 hc)
      · cases s.variant <;> simp
    | identifier name =>
      obtain ⟨c, cs, hname, halpha, hall⟩ := exists_cons_of_isName hvalid
      rw [chars, hname]
      refine .identifier halpha fun d hd => ?_
      simpa [isNamePart] using List.all_eq_true.1 hall d hd
    | literal q content => exact .literal q hvalid
    | connective c => exact .connective c
    | mark m => exact .mark m

/-! ### The longest lexeme -/

/-- A symbol that could go on with the text goes on to one that stops. -/
theorem exists_symbol_stops (s : Symbol) (rest : List Char) :
    ∃ (t : Symbol) (after : List Char), t.Stops after ∧ s.chars ++ rest = t.chars ++ after ∧
      s.chars.length ≤ t.chars.length := by
  cases hvariant : s.variant with
  | some v =>
    refine ⟨s, rest, ?_, rfl, Nat.le_refl _⟩
    intro hnone
    rw [hvariant] at hnone
    cases hnone
  | none =>
    -- further digits, and then the letter of a variant if there is one
    let more := rest.takeWhile Char.isDigit
    let behind := rest.dropWhile Char.isDigit
    have hindex : (s.index ++ more).all Char.isDigit = true := by
      rw [List.all_append, s.index_ok]
      exact List.all_takeWhile
    let t : Symbol := ⟨s.lead, s.capitals, s.index ++ more, Symbol.variantAt behind, s.lead_ok,
      s.capitals_ok, s.capitals_le, hindex, List.append_ne_nil_of_left_ne_nil s.index_ne _,
      Symbol.variantAt_ok behind⟩
    have ht : t.chars = s.chars ++ (more ++ (Symbol.variantAt behind).toList) := by
      show s.lead :: (s.capitals ++ (s.index ++ more) ++ _) = _
      simp [Symbol.chars, hvariant, t]
    refine ⟨t, behind.drop (Symbol.variantAt behind).toList.length, ?_, ?_, ?_⟩
    · intro hnone c hc
      replace hnone : Symbol.variantAt behind = none := hnone
      rw [hnone] at hc
      exact ⟨Text.head?_dropWhile rest c hc, Symbol.variantAt_eq_none_iff.1 hnone c hc⟩
    · rw [ht, List.append_assoc, List.append_assoc, Symbol.variantAt_append_drop,
        List.takeWhile_append_dropWhile]
    · rw [ht, List.length_append]
      exact Nat.le_add_right _ _

/-- A lexeme that could go on with the text goes on to one of its class that stops. -/
theorem exists_stops {l : Lexeme} (hl : l.Valid) (rest : List Char) :
    ∃ (m : Lexeme) (after : List Char), m.Valid ∧ m.Stops after ∧
      l.chars ++ rest = m.chars ++ after ∧ m.kind = l.kind ∧ l.chars.length ≤ m.chars.length := by
  cases l with
  | symbol s =>
    obtain ⟨t, after, hstops, happ, hle⟩ := exists_symbol_stops s rest
    exact ⟨.symbol t, after, trivial, hstops, happ, rfl, hle⟩
  | identifier name =>
    let more := rest.takeWhile isNamePart
    obtain ⟨c, cs, hname, halpha, hall⟩ := exists_cons_of_isName hl
    refine ⟨.identifier (name ++ String.ofList more), rest.dropWhile isNamePart, ?_,
      Text.head?_dropWhile rest, ?_, rfl, ?_⟩
    · have hmore : more.all isNamePart = true := List.all_takeWhile
      rw [Valid, String.toList_append, hname, String.toList_ofList, List.cons_append, isName,
        halpha, List.all_append, hall, hmore]
      rfl
    · rw [chars, chars, String.toList_append, String.toList_ofList, List.append_assoc,
        List.takeWhile_append_dropWhile]
    · rw [chars, chars, String.toList_append, List.length_append]
      exact Nat.le_add_right _ _
  | literal q content => exact ⟨_, rest, hl, trivial, rfl, rfl, Nat.le_refl _⟩
  | connective c => exact ⟨_, rest, hl, trivial, rfl, rfl, Nat.le_refl _⟩
  | mark m => exact ⟨_, rest, hl, trivial, rfl, rfl, Nat.le_refl _⟩

/-- Where a lexeme stands that stops, no longer word fits, and none of another class. -/
theorem longest {l : Lexeme} {rest : List Char} (hvalid : l.Valid) (hstops : l.Stops rest)
    {kind : String} {word : List Char} (hword : IsWord kind word)
    (hbegins : word <+: l.chars ++ rest) :
    kind = l.kind ∧ word.length ≤ l.chars.length := by
  obtain ⟨m, hm, rfl, rfl⟩ := isWord_iff.1 hword
  obtain ⟨behind, hbehind⟩ := hbegins
  obtain ⟨k, after, hk, hkstops, happ, hkind, hle⟩ := exists_stops hm behind
  -- scanning has only one answer
  have hscan := scan_chars_append hk hkstops
  rw [← happ, hbehind, scan_chars_append hvalid hstops] at hscan
  obtain rfl : l = k := by
    cases hscan
    rfl
  exact ⟨hkind.symm, hle⟩

end Lexeme

/-! ### Segmentable texts -/

namespace Grammar

open Lexeme

/-- What is spelled is segmented. -/
theorem segmentable_of_spells {ls : List Lexeme} {cs : List Char} (h : Spells ls cs) :
    Segmentable cs := by
  induction h with
  | nil => exact ⟨[], nofun, rfl⟩
  | @blank c hc ls cs rest ih =>
    obtain ⟨pieces, hpieces, rfl⟩ := ih
    exact ⟨[c] :: pieces, List.forall_mem_cons.2 ⟨.blank hc, hpieces⟩, rfl⟩
  | @cons l ls cs valid stops rest ih =>
    obtain ⟨pieces, hpieces, rfl⟩ := ih
    have hword : IsWord l.kind l.chars := isWord_iff.2 ⟨l, valid, rfl, rfl⟩
    exact ⟨l.chars :: pieces, List.forall_mem_cons.2 ⟨.word hword, hpieces⟩, rfl⟩

/-- What is segmented in some way is spelled by some row: identifiers that stand side by
side become one. -/
theorem spells_of_segmentable {cs : List Char} (h : Segmentable cs) : ∃ ls, Spells ls cs := by
  obtain ⟨pieces, hpieces, rfl⟩ := h
  -- from the last piece to the first, since what is behind a word decides where it ends
  induction pieces with
  | nil => exact ⟨[], .nil⟩
  | cons piece pieces ih =>
    obtain ⟨hpiece, hrest⟩ := List.forall_mem_cons.1 hpieces
    obtain ⟨ls, hls⟩ := ih hrest
    rw [List.flatten_cons]
    cases hpiece with
    | blank hc => exact ⟨ls, .blank hc hls⟩
    | word word =>
      obtain ⟨l, hvalid, -, rfl⟩ := isWord_iff.1 word
      exact hls.glue hvalid

theorem segmentable_iff {cs : List Char} : Segmentable cs ↔ ∃ ls, Spells ls cs := by
  constructor
  · exact spells_of_segmentable
  · rintro ⟨ls, h⟩
    exact segmentable_of_spells h

end Grammar

end Sigil
