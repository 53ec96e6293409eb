import Sigil.Proofs.Parsing
import Sigil.Proofs.Seams
import Mathlib.Data.List.Chain

/-! # Blanks do not matter

    The tokens of a text may be moved apart by blanks, or together, as one
    likes; only two identifiers have to stay apart.  The text that results
    has the same lexemes, and so it is the same expression or is refused
    for the same fault at the same token (`Expr.agree_of_spaced`). -/

namespace Sigil

namespace Lexeme

/-! ### Gaps -/

theorem Spells.blanks {gap : List Char} (hgap : gap.all Text.isBlank = true)
    {ls : List Lexeme} {cs : List Char} (h : Spells ls cs) : Spells ls (gap ++ cs) := by
  induction gap with
  | nil => exact h
  | cons c gap ih =>
    rw [List.all_cons, Bool.and_eq_true] at hgap
    exact .blank hgap.1 (ih hgap.2)

/-- A lexeme stops before a gap, whatever follows, if there is anything in the gap. -/
theorem stops_of_gap (l : Lexeme) {gap : List Char} (hne : gap ≠ [])
    (hgap : gap.all Text.isBlank = true) (rest : List Char) : l.Stops (gap ++ rest) := by
  cases gap with
  | nil => exact absurd rfl hne
  | cons c gap =>
    rw [List.all_cons, Bool.and_eq_true] at hgap
    exact (parts_blank hgap.1 _).stops l

end Lexeme

namespace Token

open Lexeme

/-- The characters of tokens with a gap behind each. -/
def spaced (row : List (Token × List Char)) : List Char :=
  row.flatMap fun e => e.1.lexeme.chars ++ e.2

/-- There is something in the gap between any two identifiers. -/
def KeptApart (row : List (Token × List Char)) : Prop :=
  row.IsChain fun e next =>
    e.1.lexeme.isIdentifier = true → next.1.lexeme.isIdentifier = true → e.2 ≠ []

/-- Tokens that are kept apart spell their lexemes. -/
theorem spells_spaced {row : List (Token × List Char)} (hvalid : ∀ e ∈ row, e.1.lexeme.Valid)
    (hgaps : ∀ e ∈ row, e.2.all Text.isBlank = true) (hapart : KeptApart row) :
    Spells (row.map (·.1.lexeme)) (spaced row) := by
  induction row with
  | nil => exact .nil
  | cons e row ih =>
    obtain ⟨hlexeme, hvalid'⟩ := List.forall_mem_cons.1 hvalid
    obtain ⟨hgap, hgaps'⟩ := List.forall_mem_cons.1 hgaps
    have hrest := ih hvalid' hgaps' hapart.tail
    have hstops : e.1.lexeme.Stops (e.2 ++ spaced row) := by
      by_cases hne : e.2 = []
      · rw [hne, List.nil_append]
        cases row with
        | nil => exact parts_nil.stops _
        | cons next row =>
          have hseparate := (List.isChain_cons_cons.1 hapart).1
          have hnext := (List.forall_mem_cons.1 hvalid').1
          show e.1.lexeme.Stops ((next.1.lexeme.chars ++ next.2) ++ spaced row)
          rw [List.append_assoc]
          apply stops_of_valid hnext
          -- two identifiers would have a gap between them
          cases hl : e.1.lexeme.isIdentifier with
          | false => exact .inl rfl
          | true =>
            refine .inr ?_
            rw [Bool.eq_false_iff]
            intro hr
            exact hseparate hl hr hne
      · exact stops_of_gap _ hne hgap _
    show Spells (e.1.lexeme :: row.map (·.1.lexeme)) ((e.1.lexeme.chars ++ e.2) ++ spaced row)
    rw [List.append_assoc]
    exact .cons hlexeme hstops (hrest.blanks hgap)

end Token

/-! ### Two texts by descent -/

namespace Descent

/-- What the readers of two texts come to: trees of the same lexemes, or the same rules in
the book, at the places where the same token begins or at both ends. -/
inductive Alike (text text' : String) (tokens tokens' : List Token) : Finding → Finding → Prop where
  | found {trees trees' : List Tree} {rest rest' : Text.Place} {b b' : Book} {ls : List Lexeme}
      (forms : Forms (.rule .input) ls trees) (forms' : Forms (.rule .input) ls trees')
      (lexemes : tokens.map (·.lexeme) = ls) (lexemes' : tokens'.map (·.lexeme) = ls) :
      Alike text text' tokens tokens' (.found trees rest b) (.found trees' rest' b')
  | failed (n : Nat) (rules : List Rule) (le : n ≤ tokens.length) (le' : n ≤ tokens'.length) :
      Alike text text' tokens tokens' (.failed ⟨leftAt text tokens n, rules⟩)
        (.failed ⟨leftAt text' tokens' n, rules⟩)

/-- Texts with the same lexemes are read alike. -/
theorem alike_of_lexemes {text text' : String} {tokens tokens' : List Token}
    (hread : Token.readAll text = .ok tokens) (hread' : Token.readAll text' = .ok tokens')
    (hsame : tokens.map (·.lexeme) = tokens'.map (·.lexeme)) :
    Alike text text' tokens tokens' (read text) (read text') := by
  have hlength : tokens.length = tokens'.length := by
    simpa using congrArg List.length hsame
  cases hrow : (Reading.start.advance (tokens.map (·.lexeme))).bind Reading.result? with
  | some x =>
    obtain ⟨b, run⟩ := runs_of_sentence (Reading.advance_start_iff.1 hrow)
    rw [List.length_map] at run
    obtain ⟨trees, rest, B, hfound, forms⟩ := read_of_accepted hread run
    rw [hsame, hlength] at run
    obtain ⟨trees', rest', B', hfound', forms'⟩ := read_of_accepted hread' run
    rw [hfound, hfound']
    exact .found forms (hsame ▸ forms') rfl hsame.symm
  | none =>
    obtain ⟨b, run, hstuck⟩ := runs_input hrow
    have hle := hstuck.left_le
    rw [List.length_map] at run hle
    rw [read_of_refused hread run]
    rw [hsame, hlength] at run
    rw [read_of_refused hread' run]
    exact .failed b.left b.failed hle (hlength ▸ hle)

end Descent

namespace Expr

open Token Lexeme

/-- Tokens of a text, put behind one another with any gaps that keep identifiers apart,
are read as the same lexemes.  The grammar finds the same in the two texts, and they are the
same expression, or are refused for the same fault at the same token or both at their end. -/
theorem agree_of_spaced {text : String} {first : List Char} {row : List (Token × List Char)}
    (hread : readAll text = .ok (row.map Prod.fst)) (hfirst : first.all Text.isBlank = true)
    (hgaps : ∀ e ∈ row, e.2.all Text.isBlank = true) (hapart : KeptApart row) :
    ∃ tokens, readAll (String.ofList (first ++ spaced row)) = .ok tokens ∧
      tokens.map (·.lexeme) = row.map (·.1.lexeme) ∧
      Descent.Alike text (String.ofList (first ++ spaced row)) (row.map Prod.fst) tokens
        (Descent.read text) (Descent.read (String.ofList (first ++ spaced row))) ∧
      Agree (row.map Prod.fst) tokens (Text.width text.toList)
        (Text.width (first ++ spaced row)) (parse text)
        (parse (String.ofList (first ++ spaced row))) := by
  have hvalid : ∀ e ∈ row, e.1.lexeme.Valid := by
    intro e he
    refine (cut_of_readFrom hread).spells.valid _ ?_
    rw [List.map_map]
    exact List.mem_map_of_mem he
  have hspells := (spells_spaced hvalid hgaps hapart).blanks hfirst
  rw [← String.toList_ofList (l := first ++ spaced row)] at hspells
  obtain ⟨tokens, htokens, hlexemes⟩ := lexemes_readAll_iff.2 hspells
  have hsame : (row.map Prod.fst).map (·.lexeme) = tokens.map (·.lexeme) := by
    rw [hlexemes, List.map_map]
    rfl
  refine ⟨tokens, htokens, hlexemes, Descent.alike_of_lexemes hread htokens hsame, ?_⟩
  have hagree := ofTokens_agree (Text.width text.toList) (Text.width (first ++ spaced row)) hsame
  rw [parse_eq, parse_eq, hread, htokens, String.toList_ofList]
  exact hagree

/-- Two names that stay apart, and a symbol and a mark that are moved apart. -/
theorem agree_of_spaced_names :
    ∃ tokens tokens', readAll "ΔΑ1(a b" = .ok tokens ∧ readAll "\u2003ΔΑ1 (a\nb\t" = .ok tokens' ∧
      tokens'.map (·.lexeme) = tokens.map (·.lexeme) ∧
      Descent.Alike "ΔΑ1(a b" "\u2003ΔΑ1 (a\nb\t" tokens tokens' (Descent.read "ΔΑ1(a b")
        (Descent.read "\u2003ΔΑ1 (a\nb\t") ∧
      Agree tokens tokens' 9 14 (parse "ΔΑ1(a b") (parse "\u2003ΔΑ1 (a\nb\t") := by
  let s : Symbol := ⟨'Δ', ['Α'], ['1'], none, by decide, by decide, by decide, by decide,
    by decide, by decide⟩
  let row : List (Token × List Char) :=
    [(⟨.symbol s, 0, 5⟩, [' ']), (⟨.mark .openParen, 5, 6⟩, []),
      (⟨.identifier "a", 6, 7⟩, ['\n']), (⟨.identifier "b", 8, 9⟩, ['\t'])]
  have hread : readAll "ΔΑ1(a b" = .ok (row.map Prod.fst) := by decide +kernel
  have hapart : KeptApart row := by simp [KeptApart, row, isIdentifier]
  have htext : String.ofList (['\u2003'] ++ spaced row) = "\u2003ΔΑ1 (a\nb\t" := by decide +kernel
  have hlength : Text.width "ΔΑ1(a b".toList = 9 := by decide +kernel
  have hlength' : Text.width (['\u2003'] ++ spaced row) = 14 := by decide +kernel
  have hfirst : ['\u2003'].all Text.isBlank = true := by decide
  have hagree := agree_of_spaced hread hfirst (by decide) hapart
  rw [hlength, hlength', htext] at hagree
  obtain ⟨tokens', hread', hlexemes, halike, hplaces⟩ := hagree
  refine ⟨_, tokens', hread, hread', ?_, halike, hplaces⟩
  rw [hlexemes, List.map_map]
  rfl

end Expr

end Sigil
