import Sigil.Proofs.Excess
import Sigil.Proofs.Lacking
import Sigil.Proofs.Language

/-! # What refusals speak about

    Tokens that are refused are refused for one of four reasons
    (`Refusal.Told`), each at the token that it speaks about: there are too
    many brackets or connectives; a connective lacks the operand behind it,
    or the one before it; or something else was expected.  A list of what
    was expected is never empty, and never without a name.

    Nothing else goes wrong.  What a reader by descent accepts has trees,
    and of whatever trees the grammar gives it an expression is built, the
    one that is read.

    Key theorem: `Expr.refusal_is_told`. -/

namespace Sigil

open Grammar

namespace Descent

/-! ### Names -/

/-- What can be listed as expected. -/
def classes : List String :=
  ["end of input", "expression", "symbol", "'¬'", "operator", "identifier", "string literal",
    "'('", "')'", "'['", "']'", "','", "':'"]

theorem description_mem_classes {r : Reading} {e : Expectation} (h : e ∈ r.expected) :
    e.description ∈ classes := by
  cases e with
  | argument => exact absurd h r.unnamed_notMem_expected.1
  | other => exact absurd h r.unnamed_notMem_expected.2
  | mark m => cases m <;> decide
  | _ => decide

theorem listing_of_names_ne_nil {b : Book} (h : b.names ≠ []) :
    b.listing = Text.alternatives b.names := by
  unfold Book.listing
  split
  · next hnil => exact absurd hnil h
  · rfl

/-! ### Stops -/

/-- A reader by descent refuses the tokens, and gets as far as to the one with index `k`. -/
structure Stops (tokens : List Token) (k : Nat) (book : Book) : Prop where
  run : Runs (.rule .input) (tokens.map (·.lexeme)) (.blank tokens.length) none book
  place : k + book.left = tokens.length

/-- Descent stops where the reading stops, with the names of what could go on there. -/
theorem exists_stops {tokens : List Token}
    (h : (Reading.start.advance (tokens.map (·.lexeme))).bind Reading.result? = none) :
    ∃ book, Stops tokens (Reading.start.run tokens).passed.length book ∧
      book.names = (Reading.start.run tokens).reading.expected.map Expectation.description := by
  obtain ⟨book, hrun, hstuck⟩ := runs_input h
  rw [List.length_map] at hrun
  obtain rfl := hstuck.eq_run
  refine ⟨_, ⟨hrun, ?_⟩, names_tried _ _⟩
  show _ + (Reading.start.run tokens).rest.length = _
  rw [← List.length_append, Reading.passed_append_rest]

end Descent

/-! ### Refusals -/

/-- What the refusal of tokens speaks about, and where, in a text of `length` bytes. -/
inductive Refusal.Told (tokens : List Token) (length : Nat) (r : Refusal) : Prop where
  /-- The first token with which there is too much of something. -/
  | limit {i : Nat} (blames : r.Blames tokens i) (stage : r.fault.stage = .grammatical)
      (message : r.fault.message = "expression nests too deeply (limit 256)"
        ∨ r.fault.message = "expression has too many operators (limit 256)")
  /-- The connective just before the stop. -/
  | operand {k : Nat} {book : Descent.Book} {t : Token} {c : Connective}
      (stops : Descent.Stops tokens (k + 1) book) (token : tokens[k]? = some t)
      (lexeme : t.lexeme = .connective c) (stage : r.fault.stage = .semantic)
      (message : r.fault.message = "operator '" ++ c.text ++ "' is missing its "
        ++ if c.isUnary then "operand" else "right-hand operand")
      (span : r.span = t.span)
  /-- The connective at the stop. -/
  | left {k : Nat} {book : Descent.Book} {t : Token} {c : Connective}
      (stops : Descent.Stops tokens k book) (token : tokens[k]? = some t)
      (lexeme : t.lexeme = .connective c) (stage : r.fault.stage = .semantic)
      (message : r.fault.message = "operator '" ++ c.text ++ "' is missing its left-hand operand")
      (span : r.span = t.span)
  /-- The token at the stop, or the end of the text when all tokens are passed. -/
  | unexpected {k : Nat} {book : Descent.Book} (stops : Descent.Stops tokens k book)
      (nonempty : book.names ≠ []) (named : ∀ name ∈ book.names, name ∈ Descent.classes)
      (stage : r.fault.stage = .grammatical)
      (message : r.fault.message = "expected " ++ book.listing ++ ", found "
        ++ (tokens[k]?.map (·.lexeme.description)).getD "end of input")
      (span : r.span = (tokens[k]?.map (·.span)).getD (.point length))

/-- The span is a stretch of the text, from the end of one character to that of another. -/
structure Span.Within (s : Span) (text : String) : Prop where
  le : s.start ≤ s.stop
  start : (String.Pos.Raw.mk s.start).IsValid text
  stop : (String.Pos.Raw.mk s.stop).IsValid text

namespace Refusal

/-- A token that a refusal speaks about, or else the end of the text. -/
theorem Told.span_eq {tokens : List Token} {length : Nat} {r : Refusal} (h : r.Told tokens length) :
    (∃ t ∈ tokens, r.span = t.span) ∨ r.span = .point length := by
  cases h with
  | limit blames =>
    obtain ⟨t, ht, hspan⟩ := blames.token
    exact .inl ⟨t, List.mem_of_getElem? ht, hspan⟩
  | operand _ token _ _ _ span | left _ token _ _ _ span =>
    exact .inl ⟨_, List.mem_of_getElem? token, span⟩
  | @unexpected k _ _ _ _ _ _ span =>
    -- only here there may be no token left to speak about
    cases htoken : tokens[k]? with
    | none =>
      rw [htoken] at span
      exact .inr span
    | some t =>
      rw [htoken] at span
      exact .inl ⟨t, List.mem_of_getElem? htoken, span⟩

/-- What a refusal speaks about lies in the text. -/
theorem Told.within {text : String} {tokens : List Token} {r : Refusal}
    (htokens : Token.readAll text = .ok tokens)
    (h : r.Told tokens (Text.width text.toList)) : r.span.Within text := by
  have hexact := (Token.cut_of_readFrom htokens).exact
  rcases h.span_eq with ⟨t, ht, hspan⟩ | hspan
  · rw [hspan]
    obtain ⟨hstart, hstop⟩ := hexact.between t ht
    exact ⟨Nat.le_of_lt (hexact.nonempty t ht), hstart, hstop⟩
  · have hend : (String.Pos.Raw.mk (Text.width text.toList)).IsValid text :=
      Text.isValid_width (List.append_nil _).symm
    rw [hspan]
    exact ⟨Nat.le_refl _, hend, hend⟩

end Refusal

/-- What is said of a limit. -/
theorem Fault.message_of_isLimit {f : Fault} (h : f.isLimit = true) :
    f.stage = .grammatical ∧ (f.message = "expression nests too deeply (limit 256)"
      ∨ f.message = "expression has too many operators (limit 256)") := by
  cases f with
  | tooDeep => exact ⟨rfl, .inl ((message_eq_tooDeep_iff h).2 rfl)⟩
  | tooManyConnectives => exact ⟨rfl, .inr ((message_eq_tooManyConnectives_iff h).2 rfl)⟩
  | _ => cases h

/-- A limit is said to be exceeded at the first token with which it is. -/
theorem Tally.told_of_firstExcess {tokens : List Token} (length : Nat) {r : Refusal}
    (h : zero.firstExcess tokens = some r) : r.Told tokens length := by
  obtain ⟨i, hblames, -⟩ := blames_of_firstExcess h
  obtain ⟨_, _, _, -, -, -, hexcess, -⟩ := exists_split_of_firstExcess h
  obtain ⟨hstage, hmessage⟩ := Fault.message_of_isLimit (isLimit_of_excess hexcess)
  exact .limit hblames hstage hmessage

/-- Where the reading stops in tokens that are no expression, one of the last three things
is said. -/
theorem Reading.told_refusal {tokens : List Token} (length : Nat)
    (h : (start.advance (tokens.map (·.lexeme))).bind result? = none) :
    ((start.run tokens).refusal length).Told tokens length := by
  obtain ⟨book, hstops, hnames⟩ := Descent.exists_stops h
  have hhead := head?_rest start tokens
  cases hoperand : Token.lacksOperand? (start.run tokens).passed.getLast?
      (start.run tokens).rest.head? with
  | some lacking =>
    obtain ⟨t, c⟩ := lacking
    obtain ⟨hlast, hlexeme, -⟩ := Token.lacksOperand?_eq_some_iff.1 hoperand
    rw [Halt.refusal_of_lacksOperand length hoperand]
    -- there is a token before the stop
    rw [getLast?_passed] at hlast
    split at hlast
    · cases hlast
    · next hpos =>
      obtain ⟨k, hk⟩ := Nat.exists_eq_succ_of_ne_zero hpos
      rw [hk] at hstops hlast
      exact .operand hstops hlast hlexeme rfl rfl rfl
  | none =>
    cases hleft : Token.lacksLeft? (start.run tokens).passed.getLast?
        (start.run tokens).rest.head? with
    | some lacking =>
      obtain ⟨t, c⟩ := lacking
      obtain ⟨hfound, hlexeme, -⟩ := Token.lacksLeft?_eq_some_iff.1 hleft
      rw [Halt.refusal_of_lacksLeft length hoperand hleft]
      rw [hhead] at hfound
      exact .left hstops hfound hlexeme rfl rfl rfl
    | none =>
      rw [Halt.refusal_of_lacks_none length hoperand hleft]
      -- the names in the book are those that the message lists
      have hsome : book.names ≠ [] := by
        rw [hnames]
        intro hnil
        exact expected_ne_nil _ (List.map_eq_nil_iff.1 hnil)
      refine .unexpected hstops hsome ?_ rfl ?_ (by rw [hhead])
      · rw [hnames]
        intro name hname
        obtain ⟨e, he, rfl⟩ := List.mem_map.1 hname
        exact Descent.description_mem_classes he
      · have hfound : (tokens[(start.run tokens).passed.length]?.map (·.lexeme)).map
            Lexeme.description = tokens[(start.run tokens).passed.length]?.map
              (·.lexeme.description) := Option.map_map ..
        rw [Descent.listing_of_names_ne_nil hsome, hnames, hhead, ← hfound,
          ← Expectation.listing_eq (expected_ne_nil _)]
        rfl

namespace Expr

open Descent

theorem told_of_parse {text : String} {tokens : List Token} {r : Refusal}
    (htokens : Token.readAll text = .ok tokens) (h : parse text = .error r) :
    r.Told tokens (Text.width text.toList) := by
  cases hexcess : Tally.zero.firstExcess tokens with
  | some r' =>
    obtain ⟨hr', -⟩ := (parse_eq_limit_iff htokens).2 hexcess
    obtain rfl := Except.error.inj (h.symm.trans hr')
    exact Tally.told_of_firstExcess _ hexcess
  | none =>
    have hrejected : (Reading.start.advance (tokens.map (·.lexeme))).bind Reading.result?
        = none := by
      rw [Option.eq_none_iff_forall_ne_some]
      intro x hx
      rw [parse_eq_ok_iff.2 ⟨tokens, htokens, hexcess, Reading.advance_start_iff.1 hx⟩] at h
      cases h
    have hr := parse_eq_error htokens hexcess hrejected
    obtain rfl := Except.error.inj (h.symm.trans hr)
    exact Reading.told_refusal _ hrejected

/-- Tokens that are refused are refused for one of four reasons, at a place in the text that
the refusal speaks about; looked up by its byte, the stop is found at the same token again.
Tokens that are read are accepted by descent as well; what descent accepts, it accepts as a
whole, and it has trees; and of all trees that the grammar gives the tokens an expression is
built, without a defect and without a crash.  It is the one that is read, if the limits
allow it. -/
theorem refusal_is_told {text : String} {tokens : List Token}
    (htokens : Token.readAll text = .ok tokens) :
    (∀ r, parse text = .error r →
      r.Told tokens (Text.width text.toList) ∧ r.span.Within text) ∧
    (∀ k book, Stops tokens k book →
      tokens.findIdx (fun t => Token.placeAt (Text.width text.toList) tokens k < t.span.stop)
        = k) ∧
    (∀ x, parse text = .ok x →
      ∃ book, Runs (.rule .input) (tokens.map (·.lexeme)) (.blank tokens.length) (some []) book) ∧
    (∀ rest book,
      Runs (.rule .input) (tokens.map (·.lexeme)) (.blank tokens.length) (some rest) book →
      rest = [] ∧ ∃ trees, Forms (.rule .input) (tokens.map (·.lexeme)) trees) ∧
    ∀ trees, Forms (.rule .input) (tokens.map (·.lexeme)) trees →
      ∃ x, build trees = pure x ∧ Sentence (tokens.map (·.lexeme)) x ∧
        (parse text = .ok x ∨ ∃ r, parse text = .error r ∧ r.fault.isLimit = true) := by
  refine ⟨?_, ?_, ?_, fun rest book hrun => forms_of_accepted hrun, ?_⟩
  · intro r hr
    have htold := told_of_parse htokens hr
    exact ⟨htold, htold.within htokens⟩
  · intro k book hstops
    have hplace := hstops.place
    apply Token.findIdx_placeAt (Token.cut_of_readFrom htokens)
    omega
  · intro x hx
    obtain ⟨tokens', htokens', hlimits, -⟩ := parse_eq_ok_iff.1 hx
    obtain rfl := Except.ok.inj (htokens.symm.trans htokens')
    exact (parse_iff_runs htokens hlimits).1.1 ⟨x, hx⟩
  · intro trees hforms
    obtain ⟨x, hbuild, hx⟩ := build_of_forms hforms
    refine ⟨x, hbuild, hx, ?_⟩
    -- only the limits can keep a sentence from being read
    cases hexcess : Tally.zero.firstExcess tokens with
    | none => exact .inl (parse_eq_ok_iff.2 ⟨tokens, htokens, hexcess, hx⟩)
    | some r => exact .inr ⟨r, (parse_eq_limit_iff htokens).2 hexcess⟩

/-- A connective at the end, and a literal in an argument. -/
theorem refusal_is_told_argument :
    (∃ tokens r, Token.readAll "ΔΑ1 ∧" = .ok tokens ∧ parse "ΔΑ1 ∧" = .error r ∧
      r.fault.message = "operator '∧' is missing its right-hand operand" ∧ r.span = ⟨6, 9⟩ ∧
      r.Told tokens 9 ∧ r.span.Within "ΔΑ1 ∧") ∧
    ∃ tokens trees x, Token.readAll "ΔΑ1(k: 'β')" = .ok tokens ∧
      Forms (.rule .input) (tokens.map (·.lexeme)) trees ∧ build trees = pure x ∧
      x.canonical = "ΔΑ1(k: 'β')" := by
  let s : Symbol := ⟨'Δ', ['Α'], ['1'], none, by decide, by decide, by decide, by decide,
    by simp, by decide⟩
  constructor
  · have htokens : Token.readAll "ΔΑ1 ∧" = .ok [⟨.symbol s, 0, 5⟩, ⟨.connective .and, 6, 9⟩] := by
      decide +kernel
    have hparse : parse "ΔΑ1 ∧" = .error ⟨.missingOperand .and, 6, 9⟩ := by decide +kernel
    obtain ⟨htold, hwithin⟩ := (refusal_is_told htokens).1 _ hparse
    exact ⟨_, _, htokens, hparse, by decide +kernel, rfl, htold, hwithin⟩
  · have hparse : parse "ΔΑ1(k: 'β')" = .ok (.call s (.ofList [("k", .text "β")])) := by
      decide +kernel
    obtain ⟨tokens, htokens, -⟩ := parse_eq_ok_iff.1 hparse
    obtain ⟨-, -, hread, haccepted, hbuilt⟩ := refusal_is_told htokens
    obtain ⟨book, hrun⟩ := hread _ hparse
    obtain ⟨-, trees, hforms⟩ := haccepted [] book hrun
    obtain ⟨x, hbuild, -, hx⟩ := hbuilt trees hforms
    have hread' : parse "ΔΑ1(k: 'β')" = .ok x := by
      rcases hx with hx | ⟨r, hr, -⟩
      · exact hx
      · rw [hparse] at hr
        cases hr
    obtain rfl := Except.ok.inj (hparse.symm.trans hread')
    exact ⟨tokens, trees, _, htokens, hforms, hbuild, by decide +kernel⟩

end Expr

end Sigil
