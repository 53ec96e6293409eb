import Sigil.Expr.Canonical
import Sigil.Proofs.Climbing
import Sigil.Proofs.Limits
import Sigil.Proofs.Parsing

/-! # The language of expressions

    Which texts are expressions, and of which shape.  A text is accepted
    when it can be cut into tokens, the tokens are a sentence of the
    grammar, and they stay within the limits (`Expr.accepts_iff`); what is
    then returned is the one expression that the grammar gives them
    (`Expr.shape_of_parse`). -/

namespace Sigil

open Grammar

namespace Expr

/-- A text is read as `x` when its tokens stay within the limits and are the
sentence `x`. -/
theorem parse_eq_ok_iff {text : String} {x : Expr} :
    parse text = .ok x ↔ ∃ tokens, Token.readAll text = .ok tokens ∧
      Tally.zero.firstExcess tokens = none ∧ Sentence (tokens.map (·.lexeme)) x := by
  rw [parse_eq]
  cases htok : Token.readAll text with
  | error r =>
    refine iff_of_false nofun ?_
    rintro ⟨tokens, h, -⟩
    cases h
  | ok tokens =>
    have hrun : (Reading.start.run tokens).result? = some x
        ↔ Sentence (tokens.map (·.lexeme)) x := by
      rw [Reading.result?_run]
      exact Reading.advance_start_iff
    show ofTokens (Text.width text.toList) tokens = .ok x ↔ _
    constructor
    · intro h
      cases hlimit : Tally.zero.firstExcess tokens with
      | some r => simp [ofTokens, hlimit] at h
      | none =>
        cases hread : (Reading.start.run tokens).result? with
        | none => simp [ofTokens, hlimit, hread] at h
        | some y =>
          have hy : y = x := by simpa [ofTokens, hlimit, hread] using h
          exact ⟨tokens, rfl, hlimit, hrun.1 (hy ▸ hread)⟩
    · rintro ⟨tokens', htok', hlimit, hsentence⟩
      cases htok'
      simp only [ofTokens, hlimit, hrun.2 hsentence]

theorem exists_parse_of_toOption {α : Type} {text : String} {f : Expr → α} {a : α}
    (h : (parse text).toOption.map f = some a) : ∃ x, parse text = .ok x ∧ f x = a := by
  cases hparse : parse text with
  | error r =>
    rw [hparse] at h
    cases h
  | ok x =>
    rw [hparse] at h
    exact ⟨x, rfl, Option.some.inj h⟩

/-- Within the limits, the texts that are read as an expression are those whose lexemes a
reader by descent accepts.  The others are refused for what is in its book, between the
tokens around the place there. -/
theorem parse_iff_runs {text : String} {tokens : List Token}
    (htokens : Token.readAll text = .ok tokens) (hlimits : Tally.zero.firstExcess tokens = none) :
    ((∃ x, parse text = .ok x) ↔ ∃ b, Descent.Runs (.rule .input) (tokens.map (·.lexeme))
      (.blank tokens.length) (some []) b) ∧
    ∀ b, Descent.Runs (.rule .input) (tokens.map (·.lexeme)) (.blank tokens.length) none b →
      parse text = .error (.between (Text.width text.toList)
        (tokens.take (tokens.length - b.left)).getLast? tokens[tokens.length - b.left]?
        b.expected) := by
  constructor
  · rw [← List.length_map (·.lexeme), Descent.runs_input_iff]
    apply exists_congr
    intro x
    rw [parse_eq_ok_iff]
    constructor
    · rintro ⟨tokens', htokens', -, hx⟩
      rwa [Except.ok.inj (htokens.symm.trans htokens')]
    · intro hx
      exact ⟨tokens, htokens, hlimits, hx⟩
  · intro b run
    exact (parse_within htokens hlimits).trans (ofFinding_of_refused htokens run)

/-- On a sentence, the limits are that brackets nest within 256 levels and that
there are at most 256 connectives. -/
theorem firstExcess_eq_none_iff_of_sentence {tokens : List Token} {x : Expr}
    (h : Sentence (tokens.map (·.lexeme)) x) :
    Tally.zero.firstExcess tokens = none ↔
      Lexeme.NestWithin maxNesting (tokens.map (·.lexeme)) ∧
        (tokens.map (·.lexeme)).countP Lexeme.isConnective ≤ maxConnectives := by
  obtain ⟨r, hr, -⟩ := Option.bind_eq_some_iff.1 (Reading.advance_start_iff.2 h)
  rw [Tally.firstExcess_zero_eq_none_iff, Reading.nestWithin_iff hr]

/-! ### Acceptance and shape -/

/-- The text can be cut into tokens, and these are a sentence of the grammar, nest
within 256 levels and have at most 256 connectives. -/
def Acceptable (text : String) : Prop :=
  ∃ tokens, Token.readAll text = .ok tokens ∧
    (∃ x, Sentence (tokens.map (·.lexeme)) x) ∧
    Lexeme.NestWithin 256 (tokens.map (·.lexeme)) ∧
    (tokens.map (·.lexeme)).countP Lexeme.isConnective ≤ 256

/-- The acceptable texts are read as an expression, and all others are refused. -/
theorem accepts_iff (text : String) :
    ((∃ x, parse text = .ok x) ↔ Acceptable text) ∧
    ((∃ r, parse text = .error r) ↔ ¬ Acceptable text) := by
  have hok : (∃ x, parse text = .ok x) ↔ Acceptable text := by
    constructor
    · rintro ⟨x, h⟩
      obtain ⟨tokens, htok, hlimit, hx⟩ := parse_eq_ok_iff.1 h
      exact ⟨tokens, htok, ⟨x, hx⟩, (firstExcess_eq_none_iff_of_sentence hx).1 hlimit⟩
    · rintro ⟨tokens, htok, ⟨x, hx⟩, hlimits⟩
      have hlimit := (firstExcess_eq_none_iff_of_sentence hx).2 hlimits
      exact ⟨x, parse_eq_ok_iff.2 ⟨tokens, htok, hlimit, hx⟩⟩
  refine ⟨hok, ?_⟩
  rw [← hok]
  cases parse text with
  | ok x => exact iff_of_false nofun fun h => h ⟨x, rfl⟩
  | error r => exact iff_of_true ⟨r, rfl⟩ nofun

/-- The expression that a text is read as is the one that the layered grammar gives
its tokens, and the one to which they climb as a flat row; the arguments of a call
are collected in order, where a name keeps its first place and its last value. -/
theorem shape_of_parse {text : String} {x : Expr} (h : parse text = .ok x) :
    ∃ tokens, Token.readAll text = .ok tokens ∧
      (∀ y, Sentence (tokens.map (·.lexeme)) y ↔ y = x) ∧
      (∀ y, FlatSentence (tokens.map (·.lexeme)) y ↔ y = x) ∧
      ∀ entries, (Arguments.ofList entries).keys = (entries.map Prod.fst).eraseDups ∧
        ∀ key, (Arguments.ofList entries).get? key = entries.reverse.lookup key := by
  obtain ⟨tokens, htok, -, hx⟩ := parse_eq_ok_iff.1 h
  have hshape : ∀ y, Sentence (tokens.map (·.lexeme)) y ↔ y = x := by
    intro y
    constructor
    · intro hy
      exact sentence_unique hy hx
    · rintro rfl
      exact hx
  refine ⟨tokens, htok, hshape, fun y => flatSentence_iff.trans (hshape y), fun entries => ?_⟩
  exact ⟨Arguments.keys_ofList entries, Arguments.get?_ofList entries⟩

/-- Connectives that group to either side, a `¬`, and a name that comes twice. -/
theorem shape_of_parse_mixed :
    ∃ x, parse "ΔΑ1⇒¬ΔΑ2∧ΔΑ3∧ΔΑ4⇒ΔΑ5(K:'a',L:[],K:[b])" = .ok x ∧
      x.canonical = "(ΔΑ1 ⇒ (((¬ΔΑ2 ∧ ΔΑ3) ∧ ΔΑ4) ⇒ ΔΑ5(K: [b], L: [])))" ∧
      ∃ tokens, Token.readAll "ΔΑ1⇒¬ΔΑ2∧ΔΑ3∧ΔΑ4⇒ΔΑ5(K:'a',L:[],K:[b])" = .ok tokens ∧
        (∀ y, Sentence (tokens.map (·.lexeme)) y ↔ y = x) ∧
        (∀ y, FlatSentence (tokens.map (·.lexeme)) y ↔ y = x) := by
  have hcanon : (parse "ΔΑ1⇒¬ΔΑ2∧ΔΑ3∧ΔΑ4⇒ΔΑ5(K:'a',L:[],K:[b])").toOption.map canonical
      = some "(ΔΑ1 ⇒ (((¬ΔΑ2 ∧ ΔΑ3) ∧ ΔΑ4) ⇒ ΔΑ5(K: [b], L: [])))" := by decide +kernel
  obtain ⟨x, hparse, hx⟩ := exists_parse_of_toOption hcanon
  obtain ⟨tokens, htok, hlayered, hflat, -⟩ := shape_of_parse hparse
  exact ⟨x, hparse, hx, tokens, htok, hlayered, hflat⟩

end Expr

end Sigil
