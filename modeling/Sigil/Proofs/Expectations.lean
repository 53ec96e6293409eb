import Sigil.Proofs.Parsing

/-! # The first offence and what was expected

    Tokens that are no expression are refused at the first one with which
    no expression begins, or at the end of the text when every token fits.
    What the message lists there is exactly what could stand in the place
    (`Grammar.Expects`): a class of lexemes is listed when one of them goes
    on with an expression, and the end of the text when an expression is
    complete.

    Key theorem: `Expr.refusal_is_exact`. -/

namespace Sigil

open Grammar

/-! ### Names of lexemes -/

/-- A list that is not empty is given as alternatives. -/
theorem Expectation.listing_eq {expected : List Expectation} (h : expected ≠ []) :
    listing expected = Text.alternatives (expected.map description) := by
  cases expected with
  | nil => exact absurd rfl h
  | cons e es => rfl

namespace Lexeme

/-- The class of a lexeme, as a message names it. -/
def expectation : Lexeme → Expectation
  | .symbol _ => .symbol
  | .identifier _ => .identifier
  | .literal .. => .literal
  | .connective .not => .negation
  | .connective _ => .connective
  | .mark m => .mark m

/-- Can an expression begin with the lexeme? -/
def beginsExpression : Lexeme → Bool
  | .symbol _ | .connective .not | .mark .openParen => true
  | _ => false

def isSymbol : Lexeme → Bool
  | .symbol _ => true
  | _ => false

theorem expectation_ne_expression (l : Lexeme) : l.expectation ≠ .expression := by
  rcases l with _ | _ | _ | ⟨⟨⟩⟩ | ⟨⟨⟩⟩ <;> nofun

end Lexeme

namespace Grammar

/-- Does a group begin behind the row?  One does at the start of a text, and behind a
parenthesis that does not open the arguments of a symbol. -/
def groupBegins (ls : List Lexeme) : Bool :=
  match ls.getLast? with
  | none => true
  | some (.mark .openParen) => !ls.dropLast.getLast?.any Lexeme.isSymbol
  | some _ => false

theorem groupBegins_append_openParen (ls : List Lexeme) :
    groupBegins (ls ++ [.mark .openParen]) = !ls.getLast?.any Lexeme.isSymbol := by
  simp [groupBegins]

theorem groupBegins_append_of_ne (ls : List Lexeme) {l : Lexeme} (h : l ≠ .mark .openParen) :
    groupBegins (ls ++ [l]) = false := by
  unfold groupBegins
  rw [List.getLast?_concat]
  split <;> simp_all

/-- The name under which a message lists a lexeme behind the row.  Where a group begins,
the lexemes with which an expression begins go under one name. -/
def nameBehind (ls : List Lexeme) (l : Lexeme) : Expectation :=
  if groupBegins ls && l.beginsExpression then .expression else l.expectation

/-- The list says what can follow the row: the names of the lexemes with which an
expression goes on, nothing else and nothing twice, and the end of the text when the row
is an expression. -/
structure Expects (ls : List Lexeme) (expected : List Expectation) : Prop where
  lexeme : ∀ l, nameBehind ls l ∈ expected ↔ Viable (ls ++ [l])
  endOfText : .endOfText ∈ expected ↔ ∃ x, Sentence ls x
  named : ∀ e ∈ expected, e = .endOfText ∨ ∃ l, nameBehind ls l = e
  nodup : expected.Nodup

end Grammar

/-! ### What fits a reading -/

namespace Reading

/-- Is the reading at the start of a group? -/
def AtGroupStart (r : Reading) : Prop :=
  r.site = .operand ∧ r.group = .fresh

theorem expected_of_atGroupStart {r : Reading} (h : r.AtGroupStart) :
    r.expected = [.expression] := by
  obtain ⟨g, outer, site⟩ := r
  obtain ⟨rfl, rfl⟩ := h
  rfl

theorem step_isSome_of_atGroupStart {r : Reading} (h : r.AtGroupStart) (l : Lexeme) :
    (r.step l).isSome = l.beginsExpression := by
  obtain ⟨g, outer, site⟩ := r
  obtain ⟨rfl, rfl⟩ := h
  cases l with
  | connective c => cases c <;> rfl
  | mark m => cases m <;> rfl
  | _ => rfl

/-- Elsewhere than at the start of a group, a lexeme fits when its class is listed. -/
theorem contains_expected {r : Reading} (h : ¬ r.AtGroupStart) (l : Lexeme) :
    r.expected.contains l.expectation = (r.step l).isSome := by
  obtain ⟨⟨waiting, negated⟩, outer, site⟩ := r
  cases site with
  | operand =>
    cases negated with
    | true => rcases l with _ | _ | _ | ⟨⟨⟩⟩ | ⟨⟨⟩⟩ <;> rfl
    | false =>
      cases waiting with
      | nil => exact absurd ⟨rfl, rfl⟩ h
      | cons w waiting => rcases l with _ | _ | _ | ⟨⟨⟩⟩ | ⟨⟨⟩⟩ <;> rfl
  | called s => cases outer <;> rcases l with _ | _ | _ | ⟨⟨⟩⟩ | ⟨⟨⟩⟩ <;> rfl
  | complete x => cases outer <;> rcases l with _ | _ | _ | ⟨⟨⟩⟩ | ⟨⟨⟩⟩ <;> rfl
  | _ => rcases l with _ | _ | _ | ⟨⟨⟩⟩ | ⟨⟨⟩⟩ <;> rfl

theorem endOfText_mem_expected_iff (r : Reading) :
    .endOfText ∈ r.expected ↔ ∃ x, r.result? = some x := by
  obtain ⟨g, outer, site⟩ := r
  cases site with
  | operand =>
    obtain ⟨waiting, negated⟩ := g
    cases negated <;> cases waiting <;> cases outer <;> simp [expected, result?, operand?]
  | _ => cases outer <;> simp [expected, expectedAfterOperand, result?, operand?]

theorem nodup_expected (r : Reading) : r.expected.Nodup := by
  obtain ⟨g, outer, site⟩ := r
  cases site with
  | operand =>
    obtain ⟨waiting, negated⟩ := g
    cases negated <;> cases waiting <;> simp [expected]
  | _ => cases outer <;> simp [expected, expectedAfterOperand]

theorem expression_notMem_expected {r : Reading} (h : ¬ r.AtGroupStart) :
    .expression ∉ r.expected := by
  obtain ⟨g, outer, site⟩ := r
  cases site with
  | operand =>
    obtain ⟨waiting, negated⟩ := g
    cases negated <;> cases waiting <;> simp_all [expected, AtGroupStart, Group.fresh]
  | _ => cases outer <;> simp [expected, expectedAfterOperand]

/-- Neither an argument nor what has no name is ever expected. -/
theorem unnamed_notMem_expected (r : Reading) : .argument ∉ r.expected ∧ .other ∉ r.expected := by
  obtain ⟨g, outer, site⟩ := r
  cases site with
  | operand =>
    obtain ⟨waiting, negated⟩ := g
    cases negated <;> cases waiting <;> simp [expected]
  | _ => cases outer <;> simp [expected, expectedAfterOperand]

/-- What is expected at a stop is the end of the text, an expression, or a class of lexemes. -/
theorem exists_of_mem_expected {r : Reading} {e : Expectation} (h : e ∈ r.expected)
    (hend : e ≠ .endOfText) (hexpression : e ≠ .expression) :
    ∃ l : Lexeme, l.expectation = e := by
  cases e with
  | endOfText => exact absurd rfl hend
  | expression => exact absurd rfl hexpression
  | argument => exact absurd h (unnamed_notMem_expected r).1
  | other => exact absurd h (unnamed_notMem_expected r).2
  | symbol => exact ⟨.symbol someSymbol, rfl⟩
  | negation => exact ⟨.connective .not, rfl⟩
  | connective => exact ⟨.connective .and, rfl⟩
  | identifier => exact ⟨.identifier "a", rfl⟩
  | literal => exact ⟨.literal .single "", rfl⟩
  | mark m => exact ⟨.mark m, rfl⟩

/-- Something is expected at every stop. -/
theorem expected_ne_nil (r : Reading) : r.expected ≠ [] := by
  obtain ⟨g, outer, site⟩ := r
  cases site with
  | operand =>
    obtain ⟨waiting, negated⟩ := g
    cases negated <;> cases waiting <;> simp [expected]
  | _ => cases outer <;> simp [expected, expectedAfterOperand]

/-! ### Where groups begin -/

/-- The row tells where the reading stands: behind a symbol, or at the start of a group. -/
structure Tracks (r : Reading) (ls : List Lexeme) : Prop where
  called : (∃ s, r.site = .called s) ↔ ls.getLast?.any Lexeme.isSymbol = true
  start : r.AtGroupStart ↔ groupBegins ls = true

theorem tracks_start : Tracks start [] where
  called := by simp [start]
  start := by simp [AtGroupStart, start, groupBegins]

/-- A move to a place that is neither behind a symbol nor at the start of a group. -/
theorem Tracks.of_inner {r : Reading} {l : Lexeme} (ls : List Lexeme)
    (hcalled : ∀ s, r.site ≠ .called s) (hstart : ¬ r.AtGroupStart)
    (hsymbol : l.isSymbol = false) (hopen : l ≠ .mark .openParen) : Tracks r (ls ++ [l]) where
  called := by simp [hcalled, hsymbol]
  start := by simp [hstart, groupBegins_append_of_ne ls hopen]

theorem Tracks.of_fill {g : Group} {outer : List Group} {slot : Slot} {v : Value} {l : Lexeme}
    (ls : List Lexeme) (hsymbol : l.isSymbol = false) (hopen : l ≠ .mark .openParen) :
    Tracks ⟨g, outer, slot.fill v⟩ (ls ++ [l]) := by
  obtain ⟨s, earlier, key, lists⟩ := slot
  cases lists with
  | nil => exact .of_inner ls nofun (fun h => nomatch h.1) hsymbol hopen
  | cons items lists => exact .of_inner ls nofun (fun h => nomatch h.1) hsymbol hopen

theorem Tracks.move {r r' : Reading} {ls : List Lexeme} {l : Lexeme} (h : r.Tracks ls)
    (hmove : Moves r l r') : r'.Tracks (ls ++ [l]) := by
  cases hmove with
  | symbol s =>
    constructor
    · simp [Lexeme.isSymbol]
    · have hne : Lexeme.symbol s ≠ .mark .openParen := nofun
      rw [groupBegins_append_of_ne ls hne]
      simp [AtGroupStart]
  | not =>
    refine .of_inner ls nofun ?_ rfl nofun
    rintro ⟨-, hg⟩
    cases hg
  | enter =>
    constructor
    · simp [Lexeme.isSymbol]
    · have hcalled := h.called
      rw [groupBegins_append_openParen]
      simp_all [AtGroupStart]
  | firstName =>
    constructor
    · simp [Lexeme.isSymbol]
    · have hcalled := h.called.1 ⟨_, rfl⟩
      rw [groupBegins_append_openParen, hcalled]
      simp [AtGroupStart]
  | push operand binary =>
    refine .of_inner ls nofun ?_ rfl nofun
    rintro ⟨-, hg⟩
    cases hg
  | scalar value =>
    rcases scalar_of_isValue value with ⟨name, rfl⟩ | ⟨q, content, rfl⟩
    · exact .of_fill ls rfl nofun
    · exact .of_fill ls rfl nofun
  | firstScalar value =>
    rcases scalar_of_isValue value with ⟨name, rfl⟩ | ⟨q, content, rfl⟩
    · exact .of_inner ls nofun (fun h => nomatch h.1) rfl nofun
    · exact .of_inner ls nofun (fun h => nomatch h.1) rfl nofun
  | emptyList | closeList => exact .of_fill ls rfl nofun
  | _ => exact .of_inner ls nofun (fun h => nomatch h.1) rfl nofun

theorem tracks_of_advance {ls : List Lexeme} {r : Reading} (h : start.advance ls = some r) :
    r.Tracks ls :=
  advance_induction (P := Tracks) tracks_start (fun h hmove => h.move hmove) h

/-! ### What is listed is what can follow -/

theorem expects_of_advance {ls : List Lexeme} {r : Reading} (h : start.advance ls = some r) :
    Expects ls r.expected := by
  have htracks := tracks_of_advance h
  have hend : .endOfText ∈ r.expected ↔ ∃ x, Sentence ls x := by
    rw [endOfText_mem_expected_iff]
    exact exists_congr fun x => (sentence_iff_of_advance h x).symm
  by_cases hr : r.AtGroupStart
  · -- one name stands for all that can begin an expression
    have hbegins := htracks.start.1 hr
    have hname : ∀ l, nameBehind ls l = .expression ↔ l.beginsExpression = true := by
      intro l
      rw [nameBehind, hbegins, Bool.true_and]
      split
      · next hl => exact iff_of_true rfl hl
      · next hl => exact iff_of_false l.expectation_ne_expression hl
    constructor
    · intro l
      rw [viable_concat_iff h, step_isSome_of_atGroupStart hr, expected_of_atGroupStart hr,
        List.mem_singleton]
      exact hname l
    · exact hend
    · intro e he
      rw [expected_of_atGroupStart hr, List.mem_singleton] at he
      exact .inr ⟨.symbol someSymbol, by rw [he, hname]; rfl⟩
    · exact r.nodup_expected
  · have hbegins : groupBegins ls = false := by
      rw [← Bool.not_eq_true, ← htracks.start]
      exact hr
    have hname : ∀ l, nameBehind ls l = l.expectation := by
      intro l
      rw [nameBehind, hbegins]
      rfl
    constructor
    · intro l
      rw [viable_concat_iff h, hname, ← contains_expected hr, List.contains_iff_mem]
    · exact hend
    · intro e he
      by_cases he' : e = .endOfText
      · exact .inl he'
      · have hne : e ≠ .expression := by
          rintro rfl
          exact expression_notMem_expected hr he
        obtain ⟨l, hl⟩ := exists_of_mem_expected he he' hne
        exact .inr ⟨l, (hname l).trans hl⟩
    · exact r.nodup_expected

/-! ### The first offence -/

/-- What goes one token past the stop begins no expression. -/
theorem not_viable_take_succ {tokens : List Token} {k : Nat}
    (hk : (start.run tokens).passed.length = k) (hlt : k < tokens.length) :
    ¬ Viable ((tokens.take (k + 1)).map (·.lexeme)) := by
  obtain ⟨hreached, hhalted⟩ := advance_passed start tokens
  rw [(passed_eq_take start tokens).1, hk] at hreached
  rw [head?_rest, hk, List.getElem?_eq_getElem hlt] at hhalted
  have hget : tokens.take (k + 1) = tokens.take k ++ [tokens[k]] :=
    (List.take_append_getElem hlt).symm
  rw [hget, List.map_append, List.map_singleton, viable_concat_iff hreached, hhalted _ rfl]
  nofun

end Reading

/-! ### Refusals -/

namespace Expr

open Token

theorem parse_eq_error {text : String} {tokens : List Token}
    (htokens : Token.readAll text = .ok tokens)
    (hlimits : Tally.zero.firstExcess tokens = none)
    (hrejected : (Reading.start.advance (tokens.map (·.lexeme))).bind Reading.result? = none) :
    parse text = .error ((Reading.start.run tokens).refusal (Text.width text.toList)) := by
  have hresult : (Reading.start.run tokens).result? = none := by
    rw [Reading.result?_run]
    exact hrejected
  rw [parse_eq, htokens]
  show ofTokens (Text.width text.toList) tokens = _
  simp only [ofTokens, hlimits, hresult]

/-- The list of what was expected is that of the stop, with the token found there. -/
theorem refusal_of_unexpected {h : Reading.Halt} {length : Nat} {expected : List Expectation}
    {found : Option Lexeme} (hfault : (h.refusal length).fault = .unexpected expected found) :
    expected = h.reading.expected ∧ found = h.rest.head?.map (·.lexeme) ∧
      (h.refusal length).span = (h.rest.head?.map (·.span)).getD (.point length) := by
  cases hoperand : lacksOperand? h.passed.getLast? h.rest.head? with
  | some lacking =>
    rw [Reading.Halt.refusal_of_lacksOperand length hoperand] at hfault
    cases hfault
  | none =>
    cases hleft : lacksLeft? h.passed.getLast? h.rest.head? with
    | some lacking =>
      rw [Reading.Halt.refusal_of_lacksLeft length hoperand hleft] at hfault
      cases hfault
    | none =>
      rw [Reading.Halt.refusal_of_lacks_none length hoperand hleft] at hfault ⊢
      cases hfault
      exact ⟨rfl, rfl, rfl⟩

/-- Tokens within the limits that are no sentence are refused at the first of them with
which no sentence begins, or at the end when there is none.  That is the furthest place
in the book of a reader by descent.  A list of what was expected there has the names in
the book, and it is the list of what can follow the tokens before, and of nothing else. -/
theorem refusal_is_exact {text : String} {tokens : List Token}
    (htokens : Token.readAll text = .ok tokens)
    (hlimits : Tally.zero.firstExcess tokens = none)
    (hrejected : ∀ x, ¬ Sentence (tokens.map (·.lexeme)) x) :
    ∃ k refusal book, parse text = .error refusal ∧
      Descent.Runs (.rule .input) (tokens.map (·.lexeme)) (.blank tokens.length) none book ∧
      k + book.left = tokens.length ∧
      (Reading.start.run tokens).passed = tokens.take k ∧
      tokens.findIdx (fun t => placeAt (Text.width text.toList) tokens k < t.span.stop) = k ∧
      Viable ((tokens.take k).map (·.lexeme)) ∧
      (k < tokens.length → ¬ Viable ((tokens.take (k + 1)).map (·.lexeme))) ∧
      ∀ expected found, refusal.fault = .unexpected expected found →
        refusal.span.start = placeAt (Text.width text.toList) tokens k ∧
        found = tokens[k]?.map (·.lexeme) ∧
        expected.map Expectation.description = book.names ∧
        refusal.fault.message = "expected " ++ Text.alternatives book.names ++ ", found "
          ++ (tokens[k]?.map (·.lexeme.description)).getD "end of input" ∧
        Expects ((tokens.take k).map (·.lexeme)) expected := by
  have hnone : (Reading.start.advance (tokens.map (·.lexeme))).bind Reading.result? = none := by
    rw [Option.eq_none_iff_forall_ne_some]
    intro x hx
    exact hrejected x (Reading.advance_start_iff.1 hx)
  obtain ⟨book, hrun, hstuck⟩ := Descent.runs_input hnone
  rw [List.length_map] at hrun
  obtain rfl := hstuck.eq_run
  have hreached := (Reading.advance_passed Reading.start tokens).1
  have htake := (Reading.passed_eq_take Reading.start tokens).1
  have hhead := Reading.head?_rest Reading.start tokens
  have hlength : (Reading.start.run tokens).passed.length + (Reading.start.run tokens).rest.length
      = tokens.length := by
    rw [← List.length_append, Reading.passed_append_rest]
  -- the index of the offence is the number of tokens that fit
  generalize hk : (Reading.start.run tokens).passed.length = k at htake hhead hlength
  rw [htake] at hreached
  refine ⟨k, _, _, parse_eq_error htokens hlimits hnone, hrun, hlength, htake,
    findIdx_placeAt (cut_of_readFrom htokens) (by omega), viable_iff.2 ⟨_, hreached⟩,
    Reading.not_viable_take_succ hk, ?_⟩
  intro expected found hfault
  obtain ⟨rfl, rfl, hspan⟩ := refusal_of_unexpected hfault
  rw [hhead] at hspan hfault ⊢
  have hnames : (Reading.start.run tokens).reading.expected.map Expectation.description
      = Descent.Book.names ⟨(Reading.start.run tokens).rest.length,
          Descent.tried (Reading.start.run tokens).reading⟩ :=
    (Descent.names_tried _ _).symm
  refine ⟨?_, rfl, hnames, ?_, Reading.expects_of_advance hreached⟩
  · rw [hspan, placeAt]
    cases tokens[k]? <;> rfl
  · have hfound : (tokens[k]?.map (·.lexeme)).map Lexeme.description
        = tokens[k]?.map (·.lexeme.description) := Option.map_map ..
    calc _ = (Fault.unexpected (Reading.start.run tokens).reading.expected
            (tokens[k]?.map (·.lexeme))).message := congrArg Fault.message hfault
      _ = "expected " ++ Text.alternatives
            ((Reading.start.run tokens).reading.expected.map Expectation.description)
            ++ ", found " ++ ((tokens[k]?.map (·.lexeme)).map Lexeme.description).getD
              "end of input" := by
        rw [← Expectation.listing_eq (Reading.expected_ne_nil _)]
        rfl
      _ = _ := by rw [hnames, hfound]

/-- A symbol behind a symbol. -/
theorem refusal_is_exact_symbols :
    ∃ tokens refusal book, Token.readAll "ΔΑ1 ΔΑ2" = .ok tokens ∧
      parse "ΔΑ1 ΔΑ2" = .error refusal ∧
      refusal.fault.message = "expected end of input, operator or '(', found symbol 'ΔΑ2'" ∧
      Descent.Runs (.rule .input) (tokens.map (·.lexeme)) (.blank 2) none book ∧
      book.left = 1 ∧ book.names = ["end of input", "operator", "'('"] ∧
      Expects ((tokens.take 1).map (·.lexeme)) [.endOfText, .connective, .mark .openParen] ∧
      Viable ((tokens.take 1).map (·.lexeme)) ∧ ¬ Viable ((tokens.take 2).map (·.lexeme)) := by
  let s (digit : Char) (h : [digit].all Char.isDigit = true) : Symbol :=
    ⟨'Δ', ['Α'], [digit], none, by decide, by decide, by decide, h, by simp, by decide⟩
  let tokens : List Token :=
    [⟨.symbol (s '1' (by decide)), 0, 5⟩, ⟨.symbol (s '2' (by decide)), 6, 11⟩]
  have htokens : Token.readAll "ΔΑ1 ΔΑ2" = .ok tokens := by decide +kernel
  have hlimits : Tally.zero.firstExcess tokens = none := by decide +kernel
  have hrejected : ∀ x, ¬ Sentence (tokens.map (·.lexeme)) x := by
    intro x hx
    cases Reading.advance_start_iff.2 hx
  have hparse : parse "ΔΑ1 ΔΑ2" = .error ⟨.unexpected [.endOfText, .connective, .mark .openParen]
      (some (.symbol (s '2' (by decide)))), 6, 11⟩ := by decide +kernel
  obtain ⟨k, refusal, book, herror, hrun, hbook, hpassed, -, hviable, hoffence, hlisted⟩ :=
    refusal_is_exact htokens hlimits hrejected
  obtain rfl := Except.error.inj (hparse.symm.trans herror)
  have hk : k = 1 := by
    have hlength := congrArg List.length hpassed
    rw [List.length_take, show (Reading.start.run tokens).passed.length = 1 from rfl] at hlength
    change 1 = min k 2 at hlength
    omega
  subst hk
  obtain ⟨-, -, hnames, -, hexpects⟩ := hlisted _ _ rfl
  have hleft : book.left = 1 := by
    change 1 + book.left = 2 at hbook
    omega
  exact ⟨tokens, _, book, htokens, hparse, by decide +kernel, hrun, hleft, hnames.symm, hexpects,
    hviable, hoffence (by decide)⟩

end Expr

end Sigil
