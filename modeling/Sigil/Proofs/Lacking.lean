import Sigil.Proofs.Expectations

/-! # Connectives without an operand

    Where tokens are no expression, a connective may be to blame: the one
    before the offence, when nothing follows that could be its operand, or
    a binary one at the offence, when nothing stands before it.

    * The blame is complete: where the first offence is of such a kind,
      the connective is named, and no other token is
      (`Expr.lacking_is_reported`).
    * It is sound as far as what follows a connective goes: a symbol there
      goes on with an expression.  A symbol before the connective does so
      exactly where a group begins (`Expr.room_of_semantic`).  It does not
      behind the parenthesis that opens the arguments of a symbol
      (`Expr.not_room_of_missingLeft`). -/

namespace Sigil

open Grammar

/-! ### The first offence -/

namespace Grammar

/-- The index `k` is the first such that no expression begins with the lexemes up to and
with it, or the length of the row when there is no such index. -/
structure FirstOffence (ls : List Lexeme) (k : Nat) : Prop where
  le : k ≤ ls.length
  before : ∀ j < k, Viable (ls.take (j + 1))
  offence : k < ls.length → ¬ Viable (ls.take (k + 1))

theorem FirstOffence.le_of_offence {ls : List Lexeme} {k k' : Nat} (h : FirstOffence ls k)
    (h' : FirstOffence ls k') : k ≤ k' := by
  by_contra hlt
  have hlt' : k' < k := Nat.lt_of_not_le hlt
  have hlength : k' < ls.length := Nat.lt_of_lt_of_le hlt' h.le
  exact h'.offence hlength (h.before k' hlt')

theorem FirstOffence.unique {ls : List Lexeme} {k k' : Nat} (h : FirstOffence ls k)
    (h' : FirstOffence ls k') : k = k' :=
  Nat.le_antisymm (h.le_of_offence h') (h'.le_of_offence h)

/-- A group begins at the start of the row or behind a parenthesis. -/
theorem openParen_of_groupBegins {ls : List Lexeme} {l : Lexeme} (h : groupBegins ls = true)
    (hl : ls.getLast? = some l) : l = .mark .openParen := by
  unfold groupBegins at h
  rw [hl] at h
  split at h
  · next heq => cases heq
  · next heq => exact Option.some.inj heq
  · cases h

end Grammar

namespace Reading

/-- The first offence is where the reading stops. -/
theorem firstOffence_run (tokens : List Token) :
    FirstOffence (tokens.map (·.lexeme)) (start.run tokens).passed.length := by
  have htake := (passed_eq_take start tokens).1
  have hlength : (start.run tokens).passed.length ≤ tokens.length := by
    rw [htake, List.length_take]
    omega
  constructor
  · rw [List.length_map]
    exact hlength
  · intro j hj
    -- what is passed over begins with the row, and can be completed
    have hviable : Viable ((start.run tokens).passed.map (·.lexeme)) :=
      viable_iff.2 ⟨_, (advance_passed start tokens).1⟩
    have htaken : (tokens.map (·.lexeme)).take (j + 1)
        = ((start.run tokens).passed.map (·.lexeme)).take (j + 1) := by
      rw [htake, ← List.map_take, ← List.map_take, List.take_take]
      congr 2
      omega
    rw [htaken]
    rw [← List.take_append_drop (j + 1) ((start.run tokens).passed.map (·.lexeme))] at hviable
    exact viable_of_append hviable
  · intro hlt
    rw [List.length_map] at hlt
    rw [← List.map_take]
    exact not_viable_take_succ rfl hlt

end Reading

/-! ### What ends the room for an operand -/

namespace Lexeme

/-- The lexeme is a closing mark, a comma, a colon or a binary connective: no operand begins
with it. -/
def ClosesRoom (l : Lexeme) : Prop :=
  l ∈ [.mark .closeParen, .mark .closeBracket, .mark .comma, .mark .colon] ∨
    ∃ c : Connective, c ≠ .not ∧ l = .connective c

theorem endsOperandRoom_iff (l : Lexeme) : l.endsOperandRoom = true ↔ l.ClosesRoom := by
  cases l with
  | connective c => cases c <;> simp [endsOperandRoom, ClosesRoom, Connective.isUnary,
      Connective.grouping]
  | mark m => cases m <;> simp [endsOperandRoom, ClosesRoom]
  | _ => simp [endsOperandRoom, ClosesRoom]

theorem closesRoom_connective {c : Connective} (h : c.isUnary = false) :
    (Lexeme.connective c).ClosesRoom := by
  refine .inr ⟨c, ?_, rfl⟩
  rintro rfl
  cases h

theorem connective?_eq_some {l : Lexeme} {c : Connective} (h : l.connective? = some c) :
    l = .connective c := by
  cases l with
  | connective d => exact congrArg _ (Option.some.inj h)
  | _ => cases h

end Lexeme

/-! ### Which token is named -/

namespace Token

variable {previous found : Option Token} {t : Token} {c : Connective}

theorem lacksOperand?_eq_some_iff :
    lacksOperand? previous found = some (t, c) ↔
      previous = some t ∧ t.lexeme = .connective c ∧ ∀ u ∈ found, u.lexeme.ClosesRoom := by
  have hroom : (found.map (·.lexeme)).all Lexeme.endsOperandRoom = true
      ↔ ∀ u ∈ found, u.lexeme.ClosesRoom := by
    cases found with
    | none => simp
    | some u => simp [Lexeme.endsOperandRoom_iff]
  cases previous with
  | none => exact iff_of_false nofun nofun
  | some t' =>
    rw [lacksOperand?_some, ← hroom]
    constructor
    · intro h
      split at h
      · next hall =>
        obtain ⟨d, hd, heq⟩ := Option.map_eq_some_iff.1 h
        obtain ⟨rfl, rfl⟩ := Prod.mk.inj heq
        exact ⟨rfl, Lexeme.connective?_eq_some hd, hall⟩
      · cases h
    · rintro ⟨heq, hlexeme, hall⟩
      obtain rfl := Option.some.inj heq
      rw [if_pos hall, hlexeme]
      rfl

theorem lacksLeft?_eq_some_iff :
    lacksLeft? previous found = some (t, c) ↔
      found = some t ∧ t.lexeme = .connective c ∧ c.isUnary = false ∧
        Lexeme.opensOperandRoom (previous.map (·.lexeme)) = true := by
  cases found with
  | none => exact iff_of_false nofun nofun
  | some t' =>
    rw [lacksLeft?_some]
    constructor
    · intro h
      split at h
      · next hopen =>
        obtain ⟨d, hd, heq⟩ := Option.map_eq_some_iff.1 h
        obtain ⟨rfl, rfl⟩ := Prod.mk.inj heq
        obtain ⟨hconnective, hbinary⟩ := Option.filter_eq_some_iff.1 hd
        exact ⟨rfl, Lexeme.connective?_eq_some hconnective, by simpa using hbinary, hopen⟩
      · cases h
    · rintro ⟨heq, hlexeme, hbinary, hopen⟩
      obtain rfl := Option.some.inj heq
      rw [if_pos hopen, hlexeme]
      simp [Lexeme.connective?, hbinary]

end Token

namespace Reading.Halt

variable {h : Halt} {t : Token} {c : Connective}

/-- A stop behind a connective, where no operand begins. -/
theorem refusal_of_connective_before (length : Nat) (ht : h.passed.getLast? = some t)
    (hlexeme : t.lexeme = .connective c) (hroom : ∀ u ∈ h.rest.head?, u.lexeme.ClosesRoom) :
    h.refusal length = ⟨.missingOperand c, t.span⟩ :=
  refusal_of_lacksOperand length (Token.lacksOperand?_eq_some_iff.2 ⟨ht, hlexeme, hroom⟩)

/-- A stop at a binary connective, at the start of the text or behind a parenthesis. -/
theorem refusal_of_connective_behind (length : Nat) (ht : h.rest.head? = some t)
    (hlexeme : t.lexeme = .connective c) (hbinary : c.isUnary = false)
    (hopen : ∀ u ∈ h.passed.getLast?, u.lexeme = .mark .openParen) :
    h.refusal length = ⟨.missingLeft c, t.span⟩ := by
  apply refusal_of_lacksLeft length
  · rw [Option.eq_none_iff_forall_ne_some]
    rintro ⟨u, d⟩ hu
    obtain ⟨hlast, hconnective, -⟩ := Token.lacksOperand?_eq_some_iff.1 hu
    rw [hopen u hlast] at hconnective
    cases hconnective
  · refine Token.lacksLeft?_eq_some_iff.2 ⟨ht, hlexeme, hbinary, ?_⟩
    cases hlast : h.passed.getLast? with
    | none => rfl
    | some u =>
      rw [Option.map_some, hopen u hlast]
      rfl

/-- All that a stop is refused for. -/
theorem refusal_cases (h : Halt) (length : Nat) :
    (∃ t c, h.passed.getLast? = some t ∧ t.lexeme = .connective c ∧
        (∀ u ∈ h.rest.head?, u.lexeme.ClosesRoom) ∧
        h.refusal length = ⟨.missingOperand c, t.span⟩) ∨
      (∃ t c, h.rest.head? = some t ∧ t.lexeme = .connective c ∧ c.isUnary = false ∧
        (∀ u ∈ h.passed.getLast?, u.lexeme = .mark .openParen) ∧
        h.refusal length = ⟨.missingLeft c, t.span⟩) ∨
      (h.refusal length).fault.stage = .grammatical := by
  cases hoperand : Token.lacksOperand? h.passed.getLast? h.rest.head? with
  | some lacking =>
    obtain ⟨t, c⟩ := lacking
    obtain ⟨ht, hlexeme, hroom⟩ := Token.lacksOperand?_eq_some_iff.1 hoperand
    exact .inl ⟨t, c, ht, hlexeme, hroom, refusal_of_lacksOperand length hoperand⟩
  | none =>
    cases hleft : Token.lacksLeft? h.passed.getLast? h.rest.head? with
    | some lacking =>
      obtain ⟨t, c⟩ := lacking
      obtain ⟨ht, hlexeme, hbinary, hopen⟩ := Token.lacksLeft?_eq_some_iff.1 hleft
      refine .inr (.inl ⟨t, c, ht, hlexeme, hbinary, ?_,
        refusal_of_lacksLeft length hoperand hleft⟩)
      intro u hu
      rw [Option.mem_def.1 hu, Option.map_some] at hopen
      -- a connective before the stop would have been named itself
      have hnot : ∀ d, u.lexeme ≠ .connective d := by
        intro d hd
        have hroom : ∀ v ∈ h.rest.head?, v.lexeme.ClosesRoom := by
          intro v hv
          obtain rfl := Option.some.inj (ht.symm.trans hv)
          rw [hlexeme]
          exact Lexeme.closesRoom_connective hbinary
        rw [Token.lacksOperand?_eq_some_iff.2 ⟨hu, hd, hroom⟩] at hoperand
        cases hoperand
      cases hl : u.lexeme with
      | connective d => exact absurd hl (hnot d)
      | mark m =>
        cases m with
        | openParen => rfl
        | _ => rw [hl] at hopen; cases hopen
      | _ => rw [hl] at hopen; cases hopen
    | none =>
      rw [refusal_of_lacks_none length hoperand hleft]
      exact .inr (.inr rfl)

end Reading.Halt

/-! ### Stages of faults -/

theorem Token.stage_of_readFrom {start : Nat} {cs : List Char} {r : Refusal}
    (h : readFrom start cs = .error r) : r.fault.stage = .lexical := by
  induction cs using text_induction generalizing start with
  | nil =>
    rw [readFrom] at h
    cases h
  | blank c cs hc ih =>
    rw [readFrom_blank hc] at h
    exact ih h
  | lexeme l cs hvalid hstops ih =>
    rw [readFrom_chars_append hvalid hstops] at h
    cases hrest : readFrom (start + Text.width l.chars) cs with
    | error r' =>
      rw [hrest] at h
      obtain rfl := Except.error.inj h
      exact ih hrest
    | ok later =>
      rw [hrest] at h
      cases h
  | stuck c cs hc hscan =>
    rw [readFrom_stuck hc hscan] at h
    obtain rfl := Except.error.inj h
    unfold unscannable
    cases Quote.ofChar? c <;> rfl

theorem Tally.stage_of_excess {t : Tally} {fault : Fault} (h : t.excess = some fault) :
    fault.stage = .grammatical := by
  unfold excess at h
  split at h
  · obtain rfl := Option.some.inj h
    rfl
  · split at h
    · obtain rfl := Option.some.inj h
      rfl
    · cases h

theorem Tally.stage_of_firstExcess {t : Tally} {tokens : List Token} {r : Refusal}
    (h : t.firstExcess tokens = some r) : r.fault.stage = .grammatical := by
  induction tokens generalizing t with
  | nil => cases h
  | cons token rest ih =>
    rw [firstExcess] at h
    cases hexcess : (t.add token.lexeme).excess with
    | some fault =>
      rw [hexcess] at h
      obtain rfl := Option.some.inj h
      exact stage_of_excess hexcess
    | none =>
      rw [hexcess] at h
      exact ih h

namespace Expr

/-- Only where the reading of tokens stops a text is refused for want of an operand. -/
theorem refusal_of_semantic {text : String} {refusal : Refusal}
    (h : parse text = .error refusal) (hstage : refusal.fault.stage = .semantic) :
    ∃ tokens, Token.readAll text = .ok tokens ∧
      refusal = (Reading.start.run tokens).refusal (Text.width text.toList) := by
  rw [parse_eq] at h
  cases htokens : Token.readAll text with
  | error r =>
    rw [htokens] at h
    obtain rfl := Except.error.inj h
    rw [Token.stage_of_readFrom htokens] at hstage
    cases hstage
  | ok tokens =>
    rw [htokens] at h
    change ofTokens (Text.width text.toList) tokens = .error refusal at h
    refine ⟨tokens, rfl, ?_⟩
    cases hexcess : Tally.zero.firstExcess tokens with
    | some r =>
      simp only [ofTokens, hexcess, Except.error.injEq] at h
      rw [← h, Tally.stage_of_firstExcess hexcess] at hstage
      cases hstage
    | none =>
      cases hresult : (Reading.start.run tokens).result? with
      | some x => simp [ofTokens, hexcess, hresult] at h
      | none =>
        simp only [ofTokens, hexcess, hresult, Except.error.injEq] at h
        exact h.symm

end Expr

/-! ### Where a symbol has room -/

namespace Reading

variable {ls : List Lexeme} {r : Reading}

/-- Behind a connective an operand begins. -/
theorem site_of_connective {c : Connective}
    (h : start.advance (ls ++ [.connective c]) = some r) : r.site = .operand := by
  rw [advance_append] at h
  obtain ⟨r', -, hone⟩ := Option.bind_eq_some_iff.1 h
  rw [advance_cons] at hone
  obtain ⟨r'', hstep, hlast⟩ := Option.bind_eq_some_iff.1 hone
  obtain rfl := Option.some.inj hlast
  cases moves_of_step hstep with
  | not => rfl
  | push => rfl
  | scalar value => rcases scalar_of_isValue value with ⟨_, h⟩ | ⟨_, _, h⟩ <;> cases h
  | firstScalar value => rcases scalar_of_isValue value with ⟨_, h⟩ | ⟨_, _, h⟩ <;> cases h

/-- A symbol fits behind a connective. -/
theorem viable_connective_symbol {c : Connective}
    (h : start.advance (ls ++ [.connective c]) = some r) (s : Symbol) :
    Viable (ls ++ [.connective c, .symbol s]) := by
  have hsite := site_of_connective h
  have hstep : (r.step (.symbol s)).isSome = true := by
    unfold step
    rw [hsite]
    rfl
  have hviable := (viable_concat_iff h (.symbol s)).2 hstep
  rwa [List.append_assoc] at hviable

/-- Where a group begins there is room for a symbol before a binary connective. -/
theorem viable_symbol_connective (h : start.advance ls = some r)
    (hbegins : groupBegins ls = true) (s : Symbol) {c : Connective} (hc : c.isUnary = false) :
    Viable (ls ++ [.symbol s, .connective c]) := by
  obtain ⟨hsite, -⟩ := (tracks_of_advance h).start.2 hbegins
  obtain ⟨g, outer, site⟩ := r
  obtain rfl : site = .operand := hsite
  refine viable_iff.2 ⟨⟨g.push (.call s .empty) c, outer, .operand⟩, ?_⟩
  rw [advance_append_of_eq_some h]
  have hsymbol : step ⟨g, outer, .operand⟩ (.symbol s) = some ⟨g, outer, .called s⟩ := rfl
  have hconnective : step ⟨g, outer, .called s⟩ (.connective c)
      = some ⟨g.push (.call s .empty) c, outer, .operand⟩ := by
    have hoperand : operand? ⟨g, outer, .called s⟩ = some (.call s .empty) := rfl
    have hne : Lexeme.connective c ≠ .mark .openParen := nofun
    rw [step_of_operand? hoperand hne, afterOperand, hc]
    rfl
  rw [advance_cons, hsymbol, Option.bind_some, advance_cons, hconnective]
  rfl

/-- Behind the parenthesis that opens the arguments of a symbol there is none. -/
theorem not_viable_symbol (h : start.advance (ls ++ [.mark .openParen]) = some r)
    (hinner : groupBegins (ls ++ [.mark .openParen]) = false) (s : Symbol)
    (more : List Lexeme) : ¬ Viable (ls ++ [.mark .openParen] ++ .symbol s :: more) := by
  rw [List.append_cons]
  intro hviable
  have hfits := (viable_concat_iff h _).1 (viable_of_append hviable)
  rw [advance_append] at h
  obtain ⟨r', hbefore, hone⟩ := Option.bind_eq_some_iff.1 h
  rw [groupBegins_append_openParen, Bool.not_eq_false'] at hinner
  obtain ⟨s', hsite⟩ := (tracks_of_advance hbefore).called.2 hinner
  obtain ⟨g, outer, site⟩ := r'
  obtain rfl : site = .called s' := hsite
  obtain rfl := Option.some.inj hone
  cases hfits

end Reading

namespace Expr

/-! ### Soundness -/

/-- Behind a connective that is said to lack its operand, or its right one, there is room
for a symbol.  Before a connective that is said to lack its left operand there is such room
exactly where a group begins. -/
theorem room_of_semantic {text : String} {refusal : Refusal} (h : parse text = .error refusal)
    (hstage : refusal.fault.stage = .semantic) :
    ∃ tokens before t after c, Token.readAll text = .ok tokens ∧
      tokens = before ++ t :: after ∧ t.lexeme = .connective c ∧ refusal.span = t.span ∧
      ((refusal.fault = .missingOperand c ∧
          refusal.fault.message = "operator '" ++ c.text ++ "' is missing its "
            ++ (if c = .not then "operand" else "right-hand operand") ∧
          ∀ s, Viable (before.map (·.lexeme) ++ [.connective c, .symbol s])) ∨
        (refusal.fault = .missingLeft c ∧ c ≠ .not ∧
          refusal.fault.message = "operator '" ++ c.text
            ++ "' is missing its left-hand operand" ∧
          ∀ s, Viable (before.map (·.lexeme) ++ [.symbol s, .connective c]) ↔
            groupBegins (before.map (·.lexeme)) = true)) := by
  obtain ⟨tokens, htokens, rfl⟩ := refusal_of_semantic h hstage
  have happ := Reading.passed_append_rest Reading.start tokens
  have hreached := (Reading.advance_passed Reading.start tokens).1
  rcases (Reading.start.run tokens).refusal_cases (Text.width text.toList) with
    ⟨t, c, hlast, hlexeme, -, heq⟩ | ⟨t, c, hhead, hlexeme, hbinary, hopen, heq⟩ | hgrammatical
  · obtain ⟨before, hbefore⟩ := List.getLast?_eq_some_iff.1 hlast
    have hsplit : tokens = before ++ t :: (Reading.start.run tokens).rest := by
      rw [hbefore, List.append_assoc] at happ
      exact happ.symm
    rw [hbefore, List.map_append, List.map_singleton, hlexeme] at hreached
    refine ⟨tokens, before, t, _, c, htokens, hsplit, hlexeme, ?_, .inl ⟨?_, ?_, ?_⟩⟩
    · rw [heq]
    · rw [heq]
    · rw [heq]
      cases c <;> rfl
    · exact Reading.viable_connective_symbol hreached
  · obtain ⟨after, hafter⟩ := List.head?_eq_some_iff.1 hhead
    have hsplit : tokens = (Reading.start.run tokens).passed ++ t :: after := by
      rw [← hafter, happ]
    have hnot : c ≠ .not := by
      rintro rfl
      cases hbinary
    refine ⟨tokens, _, t, after, c, htokens, hsplit, hlexeme, ?_, .inr ⟨?_, hnot, ?_, ?_⟩⟩
    · rw [heq]
    · rw [heq]
    · rw [heq]
      rfl
    · intro s
      constructor
      · -- the token before the stop is a parenthesis, and of two kinds
        intro hviable
        by_contra hinner
        rw [Bool.not_eq_true] at hinner
        rcases List.eq_nil_or_concat (Reading.start.run tokens).passed with hnil | ⟨ps, p, hps⟩
        · rw [hnil] at hinner
          cases hinner
        · rw [List.concat_eq_append] at hps
          have hp := hopen p (by rw [hps, List.getLast?_concat]; rfl)
          rw [hps, List.map_append, List.map_singleton, hp] at hviable hinner hreached
          exact Reading.not_viable_symbol hreached hinner s _ hviable
      · intro hbegins
        exact Reading.viable_symbol_connective hreached hbegins s hbinary
  · rw [hgrammatical] at hstage
    cases hstage

/-- A group that ends behind a connective, after a call with arguments. -/
theorem room_of_semantic_group :
    parse "ΔΕ1(K: [A1]) ∨ (ΔΕ2 ∧)" = .error ⟨.missingOperand .and, 26, 29⟩ ∧
      ∃ before t after, Token.readAll "ΔΕ1(K: [A1]) ∨ (ΔΕ2 ∧)" = .ok (before ++ t :: after) ∧
        t.span = ⟨26, 29⟩ ∧
        ∀ s, Viable (before.map (·.lexeme) ++ [.connective .and, .symbol s]) := by
  have hparse : parse "ΔΕ1(K: [A1]) ∨ (ΔΕ2 ∧)" = .error ⟨.missingOperand .and, 26, 29⟩ := by
    decide +kernel
  obtain ⟨tokens, before, t, after, c, htokens, rfl, -, hspan, hcase⟩ :=
    room_of_semantic hparse rfl
  rcases hcase with ⟨hfault, -, hviable⟩ | ⟨hfault, -⟩
  · obtain rfl := Fault.missingOperand.inj hfault
    exact ⟨hparse, before, t, after, htokens, hspan.symm, hviable⟩
  · cases hfault

/-- Behind the parenthesis of an argument list a name has to come, and no operand before the
connective makes an expression of it. -/
theorem not_room_of_missingLeft :
    parse "ΔΕ1(∧" = .error ⟨.missingLeft .and, 6, 9⟩ ∧
      ∃ tokens, Token.readAll "ΔΕ1(∧" = .ok tokens ∧
        tokens[2]? = some ⟨.connective .and, 6, 9⟩ ∧
        ∀ s, ¬ Viable ((tokens.take 2).map (·.lexeme) ++ [.symbol s, .connective .and]) := by
  let symbol : Symbol := ⟨'Δ', ['Ε'], ['1'], none, by decide, by decide, by decide, by decide,
    by decide, by decide⟩
  let tokens : List Token := [⟨.symbol symbol, 0, 5⟩, ⟨.mark .openParen, 5, 6⟩,
    ⟨.connective .and, 6, 9⟩]
  have htokens : Token.readAll "ΔΕ1(∧" = .ok tokens := by decide +kernel
  have hparse : parse "ΔΕ1(∧" = .error ⟨.missingLeft .and, 6, 9⟩ := by decide +kernel
  refine ⟨hparse, tokens, htokens, rfl, ?_⟩
  intro s
  have hreached : Reading.start.advance ([.symbol symbol] ++ [.mark .openParen])
      = some ⟨.fresh, [], .name symbol .empty⟩ := rfl
  exact Reading.not_viable_symbol hreached rfl s _

/-! ### Completeness -/

/-- At the first offence a connective is named whenever it lacks an operand: the one before
the offence, if nothing follows or what follows ends the room for an operand, and a binary
one at the offence, if a group begins there.  An offence by any other lexeme names none. -/
theorem lacking_is_reported {text : String} {tokens : List Token} {k : Nat}
    (htokens : Token.readAll text = .ok tokens)
    (hlimits : Tally.zero.firstExcess tokens = none)
    (hrejected : ∀ x, ¬ Sentence (tokens.map (·.lexeme)) x)
    (hk : FirstOffence (tokens.map (·.lexeme)) k) :
    ∃ refusal, parse text = .error refusal ∧
      (∀ t c, (tokens.take k).getLast? = some t → t.lexeme = .connective c →
        (∀ u ∈ tokens[k]?, u.lexeme.ClosesRoom) →
        refusal.fault = .missingOperand c ∧ refusal.span = t.span ∧
          refusal.fault.stage = .semantic ∧
          refusal.fault.message = "operator '" ++ c.text ++ "' is missing its "
            ++ (if c = .not then "operand" else "right-hand operand")) ∧
      (∀ t c, tokens[k]? = some t → t.lexeme = .connective c → c ≠ .not →
        groupBegins ((tokens.take k).map (·.lexeme)) = true →
        refusal.fault = .missingLeft c ∧ refusal.span = t.span ∧
          refusal.fault.stage = .semantic ∧
          refusal.fault.message = "operator '" ++ c.text
            ++ "' is missing its left-hand operand") ∧
      (∀ t, tokens[k]? = some t → ¬ t.lexeme.ClosesRoom →
        refusal.fault.stage = .grammatical) := by
  have hnone : (Reading.start.advance (tokens.map (·.lexeme))).bind Reading.result? = none := by
    rw [Option.eq_none_iff_forall_ne_some]
    intro x hx
    exact hrejected x (Reading.advance_start_iff.1 hx)
  obtain rfl := (Reading.firstOffence_run tokens).unique hk
  rw [← (Reading.passed_eq_take Reading.start tokens).1, ← Reading.head?_rest]
  refine ⟨_, parse_eq_error htokens hlimits hnone, ?_, ?_, ?_⟩
  · intro t c hlast hlexeme hroom
    rw [Reading.Halt.refusal_of_connective_before _ hlast hlexeme hroom]
    refine ⟨rfl, rfl, rfl, ?_⟩
    cases c <;> rfl
  · intro t c hhead hlexeme hnot hbegins
    have hbinary : c.isUnary = false := by
      rw [← Bool.not_eq_true]
      exact fun hunary => hnot (Connective.eq_not_of_isUnary hunary)
    have hopen : ∀ u ∈ (Reading.start.run tokens).passed.getLast?,
        u.lexeme = .mark .openParen := by
      intro u hu
      exact openParen_of_groupBegins hbegins (by rw [List.getLast?_map, hu]; rfl)
    rw [Reading.Halt.refusal_of_connective_behind _ hhead hlexeme hbinary hopen]
    exact ⟨rfl, rfl, rfl, rfl⟩
  · intro t hhead hroom
    rcases (Reading.start.run tokens).refusal_cases (Text.width text.toList) with
      ⟨-, -, -, -, hall, -⟩ | ⟨t', c, hhead', hlexeme, hbinary, -, -⟩ | hgrammatical
    · exact absurd (hall t hhead) hroom
    · obtain rfl := Option.some.inj (hhead.symm.trans hhead')
      rw [hlexeme] at hroom
      exact absurd (Lexeme.closesRoom_connective hbinary) hroom
    · exact hgrammatical

/-- A `∧` before the end of a group that stands under a `¬`. -/
theorem lacking_is_reported_group :
    ∃ tokens, Token.readAll "¬(ΔΑ1 ∧ ) ∨ ΔΑ1" = .ok tokens ∧
      FirstOffence (tokens.map (·.lexeme)) 4 ∧
      tokens[4]?.map (·.lexeme) = some (.mark .closeParen) ∧
      ∃ refusal, parse "¬(ΔΑ1 ∧ ) ∨ ΔΑ1" = .error refusal ∧
        refusal.fault = .missingOperand .and ∧ refusal.span = ⟨9, 12⟩ ∧
        refusal.fault.message = "operator '∧' is missing its right-hand operand" := by
  let symbol : Symbol := ⟨'Δ', ['Α'], ['1'], none, by decide, by decide, by decide, by decide,
    by decide, by decide⟩
  let tokens : List Token := [⟨.connective .not, 0, 2⟩, ⟨.mark .openParen, 2, 3⟩,
    ⟨.symbol symbol, 3, 8⟩, ⟨.connective .and, 9, 12⟩, ⟨.mark .closeParen, 13, 14⟩,
    ⟨.connective .or, 15, 18⟩, ⟨.symbol symbol, 19, 24⟩]
  have htokens : Token.readAll "¬(ΔΑ1 ∧ ) ∨ ΔΑ1" = .ok tokens := by decide +kernel
  have hlimits : Tally.zero.firstExcess tokens = none := by decide +kernel
  have hrejected : ∀ x, ¬ Sentence (tokens.map (·.lexeme)) x := by
    intro x hx
    cases Reading.advance_start_iff.2 hx
  have hk : FirstOffence (tokens.map (·.lexeme)) 4 := Reading.firstOffence_run tokens
  obtain ⟨refusal, hparse, hbefore, -, -⟩ := lacking_is_reported htokens hlimits hrejected hk
  have hroom : ∀ u ∈ tokens[4]?, u.lexeme.ClosesRoom := by
    intro u hu
    obtain rfl := Option.some.inj hu
    exact .inl List.mem_cons_self
  obtain ⟨hfault, hspan, -, hmessage⟩ := hbefore ⟨.connective .and, 9, 12⟩ .and rfl rfl hroom
  exact ⟨tokens, htokens, hk, rfl, refusal, hparse, hfault, hspan, hmessage⟩

end Expr

end Sigil
