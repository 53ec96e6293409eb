import Sigil.Expr.Tokens

/-! # Places do not matter

    What is read of tokens depends on their lexemes alone.  Two rows of
    tokens with the same lexemes at different places are the same
    expression, or are refused for the same fault; and then the two
    refusals point at the same token, or both at the end of their text
    (`Expr.ofTokens_agree`). -/

namespace Sigil

namespace Token

/-! ### Tokens at the same index -/

/-- The tokens stand at one index of two rows. -/
def Paired (tokens tokens' : List Token) (t t' : Token) : Prop :=
  ∃ i : Nat, tokens[i]? = some t ∧ tokens'[i]? = some t'

/-- The spans are those of tokens at one index of two rows, or the ends of two texts,
which have `length` and `length'` bytes. -/
inductive SamePlace (tokens tokens' : List Token) (length length' : Nat) : Span → Span → Prop where
  | token {t t' : Token} (paired : Paired tokens tokens' t t') :
      SamePlace tokens tokens' length length' t.span t'.span
  | ending : SamePlace tokens tokens' length length' (.point length) (.point length')

variable {tokens tokens' : List Token}

theorem Paired.cons {t t' u u' : Token} (h : Paired tokens tokens' t t') :
    Paired (u :: tokens) (u' :: tokens') t t' := by
  obtain ⟨i, hl, hr⟩ := h
  exact ⟨i + 1, hl, hr⟩

/-- The tokens stand at one index of two rows and have the same lexeme, or there is no
token in either place. -/
def Twins (tokens tokens' : List Token) (o o' : Option Token) : Prop :=
  (o = none ∧ o' = none) ∨
    ∃ t t', o = some t ∧ o' = some t' ∧ Paired tokens tokens' t t' ∧ t.lexeme = t'.lexeme

/-- Rows with the same lexemes have twins at every index. -/
theorem twins_getElem? (h : tokens.map (·.lexeme) = tokens'.map (·.lexeme)) (i : Nat) :
    Twins tokens tokens' tokens[i]? tokens'[i]? := by
  have hget := congrArg (·[i]?) h
  simp only [List.getElem?_map] at hget
  cases hl : tokens[i]? with
  | none =>
    rw [hl, Option.map_none, eq_comm, Option.map_eq_none_iff] at hget
    exact .inl ⟨rfl, hget⟩
  | some t =>
    rw [hl, Option.map_some, eq_comm, Option.map_eq_some_iff] at hget
    obtain ⟨t', hr, hlexeme⟩ := hget
    exact .inr ⟨t, t', rfl, hr, ⟨i, hl, hr⟩, hlexeme.symm⟩

theorem Twins.map_lexeme {o o' : Option Token} (h : Twins tokens tokens' o o') :
    o.map (·.lexeme) = o'.map (·.lexeme) := by
  rcases h with ⟨rfl, rfl⟩ | ⟨t, t', rfl, rfl, -, hlexeme⟩
  · rfl
  · exact congrArg some hlexeme

/-! ### What lacks an operand -/

/-- A token that lacks its operand does so by its lexeme and the one that follows. -/
theorem lacksOperand?_some (t : Token) (found : Option Token) :
    lacksOperand? (some t) found
      = if (found.map (·.lexeme)).all Lexeme.endsOperandRoom
        then t.lexeme.connective?.map (t, ·) else none := by
  have hroom : (found.map (·.lexeme)).all Lexeme.endsOperandRoom
      = found.all fun u => u.lexeme.endsOperandRoom := by
    cases found <;> rfl
  have hlacks : lacksOperand? (some t) found = t.lexeme.connective?.bind fun c =>
      Option.bind (guard (found.all fun u => u.lexeme.endsOperandRoom)) fun _ =>
        some (t, c) := rfl
  rw [hroom, hlacks]
  cases t.lexeme.connective? with
  | none => cases found.all fun u => u.lexeme.endsOperandRoom <;> rfl
  | some c => cases found.all fun u => u.lexeme.endsOperandRoom <;> rfl

/-- A token that lacks its left operand does so by its lexeme and the one before it. -/
theorem lacksLeft?_some (previous : Option Token) (t : Token) :
    lacksLeft? previous (some t)
      = if Lexeme.opensOperandRoom (previous.map (·.lexeme))
        then (t.lexeme.connective?.filter (!·.isUnary)).map (t, ·) else none := by
  have hlacks : lacksLeft? previous (some t) = t.lexeme.connective?.bind fun c =>
      Option.bind (guard (!c.isUnary && Lexeme.opensOperandRoom (previous.map (·.lexeme))))
        fun _ => some (t, c) := rfl
  rw [hlacks]
  cases t.lexeme.connective? with
  | none => cases Lexeme.opensOperandRoom (previous.map (·.lexeme)) <;> rfl
  | some c => cases c <;> cases Lexeme.opensOperandRoom (previous.map (·.lexeme)) <;> rfl

/-- What two tokens lack an operand for, in rows where they are paired. -/
def LackAlike (tokens tokens' : List Token) (o o' : Option (Token × Connective)) : Prop :=
  (o = none ∧ o' = none) ∨
    ∃ c t t', o = some (t, c) ∧ o' = some (t', c) ∧ Paired tokens tokens' t t'

theorem lackAlike_map {t t' : Token} (h : Paired tokens tokens' t t') (o : Option Connective) :
    LackAlike tokens tokens' (o.map (t, ·)) (o.map (t', ·)) := by
  cases o with
  | none => exact .inl ⟨rfl, rfl⟩
  | some c => exact .inr ⟨c, t, t', rfl, rfl, h⟩

section

variable {previous previous' found found' : Option Token}
  (hprevious : Twins tokens tokens' previous previous')
  (hfound : Twins tokens tokens' found found')

include hprevious hfound

theorem lacksOperand?_agree :
    LackAlike tokens tokens' (lacksOperand? previous found) (lacksOperand? previous' found') := by
  rcases hprevious with ⟨rfl, rfl⟩ | ⟨t, t', rfl, rfl, hpaired, hlexeme⟩
  · exact .inl ⟨rfl, rfl⟩
  · rw [lacksOperand?_some, lacksOperand?_some, hfound.map_lexeme, hlexeme]
    split
    · exact lackAlike_map hpaired _
    · exact .inl ⟨rfl, rfl⟩

theorem lacksLeft?_agree :
    LackAlike tokens tokens' (lacksLeft? previous found) (lacksLeft? previous' found') := by
  rcases hfound with ⟨rfl, rfl⟩ | ⟨t, t', rfl, rfl, hpaired, hlexeme⟩
  · exact .inl ⟨rfl, rfl⟩
  · rw [lacksLeft?_some, lacksLeft?_some, hprevious.map_lexeme, hlexeme]
    split
    · exact lackAlike_map hpaired _
    · exact .inl ⟨rfl, rfl⟩

end

end Token

open Token

namespace Reading

/-! ### Where a run ends -/

/-- The tokens that fit are those before the stop, and the rest are those after it. -/
theorem passed_eq_take (r : Reading) (tokens : List Token) :
    (r.run tokens).passed = tokens.take (r.run tokens).passed.length ∧
      (r.run tokens).rest = tokens.drop (r.run tokens).passed.length := by
  have htake : ((r.run tokens).passed ++ (r.run tokens).rest).take (r.run tokens).passed.length
      = (r.run tokens).passed := List.take_left
  have hdrop : ((r.run tokens).passed ++ (r.run tokens).rest).drop (r.run tokens).passed.length
      = (r.run tokens).rest := List.drop_left
  rw [passed_append_rest] at htake hdrop
  exact ⟨htake.symm, hdrop.symm⟩

/-- The token before the stop. -/
theorem getLast?_passed (r : Reading) (tokens : List Token) :
    (r.run tokens).passed.getLast? =
      if (r.run tokens).passed.length = 0 then none
      else tokens[(r.run tokens).passed.length - 1]? := by
  rw [List.getLast?_eq_getElem?]
  split
  · next hzero =>
    rw [List.length_eq_zero_iff.1 hzero]
    rfl
  · next hpos =>
    have hget := congrArg (·[(r.run tokens).passed.length - 1]?) (passed_eq_take r tokens).1
    exact hget.trans (List.getElem?_take_of_lt (by omega))

/-- The token at the stop. -/
theorem head?_rest (r : Reading) (tokens : List Token) :
    (r.run tokens).rest.head? = tokens[(r.run tokens).passed.length]? := by
  rw [(passed_eq_take r tokens).2, List.head?_drop]

/-! ### Why a run ends -/

namespace Halt

variable {h : Halt} {t : Token} {c : Connective}

theorem refusal_of_lacksOperand (length : Nat)
    (ht : lacksOperand? h.passed.getLast? h.rest.head? = some (t, c)) :
    h.refusal length = ⟨.missingOperand c, t.span⟩ := by
  simp only [refusal, Refusal.between, ht]

theorem refusal_of_lacksLeft (length : Nat)
    (hoperand : lacksOperand? h.passed.getLast? h.rest.head? = none)
    (ht : lacksLeft? h.passed.getLast? h.rest.head? = some (t, c)) :
    h.refusal length = ⟨.missingLeft c, t.span⟩ := by
  simp only [refusal, Refusal.between, hoperand, ht]

theorem refusal_of_lacks_none (length : Nat)
    (hoperand : lacksOperand? h.passed.getLast? h.rest.head? = none)
    (hleft : lacksLeft? h.passed.getLast? h.rest.head? = none) :
    h.refusal length = ⟨.unexpected h.reading.expected (h.rest.head?.map (·.lexeme)),
      (h.rest.head?.map (·.span)).getD (.point length)⟩ := by
  simp only [refusal, Refusal.between, hoperand, hleft]

/-- All that a run can end for: a connective without an operand, or a token in the wrong
place. -/
theorem fault_refusal (h : Halt) (length : Nat) :
    (∃ c, (h.refusal length).fault = .missingOperand c) ∨
      (∃ c, (h.refusal length).fault = .missingLeft c) ∨
      ∃ expected found, (h.refusal length).fault = .unexpected expected found := by
  cases hoperand : lacksOperand? h.passed.getLast? h.rest.head? with
  | some lacking =>
    rw [refusal_of_lacksOperand length hoperand]
    exact .inl ⟨_, rfl⟩
  | none =>
    cases hleft : lacksLeft? h.passed.getLast? h.rest.head? with
    | some lacking =>
      rw [refusal_of_lacksLeft length hoperand hleft]
      exact .inr (.inl ⟨_, rfl⟩)
    | none =>
      rw [refusal_of_lacks_none length hoperand hleft]
      exact .inr (.inr ⟨_, _, rfl⟩)

end Halt

end Reading

/-! ### Two rows with the same lexemes -/

section Agreement

variable {tokens tokens' : List Token} {length length' : Nat}

/-- The token that goes beyond a limit is at the same index of both rows. -/
theorem Tally.firstExcess_agree (h : tokens.map (·.lexeme) = tokens'.map (·.lexeme))
    (t : Tally) :
    (t.firstExcess tokens = none ∧ t.firstExcess tokens' = none) ∨
      ∃ fault u u', t.firstExcess tokens = some ⟨fault, u.span⟩ ∧
        t.firstExcess tokens' = some ⟨fault, u'.span⟩ ∧ Paired tokens tokens' u u' := by
  induction tokens generalizing tokens' t with
  | nil =>
    obtain rfl : tokens' = [] := List.map_eq_nil_iff.1 h.symm
    exact .inl ⟨rfl, rfl⟩
  | cons token rest ih =>
    cases tokens' with
    | nil => cases h
    | cons token' rest' =>
      obtain ⟨(hlexeme : token.lexeme = token'.lexeme), hrest⟩ := List.cons.inj h
      rw [firstExcess, firstExcess, ← hlexeme]
      cases (t.add token.lexeme).excess with
      | some fault => exact .inr ⟨fault, token, token', rfl, rfl, 0, rfl, rfl⟩
      | none =>
        rcases ih hrest (t.add token.lexeme) with hnone | ⟨fault, u, u', h₁, h₂, hpaired⟩
        · exact .inl hnone
        · exact .inr ⟨fault, u, u', h₁, h₂, hpaired.cons⟩

namespace Reading

/-- Both rows are read up to the same index and to the same reading. -/
theorem run_agree (h : tokens.map (·.lexeme) = tokens'.map (·.lexeme)) (r : Reading) :
    (r.run tokens).reading = (r.run tokens').reading ∧
      (r.run tokens).passed.length = (r.run tokens').passed.length := by
  induction tokens generalizing tokens' r with
  | nil =>
    obtain rfl : tokens' = [] := List.map_eq_nil_iff.1 h.symm
    exact ⟨rfl, rfl⟩
  | cons token rest ih =>
    cases tokens' with
    | nil => cases h
    | cons token' rest' =>
      obtain ⟨(hlexeme : token.lexeme = token'.lexeme), hrest⟩ := List.cons.inj h
      rw [run, run, ← hlexeme]
      cases r.step token.lexeme with
      | none => exact ⟨rfl, rfl⟩
      | some r' =>
        obtain ⟨hreading, hlength⟩ := ih hrest r'
        refine ⟨hreading, ?_⟩
        show (r'.run rest).passed.length + 1 = (r'.run rest').passed.length + 1
        rw [hlength]

/-- Both rows have the same result. -/
theorem result?_run_agree (h : tokens.map (·.lexeme) = tokens'.map (·.lexeme)) (r : Reading) :
    (r.run tokens).result? = (r.run tokens').result? := by
  obtain ⟨hreading, hlength⟩ := run_agree h r
  have hrow : tokens.length = tokens'.length := by simpa using congrArg List.length h
  have hrest : (r.run tokens).rest.isEmpty = (r.run tokens').rest.isEmpty := by
    rw [Bool.eq_iff_iff, List.isEmpty_iff, List.isEmpty_iff, (passed_eq_take r tokens).2,
      (passed_eq_take r tokens').2, hlength, List.drop_eq_nil_iff, List.drop_eq_nil_iff, hrow]
  rw [Halt.result?, Halt.result?, hrest, hreading]

/-- Both rows are refused for the same fault and at the same place. -/
theorem refusal_agree (length length' : Nat)
    (h : tokens.map (·.lexeme) = tokens'.map (·.lexeme)) (r : Reading) :
    ∃ fault span span', (r.run tokens).refusal length = ⟨fault, span⟩ ∧
      (r.run tokens').refusal length' = ⟨fault, span'⟩ ∧
      SamePlace tokens tokens' length length' span span' := by
  obtain ⟨hreading, hlength⟩ := run_agree h r
  have hprevious : Twins tokens tokens' (r.run tokens).passed.getLast?
      (r.run tokens').passed.getLast? := by
    rw [getLast?_passed, getLast?_passed, ← hlength]
    split
    · exact .inl ⟨rfl, rfl⟩
    · exact twins_getElem? h _
  have hfound : Twins tokens tokens' (r.run tokens).rest.head? (r.run tokens').rest.head? := by
    rw [head?_rest, head?_rest, ← hlength]
    exact twins_getElem? h _
  rcases lacksOperand?_agree hprevious hfound with ⟨hl, hr⟩ | ⟨c, t, t', hl, hr, hpaired⟩
  · rcases lacksLeft?_agree hprevious hfound with ⟨hl', hr'⟩ | ⟨c, t, t', hl', hr', hpaired⟩
    · rw [Halt.refusal_of_lacks_none length hl hl', Halt.refusal_of_lacks_none length' hr hr',
        hreading, hfound.map_lexeme]
      refine ⟨_, _, _, rfl, rfl, ?_⟩
      rcases hfound with ⟨hnone, hnone'⟩ | ⟨t, t', hsome, hsome', hpaired, -⟩
      · rw [hnone, hnone']
        exact .ending
      · rw [hsome, hsome']
        exact .token hpaired
    · rw [Halt.refusal_of_lacksLeft length hl hl', Halt.refusal_of_lacksLeft length' hr hr']
      exact ⟨_, _, _, rfl, rfl, .token hpaired⟩
  · rw [Halt.refusal_of_lacksOperand length hl, Halt.refusal_of_lacksOperand length' hr]
    exact ⟨_, _, _, rfl, rfl, .token hpaired⟩

end Reading

namespace Expr

/-- The same expression, or refusals for the same fault at the same place. -/
inductive Agree (tokens tokens' : List Token) (length length' : Nat) :
    Except Refusal Expr → Except Refusal Expr → Prop where
  | ok (x : Expr) : Agree tokens tokens' length length' (.ok x) (.ok x)
  | error (fault : Fault) {span span' : Span}
      (place : SamePlace tokens tokens' length length' span span') :
      Agree tokens tokens' length length' (.error ⟨fault, span⟩) (.error ⟨fault, span'⟩)

/-- What is read of tokens depends on their lexemes alone. -/
theorem ofTokens_agree (length length' : Nat)
    (h : tokens.map (·.lexeme) = tokens'.map (·.lexeme)) :
    Agree tokens tokens' length length' (ofTokens length tokens) (ofTokens length' tokens') := by
  rw [ofTokens, ofTokens]
  rcases Tally.firstExcess_agree h .zero with ⟨hl, hr⟩ | ⟨fault, t, t', hl, hr, hpaired⟩
  · rw [hl, hr]
    simp only [← Reading.result?_run_agree h]
    cases (Reading.start.run tokens).result? with
    | some x => exact .ok x
    | none =>
      obtain ⟨fault, span, span', hl, hr, hplace⟩ := Reading.refusal_agree length length' h .start
      simp only [hl, hr]
      exact .error fault hplace
  · rw [hl, hr]
    exact .error fault (.token hpaired)

end Expr

end Agreement

end Sigil
