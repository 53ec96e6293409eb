import Sigil.Proofs.Limits
import Sigil.Proofs.Parsing

/-! # Beyond a limit

    A text that goes beyond a limit is refused for that and for nothing
    else, whatever the grammar would have to say about it.  Going beyond a
    limit is a property of the row of lexemes (`Lexeme.Exceeds`), and it
    is never lost when the row goes on; so there is a first token with
    which it holds, and that token is the one reported
    (`Expr.excess_is_exact`).  What comes after it has no part in the
    refusal. -/

namespace Sigil

/-- Does the fault say that a limit is exceeded? -/
def Fault.isLimit : Fault → Bool
  | .tooDeep | .tooManyConnectives => true
  | _ => false

namespace Lexeme

/-! ### Rows beyond a limit -/

/-- Some stretch of the row opens at least `n` brackets more than it closes. -/
def Overnests (n : Nat) (ls : List Lexeme) : Prop :=
  ∃ ms, ms <:+: ls ∧ ms.countP closes + n ≤ ms.countP opens

/-- The row goes beyond a limit: it opens 257 brackets too many, or has 257 connectives. -/
def Exceeds (ls : List Lexeme) : Prop :=
  Overnests 257 ls ∨ 257 ≤ ls.countP isConnective

/-- A row that goes beyond a limit still does so when it goes on. -/
theorem Exceeds.mono {ls ms : List Lexeme} (h : Exceeds ls) (hbegins : ls <+: ms) :
    Exceeds ms := by
  rcases h with ⟨ks, hks, hle⟩ | hle
  · exact .inl ⟨ks, hks.trans hbegins.isInfix, hle⟩
  · exact .inr (Nat.le_trans hle hbegins.sublist.countP_le)

/-- A stretch of a longer row ends before its last lexeme, or with it. -/
theorem Overnests.of_concat {n : Nat} {ls : List Lexeme} {l : Lexeme}
    (h : Overnests n (ls ++ [l])) :
    Overnests n ls ∨ ∃ ms, ms <:+ ls ++ [l] ∧ ms.countP closes + n ≤ ms.countP opens := by
  obtain ⟨ms, hms, hle⟩ := h
  rcases List.infix_concat_iff.1 hms with hsuffix | hinfix
  · exact .inr ⟨ms, hsuffix, hle⟩
  · exact .inl ⟨ms, hinfix, hle⟩

end Lexeme

open Lexeme

namespace Tally

/-! ### The first excess -/

/-- There is no excess in a row that keeps the limits. -/
theorem firstExcess_eq_none_iff_not_exceeds (tokens : List Token) :
    zero.firstExcess tokens = none ↔ ¬ Exceeds (tokens.map (·.lexeme)) := by
  rw [firstExcess_zero_eq_none_iff]
  unfold Expr.maxNesting Expr.maxConnectives
  constructor
  · rintro ⟨hnesting, hconnectives⟩ (⟨ms, hms, hle⟩ | hle)
    · have hbound := hnesting ms hms
      omega
    · omega
  · intro h
    refine ⟨?_, ?_⟩
    · intro ms hms
      by_contra hle
      apply h
      exact .inl ⟨ms, hms, by omega⟩
    · by_contra hle
      apply h
      exact .inr (by omega)

/-- The first excess splits the row: nothing is wrong before its token, with the token the
counts are beyond a limit, and what comes after it may be anything. -/
theorem exists_split_of_firstExcess {t : Tally} {tokens : List Token} {r : Refusal}
    (h : t.firstExcess tokens = some r) :
    ∃ before token after, tokens = before ++ token :: after ∧
      t.firstExcess before = none ∧
      (∀ more, t.firstExcess (before ++ token :: more) = some r) ∧
      (t.along ((before ++ [token]).map (·.lexeme))).excess = some r.fault ∧
      r.span = token.span := by
  induction tokens generalizing t with
  | nil => cases h
  | cons token rest ih =>
    rw [firstExcess] at h
    cases hexcess : (t.add token.lexeme).excess with
    | some fault =>
      simp only [hexcess, Option.some.injEq] at h
      subst h
      refine ⟨[], token, rest, rfl, rfl, ?_, hexcess, rfl⟩
      intro more
      rw [List.nil_append, firstExcess]
      simp only [hexcess]
    | none =>
      simp only [hexcess] at h
      obtain ⟨before, blamed, after, rfl, hbefore, hmore, hfault, hspan⟩ := ih h
      refine ⟨token :: before, blamed, after, rfl, ?_, ?_, hfault, hspan⟩
      · rw [firstExcess]
        simp only [hexcess, hbefore]
      · intro more
        rw [List.cons_append, firstExcess]
        simp only [hexcess, hmore more]

theorem excess_eq_tooDeep_iff (t : Tally) :
    t.excess = some .tooDeep ↔ Expr.maxNesting < t.nesting := by
  unfold excess
  by_cases hnesting : Expr.maxNesting < t.nesting
  · simp [hnesting]
  · by_cases hconnectives : Expr.maxConnectives < t.connectives <;> simp [hnesting, hconnectives]

theorem excess_eq_tooManyConnectives_iff (t : Tally) :
    t.excess = some .tooManyConnectives
      ↔ t.nesting ≤ Expr.maxNesting ∧ Expr.maxConnectives < t.connectives := by
  rw [← Nat.not_lt]
  unfold excess
  by_cases hnesting : Expr.maxNesting < t.nesting
  · simp [hnesting]
  · by_cases hconnectives : Expr.maxConnectives < t.connectives <;> simp [hnesting, hconnectives]

/-- A fault that is found is one of the two limits. -/
theorem isLimit_of_excess {t : Tally} {fault : Fault} (h : t.excess = some fault) :
    fault.isLimit = true := by
  unfold excess at h
  split at h
  · obtain rfl := Option.some.inj h
    rfl
  · split at h
    · obtain rfl := Option.some.inj h
      rfl
    · cases h

section Limit

variable {ls : List Lexeme} {l : Lexeme}

/-- Where a row first goes beyond a limit, the nesting counter says whether it nests too
deep: a stretch that does so ends there. -/
theorem nesting_along_concat_iff (h : ¬ Exceeds ls) :
    Expr.maxNesting < (zero.along (ls ++ [l])).nesting ↔ Overnests 257 (ls ++ [l]) := by
  have hcounts := counts_along (ls ++ [l])
  unfold Expr.maxNesting
  constructor
  · intro hlt
    obtain ⟨ms, hms, heq⟩ := hcounts.attained
    exact ⟨ms, hms.isInfix, by omega⟩
  · intro hnests
    rcases hnests.of_concat with hbefore | ⟨ms, hms, hle⟩
    · exact absurd (.inl hbefore) h
    · have hbound := hcounts.bound ms hms
      omega

/-- A row does not go beyond both limits with one lexeme, for a connective is no bracket. -/
theorem not_overnests_of_connectives (h : ¬ Exceeds ls)
    (hle : 257 ≤ (ls ++ [l]).countP isConnective) : ¬ Overnests 257 (ls ++ [l]) := by
  intro hnests
  have hlast : isConnective l = true := by
    by_contra hother
    apply h
    rw [List.countP_append, List.countP_singleton, if_neg hother] at hle
    exact .inr hle
  -- the stretch that nests too deep does so without the connective
  apply h
  obtain ⟨ms, hms, hmore⟩ := hnests
  rcases List.infix_concat_iff.1 hms with hsuffix | hinfix
  · rcases List.suffix_concat_iff.1 hsuffix with rfl | ⟨ks, rfl, hks⟩
    · exact absurd hmore (by decide)
    · have hopens : l.opens = false := by cases l <;> first | rfl | cases hlast
      have hcloses : l.closes = false := by cases l <;> first | rfl | cases hlast
      rw [List.countP_append, List.countP_append, List.countP_singleton, List.countP_singleton,
        hopens, hcloses] at hmore
      exact .inl ⟨ks, hks.isInfix, hmore⟩
  · exact .inl ⟨ms, hinfix, hmore⟩

end Limit

end Tally

/-! ### Refusals for a limit -/

/-- The refusal is for the token with index `i`, with which `tokens` first go beyond a limit,
and it names that limit. -/
structure Refusal.Blames (r : Refusal) (tokens : List Token) (i : Nat) : Prop where
  token : ∃ t, tokens[i]? = some t ∧ r.span = t.span
  /-- With this token, and not before, there is an excess. -/
  least : ∀ j, Exceeds ((tokens.take (j + 1)).map (·.lexeme)) ↔ i ≤ j
  deep : r.fault.message = "expression nests too deeply (limit 256)"
    ↔ Overnests 257 ((tokens.take (i + 1)).map (·.lexeme))
  many : r.fault.message = "expression has too many operators (limit 256)"
    ↔ 257 ≤ ((tokens.take (i + 1)).map (·.lexeme)).countP isConnective

/-- The beginnings beyond a limit are those with the token that first goes beyond it. -/
theorem Lexeme.exceeds_take_iff {before after : List Token} {token : Token}
    (hfree : ¬ Exceeds (before.map (·.lexeme)))
    (hreached : Exceeds ((before ++ [token]).map (·.lexeme))) (j : Nat) :
    Exceeds (((before ++ token :: after).take (j + 1)).map (·.lexeme)) ↔ before.length ≤ j := by
  constructor
  · intro hexceeds
    by_contra hlt
    -- a beginning that does not reach the token is one of `before`
    apply hfree
    apply hexceeds.mono
    apply List.IsPrefix.map
    rw [List.take_append_of_le_length (by omega)]
    exact List.take_prefix _ _
  · intro hle
    apply hreached.mono
    apply List.IsPrefix.map
    have htake : (before ++ token :: after).take (before.length + 1) = before ++ [token] :=
      List.take_length_add_append 1
    rw [← htake]
    exact List.take_prefix_take_left (by omega)

theorem Fault.message_eq_tooDeep_iff {f : Fault} (h : f.isLimit = true) :
    f.message = "expression nests too deeply (limit 256)" ↔ f = .tooDeep := by
  cases f with
  | tooDeep => exact iff_of_true (by decide +kernel) rfl
  | tooManyConnectives => exact iff_of_false (by decide +kernel) nofun
  | _ => cases h

theorem Fault.message_eq_tooManyConnectives_iff {f : Fault} (h : f.isLimit = true) :
    f.message = "expression has too many operators (limit 256)" ↔ f = .tooManyConnectives := by
  cases f with
  | tooDeep => exact iff_of_false (by decide +kernel) nofun
  | tooManyConnectives => exact iff_of_true (by decide +kernel) rfl
  | _ => cases h

namespace Tally

/-- The first excess is blamed on its token. -/
theorem blames_of_firstExcess {tokens : List Token} {r : Refusal}
    (h : zero.firstExcess tokens = some r) :
    ∃ i, r.Blames tokens i ∧
      ∀ tokens', tokens.take (i + 1) <+: tokens' → zero.firstExcess tokens' = some r := by
  obtain ⟨before, token, after, rfl, hbefore, hmore, hexcess, hspan⟩ :=
    exists_split_of_firstExcess h
  have htake : (before ++ token :: after).take (before.length + 1) = before ++ [token] :=
    List.take_length_add_append 1
  have hfree : ¬ Exceeds (before.map (·.lexeme)) :=
    (firstExcess_eq_none_iff_not_exceeds before).1 hbefore
  have hreached : Exceeds ((before ++ [token]).map (·.lexeme)) := by
    by_contra hnot
    have hsome := hmore []
    rw [(firstExcess_eq_none_iff_not_exceeds _).2 hnot] at hsome
    cases hsome
  have hlimit := isLimit_of_excess hexcess
  -- the row up to the token is the one before it and one more lexeme
  have hrow : (before ++ [token]).map (·.lexeme) = before.map (·.lexeme) ++ [token.lexeme] := by
    rw [List.map_append]
    rfl
  refine ⟨before.length, ⟨⟨token, ?_, hspan⟩, exceeds_take_iff hfree hreached, ?_, ?_⟩, ?_⟩
  · simp
  · rw [Fault.message_eq_tooDeep_iff hlimit, htake, hrow, ← nesting_along_concat_iff hfree,
      ← excess_eq_tooDeep_iff, ← hrow, hexcess, Option.some.injEq]
  · rw [Fault.message_eq_tooManyConnectives_iff hlimit, htake, hrow,
      ← Option.some.injEq, ← hexcess, hrow, excess_eq_tooManyConnectives_iff,
      ← Nat.not_lt, nesting_along_concat_iff hfree, (counts_along _).connectives]
    unfold Expr.maxConnectives
    constructor
    · exact fun hcounts => hcounts.2
    · exact fun hle => ⟨not_overnests_of_connectives hfree hle, hle⟩
  · intro tokens' hbegins
    rw [htake] at hbegins
    obtain ⟨more, rfl⟩ := hbegins
    rw [List.append_assoc]
    exact hmore more

end Tally

/-- Where reading tokens stops, no limit is blamed. -/
theorem Reading.Halt.isLimit_refusal (h : Reading.Halt) (length : Nat) :
    (h.refusal length).fault.isLimit = false := by
  rcases h.fault_refusal length with ⟨c, hfault⟩ | ⟨c, hfault⟩ | ⟨expected, found, hfault⟩
  · rw [hfault]
    rfl
  · rw [hfault]
    rfl
  · rw [hfault]
    rfl

namespace Expr

/-- A text is refused for a limit exactly when its tokens have an excess. -/
theorem parse_eq_limit_iff {text : String} {tokens : List Token} {r : Refusal}
    (htokens : Token.readAll text = .ok tokens) :
    (parse text = .error r ∧ r.fault.isLimit = true) ↔ Tally.zero.firstExcess tokens = some r := by
  have hparse : parse text = ofTokens (Text.width text.toList) tokens := by
    rw [parse_eq, htokens]
    rfl
  rw [hparse]
  unfold ofTokens
  cases hexcess : Tally.zero.firstExcess tokens with
  | some blamed =>
    obtain ⟨before, token, after, -, -, -, hfault, -⟩ := Tally.exists_split_of_firstExcess hexcess
    have hlimit := Tally.isLimit_of_excess hfault
    constructor
    · rintro ⟨h, -⟩
      rw [Except.error.inj h]
    · intro h
      obtain rfl := Option.some.inj h
      exact ⟨rfl, hlimit⟩
  | none =>
    refine iff_of_false ?_ nofun
    rintro ⟨h, hlimit⟩
    cases hresult : (Reading.start.run tokens).result? with
    | some x => simp [hresult] at h
    | none =>
      simp only [hresult, Except.error.injEq] at h
      rw [← h, Reading.Halt.isLimit_refusal] at hlimit
      cases hlimit

/-- A text that can be cut into tokens is refused for a limit exactly when some stretch of
them opens 257 brackets too many, or when there are 257 connectives; the grammar has no say
in it.  The refusal is for the first token with which this is so, and every text whose
tokens begin with the same ones, up to this token, is refused in the same way. -/
theorem excess_is_exact {text : String} {tokens : List Token}
    (htokens : Token.readAll text = .ok tokens) :
    ((∃ r, parse text = .error r ∧ r.fault.isLimit = true)
      ↔ Exceeds (tokens.map (·.lexeme))) ∧
    ∀ r, parse text = .error r → r.fault.isLimit = true →
      ∃ i, r.Blames tokens i ∧
        ∀ text' tokens', Token.readAll text' = .ok tokens' → tokens.take (i + 1) <+: tokens' →
          parse text' = .error r := by
  constructor
  · constructor
    · rintro ⟨r, hr⟩
      by_contra hnot
      have hsome := (parse_eq_limit_iff htokens).1 hr
      rw [(Tally.firstExcess_eq_none_iff_not_exceeds tokens).2 hnot] at hsome
      cases hsome
    · intro hexceeds
      cases hexcess : Tally.zero.firstExcess tokens with
      | some r => exact ⟨r, (parse_eq_limit_iff htokens).2 hexcess⟩
      | none => exact absurd hexceeds ((Tally.firstExcess_eq_none_iff_not_exceeds tokens).1 hexcess)
  · intro r hr hlimit
    have hexcess := (parse_eq_limit_iff htokens).1 ⟨hr, hlimit⟩
    obtain ⟨i, hblames, hmore⟩ := Tally.blames_of_firstExcess hexcess
    refine ⟨i, hblames, ?_⟩
    intro text' tokens' htokens' hbegins
    exact ((parse_eq_limit_iff htokens').2 (hmore tokens' hbegins)).1

/-- A closing parenthesis, with which no expression begins, and 257 opening ones. -/
theorem excess_is_exact_parens : ∃ tokens r,
    Token.readAll (String.ofList (')' :: List.replicate 257 '(')) = .ok tokens ∧
    tokens.map (·.lexeme) = .mark .closeParen :: List.replicate 257 (.mark .openParen) ∧
    parse (String.ofList (')' :: List.replicate 257 '(')) = .error r ∧ r.fault.isLimit = true ∧
    ∃ i, r.Blames tokens i := by
  have hopening : ∀ n, Spells (List.replicate n (.mark .openParen)) (List.replicate n '(') := by
    intro n
    induction n with
    | zero => exact .nil
    | succ n ih => exact .cons (l := .mark .openParen) trivial trivial ih
  have hspells : Spells (.mark .closeParen :: List.replicate 257 (.mark .openParen))
      (String.ofList (')' :: List.replicate 257 '(')).toList := by
    rw [String.toList_ofList]
    exact .cons (l := .mark .closeParen) trivial trivial (hopening 257)
  obtain ⟨tokens, htokens, hlexemes⟩ := Token.lexemes_readAll_iff.2 hspells
  obtain ⟨hiff, hblames⟩ := excess_is_exact htokens
  have hexceeds : Exceeds (tokens.map (·.lexeme)) := by
    rw [hlexemes]
    refine .inl ⟨List.replicate 257 (.mark .openParen), List.suffix_cons _ _ |>.isInfix, ?_⟩
    rw [List.countP_replicate, List.countP_replicate]
    decide
  obtain ⟨r, hr, hlimit⟩ := hiff.2 hexceeds
  obtain ⟨i, hi, -⟩ := hblames r hr hlimit
  exact ⟨tokens, r, htokens, hlexemes, hr, hlimit, i, hi⟩

end Expr

end Sigil
