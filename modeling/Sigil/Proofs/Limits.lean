import Sigil.Proofs.Moves

/-! # The limits, without counting along

    A tally goes through the tokens with two counters, one of which stops
    at zero.  What it finds can be said of the row as a whole: no stretch
    of it opens too many brackets that it does not close, and there are
    not too many connectives (`Tally.firstExcess_zero_eq_none_iff`).

    Where the row can be read, no closing bracket comes too early, and it
    is enough to look at the beginnings of the row: at each of its places
    the open brackets are counted (`Reading.nestWithin_iff`). -/

namespace Sigil

namespace Lexeme

/-! ### Counting in rows -/

/-- Does the lexeme open a bracket? -/
def opens : Lexeme → Bool
  | .mark .openParen | .mark .openBracket => true
  | _ => false

/-- Does the lexeme close a bracket? -/
def closes : Lexeme → Bool
  | .mark .closeParen | .mark .closeBracket => true
  | _ => false

/-- Is the lexeme a connective? -/
def isConnective : Lexeme → Bool
  | .connective _ => true
  | _ => false

/-- At no place of the row are more than `n` brackets open. -/
def NestWithin (n : Nat) (ls : List Lexeme) : Prop :=
  ∀ ms, ms <+: ls → ms.countP opens ≤ ms.countP closes + n

end Lexeme

namespace Tally

open Lexeme

/-! ### Tallies of rows -/

theorem nesting_add (t : Tally) (l : Lexeme) :
    (t.add l).nesting
      = t.nesting + (if l.opens then 1 else 0) - (if l.closes then 1 else 0) := by
  cases l with
  | mark m => cases m <;> rfl
  | _ => rfl

theorem connectives_add (t : Tally) (l : Lexeme) :
    (t.add l).connectives = t.connectives + (if l.isConnective then 1 else 0) := by
  cases l with
  | mark m => cases m <;> rfl
  | _ => rfl

/-- The counts after a row. -/
def along (t : Tally) (ls : List Lexeme) : Tally :=
  ls.foldl add t

theorem along_concat (t : Tally) (ls : List Lexeme) (l : Lexeme) :
    t.along (ls ++ [l]) = (t.along ls).add l := by
  simp [along]

/-- A tally finds no fault when it finds none at any place. -/
theorem firstExcess_eq_none_iff {t : Tally} {tokens : List Token} (ht : t.excess = none) :
    t.firstExcess tokens = none ↔
      ∀ ms, ms <+: tokens.map (·.lexeme) → (t.along ms).excess = none := by
  induction tokens generalizing t with
  | nil =>
    simp only [firstExcess, List.map_nil, List.prefix_nil, forall_eq, true_iff]
    exact ht
  | cons token rest ih =>
    -- the places of the row are its start and those of the rest, one further on
    rw [firstExcess, List.map_cons]
    cases h : (t.add token.lexeme).excess with
    | some fault =>
      refine iff_of_false nofun fun hall => ?_
      have hfirst := hall [token.lexeme] (List.prefix_append _ _)
      rw [show t.along [token.lexeme] = t.add token.lexeme from rfl, h] at hfirst
      cases hfirst
    | none =>
      refine (ih h).trans ⟨fun hall ms hms => ?_, fun hall ms hms => ?_⟩
      · cases ms with
        | nil => exact ht
        | cons l ms =>
          obtain ⟨rfl, hms'⟩ := List.cons_prefix_cons.1 hms
          exact hall ms hms'
      · exact hall (token.lexeme :: ms) (List.cons_prefix_cons.2 ⟨rfl, hms⟩)

/-- What the counters hold after a row: the nesting is the largest number of
brackets that an end of the row leaves open. -/
structure Counts (t : Tally) (ls : List Lexeme) : Prop where
  connectives : t.connectives = ls.countP isConnective
  bound : ∀ ms, ms <:+ ls → ms.countP opens ≤ ms.countP closes + t.nesting
  attained : ∃ ms, ms <:+ ls ∧ ms.countP opens = ms.countP closes + t.nesting

theorem counts_zero : Counts zero [] where
  connectives := rfl
  bound ms hms := by
    obtain rfl := List.suffix_nil.1 hms
    exact Nat.le_refl _
  attained := ⟨[], List.suffix_refl _, rfl⟩

/-- One more lexeme keeps the counters right. -/
theorem Counts.add {t : Tally} {ls : List Lexeme} (h : t.Counts ls) (l : Lexeme) :
    (t.add l).Counts (ls ++ [l]) := by
  have hnest := nesting_add t l
  refine ⟨?_, fun ms hms => ?_, ?_⟩
  · rw [connectives_add, h.connectives, List.countP_append, List.countP_singleton]
  · rcases List.suffix_concat_iff.1 hms with rfl | ⟨ks, rfl, hks⟩
    · exact Nat.zero_le _
    · have hle := h.bound ks hks
      rw [List.countP_append, List.countP_append, List.countP_singleton, List.countP_singleton]
      omega
  · obtain ⟨ks, hks, heq⟩ := h.attained
    by_cases hzero : t.nesting = 0 ∧ l.closes = true ∧ l.opens = false
    · -- nothing is open that could be closed, so the empty end is the best one
      refine ⟨[], List.nil_suffix, ?_⟩
      rw [hnest]
      simp [hzero.1, hzero.2.1, hzero.2.2]
    · refine ⟨ks ++ [l], List.suffix_concat_iff.2 (Or.inr ⟨ks, rfl, hks⟩), ?_⟩
      rw [List.countP_append, List.countP_append, List.countP_singleton, List.countP_singleton]
      have hbracket : ¬ (l.opens = true ∧ l.closes = true) := by
        cases l with
        | mark m => cases m <;> decide
        | _ => exact nofun
      cases ho : l.opens <;> cases hc : l.closes <;> simp [ho, hc] at hnest hzero hbracket ⊢ <;>
        omega

theorem counts_along (ls : List Lexeme) : (zero.along ls).Counts ls := by
  induction ls using List.reverseRecOn with
  | nil => exact counts_zero
  | append_singleton ls l ih =>
    rw [along_concat]
    exact ih.add l

theorem excess_eq_none_iff (t : Tally) :
    t.excess = none ↔ t.nesting ≤ Expr.maxNesting ∧ t.connectives ≤ Expr.maxConnectives := by
  unfold excess
  split
  · next h => exact iff_of_false nofun fun hle => Nat.not_lt.2 hle.1 h
  · split
    · next h => exact iff_of_false nofun fun hle => Nat.not_lt.2 hle.2 h
    · next h₁ h₂ => exact iff_of_true rfl ⟨Nat.not_lt.1 h₁, Nat.not_lt.1 h₂⟩

/-- The limits hold when no stretch opens too many brackets that it does not
close and there are not too many connectives. -/
theorem firstExcess_zero_eq_none_iff (tokens : List Token) :
    zero.firstExcess tokens = none ↔
      (∀ ms, ms <:+: tokens.map (·.lexeme) →
        ms.countP opens ≤ ms.countP closes + Expr.maxNesting) ∧
      (tokens.map (·.lexeme)).countP isConnective ≤ Expr.maxConnectives := by
  rw [firstExcess_eq_none_iff (by rfl)]
  constructor
  · intro hall
    refine ⟨fun ms hms => ?_, ?_⟩
    · obtain ⟨ks, hsuffix, hprefix⟩ := List.infix_iff_suffix_prefix.1 hms
      have hnest := ((excess_eq_none_iff _).1 (hall ks hprefix)).1
      exact Nat.le_trans ((counts_along ks).bound ms hsuffix) (Nat.add_le_add_left hnest _)
    · have hcount := ((excess_eq_none_iff _).1 (hall _ (List.prefix_refl _))).2
      rwa [(counts_along _).connectives] at hcount
  · rintro ⟨hbrackets, hconnectives⟩ ms hms
    refine (excess_eq_none_iff _).2 ⟨?_, ?_⟩
    · obtain ⟨ks, hsuffix, heq⟩ := (counts_along ms).attained
      have hle := hbrackets ks (List.infix_iff_suffix_prefix.2 ⟨ms, hsuffix, hms⟩)
      omega
    · rw [(counts_along ms).connectives]
      exact Nat.le_trans (hms.sublist.countP_le) hconnectives

/-- A fault that is found is one of nesting, if there are not too many connectives. -/
theorem fault_of_firstExcess {t : Tally} {tokens : List Token} {r : Refusal}
    (h : t.firstExcess tokens = some r)
    (hle : t.connectives + (tokens.map (·.lexeme)).countP isConnective ≤ Expr.maxConnectives) :
    r.fault = .tooDeep := by
  induction tokens generalizing t with
  | nil => cases h
  | cons token rest ih =>
    rw [List.map_cons, List.countP_cons] at hle
    have hadd := connectives_add t token.lexeme
    rw [firstExcess] at h
    cases hexcess : (t.add token.lexeme).excess with
    | none =>
      simp only [hexcess] at h
      exact ih h (by omega)
    | some fault =>
      simp only [hexcess] at h
      cases h
      -- the limit of connectives is the second to be looked at, and is kept
      unfold excess at hexcess
      split at hexcess
      · exact (Option.some.inj hexcess).symm
      · rw [if_neg (by omega)] at hexcess
        cases hexcess

end Tally

/-! ### Open brackets of a reading -/

/-- The brackets that are open at a site, without those of the groups. -/
def Site.openBrackets : Site → Nat
  | .operand | .called _ | .complete _ => 0
  | .name .. | .named .. | .filled .. => 1
  | .value slot => slot.lists.length + 1
  | .opened slot | .listed slot _ => slot.lists.length + 2

namespace Reading

open Lexeme

/-- The brackets that are open at a reading. -/
def openBrackets (r : Reading) : Nat :=
  r.outer.length + r.site.openBrackets

theorem openBrackets_fill (slot : Slot) (v : Value) :
    (slot.fill v).openBrackets = slot.lists.length + 1 := by
  obtain ⟨s, earlier, key, lists⟩ := slot
  cases lists <;> rfl

theorem openBrackets_of_operand? {r : Reading} {x : Expr} (h : r.operand? = some x) :
    r.site.openBrackets = 0 := by
  obtain ⟨g, outer, site⟩ := r
  cases site <;> first | rfl | cases h

/-- A value of a single lexeme is no bracket. -/
theorem not_bracket_of_isValue {l : Lexeme} {v : Value} (h : Grammar.IsValue [l] v) :
    l.opens = false ∧ l.closes = false := by
  rcases scalar_of_isValue h with ⟨name, rfl⟩ | ⟨q, content, rfl⟩
  · exact ⟨rfl, rfl⟩
  · exact ⟨rfl, rfl⟩

/-- A move opens or closes what its lexeme does. -/
theorem openBrackets_of_moves {r r' : Reading} {l : Lexeme} (h : Moves r l r') :
    r'.openBrackets + (if l.closes then 1 else 0)
      = r.openBrackets + (if l.opens then 1 else 0) := by
  cases h with
  | leave hx | push hx _ =>
    have hsite := openBrackets_of_operand? hx
    simp_all [openBrackets, Site.openBrackets, opens, closes]
  | scalar value =>
    obtain ⟨ho, hc⟩ := not_bracket_of_isValue value
    simp only [openBrackets, openBrackets_fill, ho, hc]
    rfl
  | firstScalar value =>
    obtain ⟨ho, hc⟩ := not_bracket_of_isValue value
    simp only [openBrackets, ho, hc]
    rfl
  | emptyList | closeList =>
    simp only [openBrackets, openBrackets_fill]
    rfl
  | _ => simp [openBrackets, Site.openBrackets, Slot.within, opens, closes] <;> omega

/-- In a row that can be read, the brackets not closed are those that are open in
the end. -/
theorem countP_opens_of_advance {ls : List Lexeme} {r : Reading}
    (h : start.advance ls = some r) :
    ls.countP opens = ls.countP closes + r.openBrackets := by
  refine advance_induction (P := fun r ks => ks.countP opens = ks.countP closes + r.openBrackets)
    rfl (fun {r' r'' ks l} ih hm => ?_) h
  have hmove := openBrackets_of_moves hm
  rw [List.countP_append, List.countP_append, List.countP_singleton, List.countP_singleton]
  omega

/-- In a row that can be read, the stretch that leaves the most brackets open is a
beginning of the row. -/
theorem nestWithin_iff {ls : List Lexeme} {r : Reading} {n : Nat}
    (h : start.advance ls = some r) :
    NestWithin n ls ↔ ∀ ms, ms <:+: ls → ms.countP opens ≤ ms.countP closes + n := by
  refine ⟨fun hall ms hms => ?_, fun hall ms hms => hall ms hms.isInfix⟩
  obtain ⟨ks, js, rfl⟩ := hms
  -- before the stretch no more brackets have been closed than opened
  have hwhole := hall (ks ++ ms) (List.prefix_append _ _)
  rw [List.append_assoc, advance_append] at h
  obtain ⟨r', hr', -⟩ := Option.bind_eq_some_iff.1 h
  have hbefore := countP_opens_of_advance hr'
  rw [List.countP_append, List.countP_append] at hwhole
  omega

end Reading

end Sigil
