import Sigil.Expr.Tokens
import Sigil.Grammar
import Mathlib.Data.List.Induction

/-! # The moves of a reading

    A reading takes a row of lexemes one by one.  `Reading.Moves` lists all
    that one step can do, so that what holds after every row follows from
    what every move keeps (`Reading.advance_induction`).

    Key theorem: `Reading.moves_of_step`. -/

namespace Sigil

open Grammar

namespace Reading

/-! ### Readings of rows -/

/-- The reading after a row of lexemes, if all of them fit. -/
def advance (r : Reading) : List Lexeme → Option Reading
  | [] => some r
  | l :: ls => (r.step l).bind fun r' => r'.advance ls

theorem advance_cons (r : Reading) (l : Lexeme) (ls : List Lexeme) :
    r.advance (l :: ls) = (r.step l).bind fun r' => r'.advance ls := rfl

theorem advance_append (r : Reading) (ls ms : List Lexeme) :
    r.advance (ls ++ ms) = (r.advance ls).bind fun r' => r'.advance ms := by
  induction ls generalizing r with
  | nil => rfl
  | cons l ls ih =>
    rw [List.cons_append, advance, advance, Option.bind_assoc]
    exact Option.bind_congr fun r' _ => ih r'

theorem advance_append_of_eq_some {r r' : Reading} {ls : List Lexeme}
    (h : r.advance ls = some r') (ms : List Lexeme) :
    r.advance (ls ++ ms) = r'.advance ms := by
  rw [advance_append, h, Option.bind_some]

/-- Running over tokens and asking for the result is advancing over their
lexemes and asking for the result. -/
theorem result?_run (r : Reading) (tokens : List Token) :
    (r.run tokens).result? = (r.advance (tokens.map (·.lexeme))).bind result? := by
  induction tokens generalizing r with
  | nil => rfl
  | cons token rest ih =>
    rw [List.map_cons, advance_cons, run]
    cases h : r.step token.lexeme with
    | none => rfl
    | some r' => exact ih r'

/-! ### Steps -/

/-- After an operand, what is not the opening of its arguments ends it. -/
theorem step_of_operand? {r : Reading} {y : Expr} (h : r.operand? = some y) {l : Lexeme}
    (hl : l ≠ .mark .openParen) : r.step l = r.afterOperand y l := by
  obtain ⟨g, outer, site⟩ := r
  cases site with
  | called s =>
    obtain rfl : Expr.call s .empty = y := Option.some.inj h
    -- only an opening parenthesis makes more of a symbol than an operand
    unfold step
    split <;> simp_all
  | complete x =>
    obtain rfl : x = y := Option.some.inj h
    rfl
  | _ => cases h

/-- After the opening of a list its first item begins, or the list closes. -/
theorem step_opened (g : Group) (outer : List Group) (slot : Slot) {l : Lexeme}
    (h : l ≠ .mark .closeBracket) :
    step ⟨g, outer, .opened slot⟩ l = step ⟨g, outer, .value (slot.within [])⟩ l := by
  unfold step
  split <;> first | rfl | simp_all

/-- All that a step can do. -/
inductive Moves : Reading → Lexeme → Reading → Prop where
  | symbol {g : Group} {outer : List Group} (s : Symbol) :
      Moves ⟨g, outer, .operand⟩ (.symbol s) ⟨g, outer, .called s⟩
  | not {waiting : List (Expr × Connective)} {outer : List Group} :
      Moves ⟨⟨waiting, false⟩, outer, .operand⟩ (.connective .not)
        ⟨⟨waiting, true⟩, outer, .operand⟩
  | enter {g : Group} {outer : List Group} :
      Moves ⟨g, outer, .operand⟩ (.mark .openParen) ⟨.fresh, g :: outer, .operand⟩
  | leave {g g' : Group} {outer : List Group} {site : Site} {x : Expr}
      (operand : operand? ⟨g, g' :: outer, site⟩ = some x) :
      Moves ⟨g, g' :: outer, site⟩ (.mark .closeParen) ⟨g', outer, .complete (g.close x)⟩
  | push {g : Group} {outer : List Group} {site : Site} {x : Expr} {c : Connective}
      (operand : operand? ⟨g, outer, site⟩ = some x) (binary : c.isUnary = false) :
      Moves ⟨g, outer, site⟩ (.connective c) ⟨g.push x c, outer, .operand⟩
  | firstName {g : Group} {outer : List Group} {s : Symbol} :
      Moves ⟨g, outer, .called s⟩ (.mark .openParen) ⟨g, outer, .name s .empty⟩
  | name {g : Group} {outer : List Group} {s : Symbol} {earlier : Arguments} (key : String) :
      Moves ⟨g, outer, .name s earlier⟩ (.identifier key) ⟨g, outer, .named s earlier key⟩
  | colon {g : Group} {outer : List Group} {s : Symbol} {earlier : Arguments} {key : String} :
      Moves ⟨g, outer, .named s earlier key⟩ (.mark .colon)
        ⟨g, outer, .value ⟨s, earlier, key, []⟩⟩
  | scalar {g : Group} {outer : List Group} {slot : Slot} {l : Lexeme} {v : Value}
      (value : IsValue [l] v) : Moves ⟨g, outer, .value slot⟩ l ⟨g, outer, slot.fill v⟩
  | list {g : Group} {outer : List Group} {slot : Slot} :
      Moves ⟨g, outer, .value slot⟩ (.mark .openBracket) ⟨g, outer, .opened slot⟩
  | firstScalar {g : Group} {outer : List Group} {slot : Slot} {l : Lexeme} {v : Value}
      (value : IsValue [l] v) : Moves ⟨g, outer, .opened slot⟩ l ⟨g, outer, .listed slot [v]⟩
  | firstList {g : Group} {outer : List Group} {slot : Slot} :
      Moves ⟨g, outer, .opened slot⟩ (.mark .openBracket) ⟨g, outer, .opened (slot.within [])⟩
  | emptyList {g : Group} {outer : List Group} {slot : Slot} :
      Moves ⟨g, outer, .opened slot⟩ (.mark .closeBracket) ⟨g, outer, slot.fill (.list [])⟩
  | nextItem {g : Group} {outer : List Group} {slot : Slot} {items : List Value} :
      Moves ⟨g, outer, .listed slot items⟩ (.mark .comma)
        ⟨g, outer, .value (slot.within items)⟩
  | closeList {g : Group} {outer : List Group} {slot : Slot} {items : List Value} :
      Moves ⟨g, outer, .listed slot items⟩ (.mark .closeBracket)
        ⟨g, outer, slot.fill (.list items.reverse)⟩
  | nextName {g : Group} {outer : List Group} {s : Symbol} {arguments : Arguments} :
      Moves ⟨g, outer, .filled s arguments⟩ (.mark .comma) ⟨g, outer, .name s arguments⟩
  | call {g : Group} {outer : List Group} {s : Symbol} {arguments : Arguments} :
      Moves ⟨g, outer, .filled s arguments⟩ (.mark .closeParen)
        ⟨g, outer, .complete (.call s arguments)⟩

theorem moves_of_afterOperand {r r' : Reading} {x : Expr} {l : Lexeme}
    (hx : r.operand? = some x) (h : r.afterOperand x l = some r') : Moves r l r' := by
  obtain ⟨g, outer, site⟩ := r
  cases l with
  | connective c =>
    rw [afterOperand] at h
    split at h
    · -- a `¬` has no place behind an operand
      cases h
    · next hc =>
      obtain rfl := Option.some.inj h
      exact .push hx (by simpa using hc)
  | mark m =>
    cases m with
    | closeParen =>
      cases outer with
      | nil =>
        -- no group is open that could be closed
        cases h
      | cons g' outer =>
        obtain rfl := Option.some.inj h
        exact .leave hx
    | _ => cases h
  | _ => cases h

/-- A value of a single lexeme is a name or a quoted text. -/
theorem scalar_of_isValue {l : Lexeme} {v : Value} (h : IsValue [l] v) :
    (∃ name, l = .identifier name) ∨ ∃ q content, l = .literal q content := by
  generalize hls : [l] = ls at h
  cases h with
  | text q content => exact .inr ⟨q, content, (List.cons.inj hls).1⟩
  | name name => exact .inl ⟨name, (List.cons.inj hls).1⟩
  | nil | list => simp at hls

/-- A lexeme with which a value begins is that value, or opens a list. -/
theorem begin?_eq_some {slot : Slot} {l : Lexeme} {site : Site}
    (h : slot.begin? l = some site) :
    (∃ v, IsValue [l] v ∧ site = slot.fill v) ∨
      (l = .mark .openBracket ∧ site = .opened slot) := by
  unfold Slot.begin? at h
  split at h
  · exact .inl ⟨_, .name _, (Option.some.inj h).symm⟩
  · exact .inl ⟨_, .text _ _, (Option.some.inj h).symm⟩
  · exact .inr ⟨rfl, (Option.some.inj h).symm⟩
  · cases h

/-- What a step does is one of the moves. -/
theorem moves_of_step {r r' : Reading} {l : Lexeme} (h : r.step l = some r') :
    Moves r l r' := by
  obtain ⟨g, outer, site⟩ := r
  cases site with
  | operand =>
    unfold step at h
    split at h <;> try contradiction
    · obtain rfl := Option.some.inj h
      exact .symbol _
    · obtain ⟨waiting, negated⟩ := g
      cases negated with
      | true =>
        -- a `¬` is waiting for this operand already
        cases h
      | false =>
        obtain rfl := Option.some.inj h
        exact .not
    · obtain rfl := Option.some.inj h
      exact .enter
  | called s =>
    by_cases hl : l = .mark .openParen
    · subst hl
      obtain rfl := Option.some.inj h
      exact .firstName
    · -- the symbol stands alone and is an operand
      rw [step_of_operand? rfl hl] at h
      exact moves_of_afterOperand rfl h
  | complete x => exact moves_of_afterOperand rfl h
  | name s earlier =>
    cases l with
    | identifier key =>
      obtain rfl := Option.some.inj h
      exact .name key
    | _ => cases h
  | named s earlier key =>
    cases l with
    | mark m =>
      cases m with
      | colon =>
        obtain rfl := Option.some.inj h
        exact .colon
      | _ => cases h
    | _ => cases h
  | value slot =>
    obtain ⟨site, hb, rfl⟩ := Option.map_eq_some_iff.1 h
    rcases begin?_eq_some hb with ⟨v, hv, rfl⟩ | ⟨rfl, rfl⟩
    · exact .scalar hv
    · exact .list
  | opened slot =>
    by_cases hl : l = .mark .closeBracket
    · subst hl
      obtain rfl := Option.some.inj h
      exact .emptyList
    · -- the list is not empty, and its first item begins
      rw [step_opened g outer slot hl] at h
      obtain ⟨site, hb, rfl⟩ := Option.map_eq_some_iff.1 h
      rcases begin?_eq_some hb with ⟨v, hv, rfl⟩ | ⟨rfl, rfl⟩
      · exact .firstScalar hv
      · exact .firstList
  | listed slot items =>
    cases l with
    | mark m =>
      cases m with
      | comma =>
        obtain rfl := Option.some.inj h
        exact .nextItem
      | closeBracket =>
        obtain rfl := Option.some.inj h
        exact .closeList
      | _ => cases h
    | _ => cases h
  | filled s arguments =>
    cases l with
    | mark m =>
      cases m with
      | comma =>
        obtain rfl := Option.some.inj h
        exact .nextName
      | closeParen =>
        obtain rfl := Option.some.inj h
        exact .call
      | _ => cases h
    | _ => cases h

/-- A property that every move keeps holds after every row of lexemes. -/
theorem advance_induction {P : Reading → List Lexeme → Prop} {r : Reading} (start : P r [])
    (move : ∀ {r' r'' : Reading} {ls : List Lexeme} {l : Lexeme},
      P r' ls → Moves r' l r'' → P r'' (ls ++ [l])) :
    ∀ {ls : List Lexeme} {r' : Reading}, r.advance ls = some r' → P r' ls := by
  intro ls
  -- from the end of the row, because the property speaks of all of it
  induction ls using List.reverseRecOn with
  | nil =>
    intro r' h
    obtain rfl := Option.some.inj h
    exact start
  | append_singleton ls l ih =>
    intro r' h
    rw [advance_append] at h
    obtain ⟨r₁, h₁, h₂⟩ := Option.bind_eq_some_iff.1 h
    rw [advance_cons] at h₂
    obtain ⟨r₂, hs, h₃⟩ := Option.bind_eq_some_iff.1 h₂
    obtain rfl := Option.some.inj h₃
    exact move (ih h₁) (moves_of_step hs)

end Reading

end Sigil
