import Sigil.Proofs.Collecting
import Sigil.Proofs.Moves
import Sigil.Proofs.Precedence

/-! # What a reading has read

    A reading forgets the lexemes that it has passed and keeps what they
    amount to.  `Reading.HasRead r ls` says that `ls` are lexemes after
    which the reading is `r`, in terms of the grammar and without a word
    about steps: the open groups with what waits in each of them, and the
    part of an operand that stands at the site.

    Every move keeps this (`Reading.HasRead.move`), and when the text may
    end the lexemes are a sentence (`Reading.HasRead.sentence`). -/

namespace Sigil

open Grammar

/-! ### Ends of rows -/

namespace Grammar

theorem AreItems.concat {ls ms : List Lexeme} {vs : List Value} {v : Value}
    (h : AreItems ls vs) (value : IsValue ms v) :
    AreItems (ls ++ .mark .comma :: ms) (vs ++ [v]) := by
  -- the grammar puts items in front, so the induction goes down to the last one
  match h with
  | .one first => exact .cons first (.one value)
  | .cons first rest =>
    have ih := rest.concat value
    rw [List.append_assoc, List.cons_append]
    exact .cons first ih

theorem AreArguments.concat {ls ms : List Lexeme} {entries : List (String × Value)}
    {entry : String × Value} (h : AreArguments ls entries) (argument : IsArgument ms entry) :
    AreArguments (ls ++ .mark .comma :: ms) (entries ++ [entry]) := by
  induction h with
  | one first => exact .cons first (.one argument)
  | cons first rest ih =>
    rw [List.append_assoc, List.cons_append]
    exact .cons first ih

end Grammar

/-! ### Within an operand -/

/-- The lexemes of a call up to the place of a name; `earlier` are the arguments
before it. -/
inductive Front : Symbol → Arguments → List Lexeme → Prop where
  | first (s : Symbol) : Front s .empty [.symbol s, .mark .openParen]
  | more {s : Symbol} {ls : List Lexeme} {entries : List (String × Value)}
      (arguments : AreArguments ls entries) :
      Front s (.ofList entries) (.symbol s :: .mark .openParen :: (ls ++ [.mark .comma]))

/-- The lexemes of a call up to a value; there may be lists around it. -/
inductive Slot.HasRead : Slot → List Lexeme → Prop where
  | value {s : Symbol} {earlier : Arguments} {ls : List Lexeme} (key : String)
      (front : Front s earlier ls) :
      Slot.HasRead ⟨s, earlier, key, []⟩ (ls ++ [.identifier key, .mark .colon])
  | opened {slot : Slot} {ls : List Lexeme} (around : slot.HasRead ls) :
      Slot.HasRead (slot.within []) (ls ++ [.mark .openBracket])
  | item {slot : Slot} {ls ms : List Lexeme} {items : List Value} (around : slot.HasRead ls)
      (before : AreItems ms items.reverse) :
      Slot.HasRead (slot.within items) (ls ++ .mark .openBracket :: (ms ++ [.mark .comma]))

/-- The lexemes of an operand up to a site. -/
inductive Site.HasRead : Site → List Lexeme → Prop where
  | operand : Site.HasRead .operand []
  | called (s : Symbol) : Site.HasRead (.called s) [.symbol s]
  | complete {x : Expr} {ls : List Lexeme} (operand : Layer atoms ls x) :
      Site.HasRead (.complete x) ls
  | name {s : Symbol} {earlier : Arguments} {ls : List Lexeme} (front : Front s earlier ls) :
      Site.HasRead (.name s earlier) ls
  | named {s : Symbol} {earlier : Arguments} {ls : List Lexeme} (key : String)
      (front : Front s earlier ls) :
      Site.HasRead (.named s earlier key) (ls ++ [.identifier key])
  | value {slot : Slot} {ls : List Lexeme} (before : slot.HasRead ls) :
      Site.HasRead (.value slot) ls
  | opened {slot : Slot} {ls : List Lexeme} (around : slot.HasRead ls) :
      Site.HasRead (.opened slot) (ls ++ [.mark .openBracket])
  | listed {slot : Slot} {ls ms : List Lexeme} {items : List Value} (around : slot.HasRead ls)
      (before : AreItems ms items.reverse) :
      Site.HasRead (.listed slot items) (ls ++ .mark .openBracket :: ms)
  | filled (s : Symbol) {ls : List Lexeme} {entries : List (String × Value)}
      (arguments : AreArguments ls entries) :
      Site.HasRead (.filled s (.ofList entries)) (.symbol s :: .mark .openParen :: ls)

@[simp] theorem Slot.fill_within (slot : Slot) (items : List Value) (v : Value) :
    (slot.within items).fill v = .listed slot (v :: items) := rfl

/-- A value at its place brings the site that is after it. -/
theorem Slot.HasRead.fill {slot : Slot} {ls ms : List Lexeme} {v : Value}
    (h : slot.HasRead ls) (value : IsValue ms v) : (slot.fill v).HasRead (ls ++ ms) := by
  cases h with
  | @value s earlier ls key front =>
    have argument : IsArgument (.identifier key :: .mark .colon :: ms) (key, v) := .mk key value
    cases front with
    | first => exact Site.HasRead.filled s (.one argument)
    | more arguments =>
      have hall := Site.HasRead.filled s (arguments.concat argument)
      rw [Arguments.ofList_concat] at hall
      simpa [Slot.fill] using hall
  | opened around =>
    have hlist := @Site.HasRead.listed _ _ _ [v] around (.one value)
    simpa using hlist
  | @item slot ls ks items around before =>
    have hitems : AreItems (ks ++ .mark .comma :: ms) (v :: items).reverse := by
      rw [List.reverse_cons]
      exact before.concat value
    simpa using Site.HasRead.listed around hitems

/-! ### Groups -/

/-- The lexemes of a group up to the operand that comes next. -/
inductive Group.HasRead : Group → List Lexeme → Prop where
  | plain {waiting : List (Expr × Connective)} {ls : List Lexeme}
      (before : Group.Waits waiting ls) : Group.HasRead ⟨waiting, false⟩ ls
  | negated {waiting : List (Expr × Connective)} {ls : List Lexeme}
      (before : Group.Waits waiting ls) :
      Group.HasRead ⟨waiting, true⟩ (ls ++ [.connective .not])

namespace Group

/-- What waits in a group may be followed by an operand under a `¬`. -/
theorem Waits.admits {waiting : List (Expr × Connective)} {ls : List Lexeme}
    (h : Waits waiting ls) : Admits waiting Connective.not.rank := by
  cases h with
  | nil => exact admits_nil _
  | cons earlier binary operand fits =>
    exact admits_cons.2 ⟨binary, Connective.rightLayer_le_not binary⟩

/-- The operand that comes next takes the `¬` before it along. -/
theorem HasRead.negate {g : Group} {ls ms : List Lexeme} {x : Expr} (h : g.HasRead ls)
    (operand : Layer atoms ms x) :
    ∃ ks ks', ls ++ ms = ks ++ ks' ∧ Waits g.waiting ks ∧
      Layer Connective.not.rank ks' (g.negate x) := by
  cases h with
  | plain before => exact ⟨ls, ms, rfl, before, .next .not operand⟩
  | @negated waiting ks before =>
    refine ⟨ks, .connective .not :: ms, ?_, before, .not operand⟩
    simp

theorem HasRead.push {g : Group} {ls ms : List Lexeme} {x : Expr} {c : Connective}
    (h : g.HasRead ls) (operand : Layer atoms ms x) (hc : c.isUnary = false) :
    (g.push x c).HasRead (ls ++ (ms ++ [.connective c])) := by
  obtain ⟨ks, ks', happ, hw, hx⟩ := h.negate operand
  -- joining cuts the same lexemes at another place
  obtain ⟨js, js', happ', hw', hx', hfit⟩ :=
    waits_join hw hx hw.admits (Connective.leftLayer_le_not hc)
  have hpush : g.push x c
      = ⟨((join c g.waiting (g.negate x)).2, c) :: (join c g.waiting (g.negate x)).1, false⟩ :=
    rfl
  have hall := HasRead.plain (Waits.cons hw' hc hx' hfit)
  rw [← List.append_assoc, ← happ', ← happ] at hall
  rw [hpush]
  simpa using hall

theorem HasRead.close {g : Group} {ls ms : List Lexeme} {x : Expr} (h : g.HasRead ls)
    (operand : Layer atoms ms x) : Layer loosest (ls ++ ms) (g.close x) := by
  obtain ⟨ks, ks', happ, hw, hx⟩ := h.negate operand
  rw [happ, close_eq_gather]
  exact layer_gather hw hx (by decide) hw.admits

end Group

/-- The lexemes of open groups up to the one inside them. -/
inductive Around : List Group → List Lexeme → Prop where
  | nil : Around [] []
  | cons {g : Group} {outer : List Group} {ls ms : List Lexeme} (around : Around outer ls)
      (group : g.HasRead ms) : Around (g :: outer) (ls ++ (ms ++ [.mark .openParen]))

/-! ### Readings -/

namespace Reading

/-- The lexemes are such that the reading after them is `r`. -/
inductive HasRead : Reading → List Lexeme → Prop where
  | mk {g : Group} {outer : List Group} {site : Site} {os gs ss : List Lexeme}
      (around : Around outer os) (group : g.HasRead gs) (here : site.HasRead ss) :
      HasRead ⟨g, outer, site⟩ (os ++ (gs ++ ss))

theorem hasRead_start : HasRead start [] :=
  .mk .nil (.plain .nil) .operand

/-- An operand that has been read is one of the grammar. -/
theorem layer_of_operand? {r : Reading} {ss : List Lexeme} {x : Expr}
    (h : r.site.HasRead ss) (hx : r.operand? = some x) : Layer atoms ss x := by
  obtain ⟨g, outer, site⟩ := r
  cases h with
  | called s =>
    obtain rfl := Option.some.inj hx
    exact .symbol s
  | complete operand =>
    obtain rfl := Option.some.inj hx
    exact operand
  | _ => cases hx

/-- A move keeps the account of the lexemes passed. -/
theorem HasRead.move {r r' : Reading} {ls : List Lexeme} {l : Lexeme} (h : r.HasRead ls)
    (hm : Moves r l r') : r'.HasRead (ls ++ [l]) := by
  obtain @⟨g, outer, site, os, gs, ss, around, group, here⟩ := h
  -- most moves stay within the site and leave the groups as they are
  have stay {site' : Site} (h' : site'.HasRead (ss ++ [l])) :
      HasRead ⟨g, outer, site'⟩ (os ++ (gs ++ ss) ++ [l]) := by
    simpa using HasRead.mk around group h'
  cases hm with
  | symbol s =>
    cases here
    exact stay (.called s)
  | not =>
    cases here
    cases group with
    | plain before => simpa using HasRead.mk around (.negated before) .operand
  | enter =>
    cases here
    have fresh : Group.fresh.HasRead [] := .plain .nil
    simpa using HasRead.mk (.cons around group) fresh .operand
  | leave hx =>
    -- the whole group becomes an operand of the group around it
    have operand := layer_of_operand? here hx
    cases around with
    | cons around' group' =>
      have hgroup := Layer.group (group.close operand)
      simpa using HasRead.mk around' group' (.complete hgroup)
  | push hx binary =>
    have operand := layer_of_operand? here hx
    simpa using HasRead.mk around (group.push operand binary) .operand
  | firstName =>
    cases here
    exact stay (.name (.first _))
  | name key =>
    cases here with
    | name front => exact stay (.named key front)
  | colon =>
    cases here with
    | named _ front => exact stay (.value (by simpa using Slot.HasRead.value _ front))
  | scalar value =>
    cases here with
    | value before => exact stay (before.fill value)
  | list =>
    cases here with
    | value before => exact stay (.opened before)
  | @firstScalar _ _ _ _ v value =>
    cases here with
    | opened around' =>
      -- the items of a site are kept in reverse
      have before : AreItems [l] [v].reverse := .one value
      exact stay (by simpa using Site.HasRead.listed around' before)
  | firstList =>
    cases here with
    | opened around' => exact stay (.opened (.opened around'))
  | emptyList =>
    cases here with
    | opened around' => exact stay (by simpa using around'.fill .nil)
  | nextItem =>
    cases here with
    | listed around' before => exact stay (.value (by simpa using Slot.HasRead.item around' before))
  | closeList =>
    cases here with
    | listed around' before => exact stay (by simpa using around'.fill (.list before))
  | nextName =>
    cases here with
    | filled s arguments => exact stay (.name (by simpa using Front.more arguments))
  | call =>
    cases here with
    | filled _ arguments => exact stay (.complete (by simpa using Layer.call _ arguments))

/-- A reading of a row has read this row. -/
theorem hasRead_of_advance {ls : List Lexeme} {r : Reading} (h : start.advance ls = some r) :
    r.HasRead ls :=
  advance_induction hasRead_start HasRead.move h

/-- Where the text may end, what has been read is a sentence. -/
theorem HasRead.sentence {r : Reading} {ls : List Lexeme} {x : Expr} (h : r.HasRead ls)
    (hx : r.result? = some x) : Sentence ls x := by
  obtain ⟨around, group, here⟩ := h
  cases around with
  | nil =>
    obtain ⟨y, hy, rfl⟩ := Option.map_eq_some_iff.1 hx
    exact group.close (layer_of_operand? here hy)
  | cons => cases hx

end Reading

end Sigil
