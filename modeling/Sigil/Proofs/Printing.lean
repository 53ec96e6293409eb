import Sigil.Expr.Printable
import Sigil.Proofs.Precedence
import Sigil.Proofs.Collecting
import Sigil.Proofs.Seams
import Mathlib.Data.List.Forall2

/-! # What a canonical form says

    The canonical form of a printable expression spells the lexemes of the
    expression (`Expr.prints`), and these are the expression, by the
    grammar (`Expr.layer_lexemes`).

    Nothing runs together in a canonical form: behind a symbol or a name
    there is always a blank, a mark, or the end.  `Lexeme.Prints` says of a
    row and its characters that this is all they need of what comes
    after. -/

namespace Sigil

open Grammar

namespace Lexeme

/-! ### Rows that print -/

/-- The characters spell the row, before every text that parts from it. -/
def Prints (ls : List Lexeme) (cs : List Char) : Prop :=
  ∀ ms rest, Parts rest → Spells ms rest → Spells (ls ++ ms) (cs ++ rest)

theorem prints_nil : Prints [] [] :=
  fun _ _ _ h => h

theorem Prints.spells {ls : List Lexeme} {cs : List Char} (h : Prints ls cs) :
    Spells ls cs := by
  have hend := h [] [] parts_nil .nil
  rwa [List.append_nil, List.append_nil] at hend

theorem Valid.prints {l : Lexeme} (h : l.Valid) : Prints [l] l.chars := by
  intro ms rest hrest hms
  exact .cons h (hrest.stops l) hms

theorem Prints.blank {ls : List Lexeme} {cs : List Char} (h : Prints ls cs) :
    Prints ls (' ' :: cs) := by
  intro ms rest hrest hms
  exact .blank (by decide) (h ms rest hrest hms)

theorem Prints.mark {ls : List Lexeme} {cs : List Char} (h : Prints ls cs) (m : Mark) :
    Prints (.mark m :: ls) (m.glyph :: cs) := by
  intro ms rest hrest hms
  exact .cons trivial trivial (h ms rest hrest hms)

theorem Prints.connective {ls : List Lexeme} {cs : List Char} (h : Prints ls cs)
    (k : Connective) : Prints (.connective k :: ls) (k.glyph :: cs) := by
  intro ms rest hrest hms
  exact .cons trivial trivial (h ms rest hrest hms)

/-- Two rows print side by side when the second text parts from the first. -/
theorem Prints.append {ls ms : List Lexeme} {cs ds : List Char} {d : Char}
    (hl : Prints ls cs) (hm : Prints ms (d :: ds)) (hd : Parts [d]) :
    Prints (ls ++ ms) (cs ++ d :: ds) := by
  intro ks rest hrest hks
  rw [List.append_assoc, List.append_assoc]
  have hparts : Parts (d :: ds ++ rest) := by
    intro c hc
    exact hd c hc
  exact hl _ _ hparts (hm ks rest hrest hks)

theorem Prints.enclosed {ls : List Lexeme} {cs : List Char} (h : Prints ls cs) (o c : Mark) :
    Prints (enclosed o c ls) (o.glyph :: (cs ++ [c.glyph])) :=
  (h.append (prints_nil.mark c) (parts_mark c [])).mark o

theorem Prints.binary {ls ms : List Lexeme} {cs ds : List Char} (hl : Prints ls cs)
    (hr : Prints ms ds) (k : Connective) :
    Prints (ls ++ .connective k :: ms) (cs ++ ' ' :: k.glyph :: ' ' :: ds) :=
  hl.append (hr.blank.connective k).blank (parts_blank (by decide) [])

/-- A listing prints with a comma and a blank between each two parts. -/
theorem prints_listing {parts : List (List Lexeme)} {texts : List String}
    (h : List.Forall₂ (fun ls s => Prints ls s.toList) parts texts) :
    Prints (listing parts) (Text.commaSeparated texts).toList := by
  rw [Text.commaSeparated]
  -- the listing of more than one part goes on with a comma, from which the first one parts
  induction h with
  | nil => exact prints_nil
  | @cons part text parts texts hpart hrest ih =>
    cases hrest with
    | nil => exact hpart
    | cons hnext hmore =>
      rw [listing, String.intercalate_cons_cons, String.toList_append, String.toList_append,
        List.append_assoc]
      exact hpart.append (ih.blank.mark .comma) (parts_mark .comma [])

end Lexeme

namespace Value

open Lexeme

/-! ### Values -/

theorem toList_quoted (s : String) :
    (quoted s).toList = (Lexeme.literal (quoteOf s) s).chars := by
  unfold quoted quoteOf
  split <;> simp [chars, Quote.char]

theorem valid_literal {s : String} (h : (Value.text s).isPrintable = true) :
    (Lexeme.literal (quoteOf s) s).Valid := by
  rw [isPrintable] at h
  -- the text is written in the quote that it does not hold
  by_cases hsingle : '\'' ∈ s.toList
  · have hdouble : '"' ∉ s.toList := by simpa [hsingle] using h
    simpa [Valid, quoteOf, hsingle, Quote.char] using hdouble
  · simp [Valid, quoteOf, hsingle, Quote.char]

mutual

/-- The written form of a printable value spells its lexemes. -/
theorem prints : (v : Value) → v.isPrintable = true → Prints v.lexemes v.written.toList
  | .text s, h => by
    rw [lexemes, written, toList_quoted]
    exact (valid_literal h).prints
  | .name s, h => by
    rw [lexemes, written]
    rw [isPrintable] at h
    exact Valid.prints (l := .identifier s) h
  | .list vs, h => by
    rw [isPrintable] at h
    have hitems := prints_listing (prints_items vs h)
    rw [lexemes, written, String.toList_append, String.toList_append, List.append_assoc]
    exact hitems.enclosed .openBracket .closeBracket

theorem prints_items : (vs : List Value) → arePrintable vs = true →
    List.Forall₂ (fun ls s => Prints ls s.toList) (itemLexemes vs) (writtenItems vs)
  | [], _ => by
    rw [itemLexemes, writtenItems]
    exact .nil
  | v :: vs, h => by
    rw [arePrintable, Bool.and_eq_true] at h
    rw [itemLexemes, writtenItems]
    exact .cons (prints v h.1) (prints_items vs h.2)

end

end Value

namespace Arguments

open Lexeme

/-! ### Arguments -/

theorem prints_entry {entry : String × Value} (hname : isName entry.1.toList = true)
    (hvalue : entry.2.isPrintable = true) :
    Prints (lexemesOf entry) (entry.1 ++ ": " ++ entry.2.written).toList := by
  rw [String.toList_append, String.toList_append, List.append_assoc]
  have hkey : Prints [.identifier entry.1] entry.1.toList :=
    Valid.prints (l := .identifier entry.1) hname
  exact hkey.append ((entry.2.prints hvalue).blank.mark .colon) (parts_mark .colon [])

/-- The arguments of a call spell their lexemes. -/
theorem prints {as : Arguments} (h : as.isPrintable = true) :
    Prints (Lexeme.listing (as.entries.map lexemesOf)) (as.listing Value.written).toList := by
  refine prints_listing ?_
  rw [List.forall₂_map_left_iff, List.forall₂_map_right_iff, List.forall₂_same]
  intro e he
  have hentry := List.all_eq_true.1 h e he
  rw [Bool.and_eq_true] at hentry
  exact prints_entry hentry.1 hentry.2

end Arguments

namespace Expr

open Lexeme

/-! ### Expressions -/

theorem toList_text_connective (c : Connective) : c.text.toList = [c.glyph] := by
  simp [Connective.text]

/-- The canonical form of a printable expression spells its lexemes. -/
theorem prints {x : Expr} (h : x.isPrintable = true) : Prints x.lexemes x.canonical.toList := by
  induction x with
  | call s as =>
    have hsymbol : Prints [.symbol s] s.text.toList := by
      rw [Symbol.toList_text]
      exact Valid.prints (l := .symbol s) trivial
    rw [lexemes, canonical]
    split
    · exact hsymbol
    · have hcall := (Arguments.prints h).enclosed .openParen .closeParen
      rw [String.toList_append, String.toList_append, String.toList_append, List.append_assoc,
        List.append_assoc]
      exact hsymbol.append hcall (parts_mark .openParen [])
  | binary c l r ihl ihr =>
    obtain ⟨⟨-, hl⟩, hr⟩ : (c.isUnary = false ∧ l.isPrintable = true) ∧ r.isPrintable = true := by
      simpa [isPrintable] using h
    -- the outer parentheses are those that make an atom of it
    have hboth := ((ihl hl).binary (ihr hr) c).enclosed .openParen .closeParen
    rw [lexemes, canonical]
    simpa [toList_text_connective, Mark.glyph] using hboth
  | unary c x ih =>
    have hx : x.isPrintable = true := by
      rw [isPrintable, Bool.and_eq_true] at h
      exact h.2
    rw [lexemes, canonical]
    split
    · have hgroup := ((ih hx).enclosed .openParen .closeParen).connective c
      simpa [toList_text_connective, Mark.glyph] using hgroup
    · have hplain := (ih hx).connective c
      simpa [toList_text_connective] using hplain

end Expr

/-! ### What the lexemes are by the grammar -/

namespace Value

mutual

theorem isValue_lexemes : (v : Value) → IsValue v.lexemes v
  | .text s => by
    rw [lexemes]
    exact .text (quoteOf s) s
  | .name s => by
    rw [lexemes]
    exact .name s
  | .list [] => by
    rw [lexemes, itemLexemes]
    exact .nil
  | .list (v :: vs) => by
    rw [lexemes]
    exact .list (areItems_lexemes (v :: vs) (List.cons_ne_nil v vs))

theorem areItems_lexemes : (vs : List Value) → vs ≠ [] →
    AreItems (Lexeme.listing (itemLexemes vs)) vs
  | [], h => absurd rfl h
  | [v], _ => by
    rw [itemLexemes, itemLexemes]
    exact .one (isValue_lexemes v)
  | v :: w :: vs, _ => by
    have hrest := areItems_lexemes (w :: vs) (List.cons_ne_nil w vs)
    rw [itemLexemes] at hrest
    rw [itemLexemes, itemLexemes, Lexeme.listing]
    exact .cons (isValue_lexemes v) hrest

end

end Value

namespace Arguments

theorem areArguments_lexemes {entries : List (String × Value)} (h : entries ≠ []) :
    AreArguments (Lexeme.listing (entries.map lexemesOf)) entries := by
  induction entries with
  | nil => exact absurd rfl h
  | cons e es ih =>
    have he : IsArgument (lexemesOf e) e := .mk e.1 e.2.isValue_lexemes
    cases es with
    | nil => exact .one he
    | cons e' es => exact .cons he (ih (List.cons_ne_nil e' es))

end Arguments

namespace Expr

/-- What may stand under a `¬` may stand at each side of a binary connective. -/
theorem sentence_binary {c : Connective} (hc : c.isUnary = false) {ls ms : List Lexeme}
    {x y : Expr} (hl : Layer Connective.not.rank ls x) (hr : Layer Connective.not.rank ms y) :
    Sentence (ls ++ .connective c :: ms) (.binary c x y) := by
  have hleft := hl.loosen c.loosest_le_leftLayer (Connective.leftLayer_le_not hc)
  have hright := hr.loosen c.loosest_le_rightLayer (Connective.rightLayer_le_not hc)
  exact (Layer.binary hc hleft hright).loosen (Nat.le_refl _) c.rank_pos

/-- The lexemes of a printable expression are the expression; they may stand under a
`¬`, and where no `¬` is on top they are an atom. -/
theorem layer_lexemes {x : Expr} (h : x.isPrintable = true) :
    Layer Connective.not.rank x.lexemes x ∧ (x.isUnary = false → Layer atoms x.lexemes x) := by
  induction x with
  | call s as =>
    have hatom : Layer atoms (Expr.call s as).lexemes (.call s as) := by
      rw [lexemes]
      split
      · next hempty =>
        have has : as = .empty := Arguments.ext (List.isEmpty_iff.1 hempty)
        rw [has]
        exact .symbol s
      · next hsome =>
        have hentries : as.entries ≠ [] := fun hnil => hsome (List.isEmpty_iff.2 hnil)
        have hcall := Layer.call s (Arguments.areArguments_lexemes hentries)
        rwa [Arguments.ofList_entries] at hcall
    exact ⟨.next .not hatom, fun _ => hatom⟩
  | binary c l r ihl ihr =>
    obtain ⟨⟨hc, hl⟩, hr⟩ : (c.isUnary = false ∧ l.isPrintable = true) ∧ r.isPrintable = true := by
      simpa [isPrintable] using h
    have hinner := sentence_binary hc (ihl hl).1 (ihr hr).1
    exact ⟨.next .not (.group hinner), fun _ => .group hinner⟩
  | unary c x ih =>
    obtain ⟨hc, hx⟩ : c.isUnary = true ∧ x.isPrintable = true := by
      simpa [isPrintable] using h
    obtain rfl := Connective.eq_not_of_isUnary hc
    -- a `¬` takes an atom, which a further `¬` becomes in parentheses
    refine ⟨?_, nofun⟩
    rw [lexemes]
    split
    · have hinner := (ih hx).1.loosen (Nat.le_refl loosest) (by decide)
      exact .not (.group hinner)
    · next hplain => exact .not ((ih hx).2 (Bool.eq_false_iff.2 hplain))

/-- The lexemes of a printable expression are a sentence for it. -/
theorem sentence_lexemes {x : Expr} (h : x.isPrintable = true) : Sentence x.lexemes x :=
  (layer_lexemes h).1.loosen (Nat.le_refl loosest) (by decide)

end Expr

end Sigil
