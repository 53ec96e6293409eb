import Sigil.Expr.Trace
import Sigil.Proofs.RoundTrip
import Sigil.Proofs.Seams

/-! # What a trace tells

    A trace has no brackets around operands, and ` on `, ` and ` and `, `
    come at every level of it.  Still it can be read in one way only: the
    sign of a connective tells how many operands follow, and a call ends
    where its symbol or its closing parenthesis does.  As long as no value
    is a quoted text, which may hold anything, different expressions have
    different traces (`Expr.eq_of_trace_eq`).

    Every part of a trace has the same property, and each is derived from
    those of its own parts: a text that begins with the part, and goes on
    so that no symbol and no name runs over its end, determines the part
    and what comes after it. -/

namespace Sigil

open Lexeme

/-! ### Cancelling at the head of a text -/

namespace Lexeme

/-- A text has only one lexeme at its head. -/
theorem chars_cancel {l m : Lexeme} {rest more : List Char} (hl : l.Valid) (hm : m.Valid)
    (hrest : Parts rest) (hmore : Parts more) (h : l.chars ++ rest = m.chars ++ more) :
    l = m ∧ rest = more := by
  have hscan := scan_chars_append hl (hrest.stops l)
  rw [h, scan_chars_append hm (hmore.stops m)] at hscan
  cases hscan
  exact ⟨rfl, rfl⟩

theorem name_cancel {s t : String} {rest more : List Char} (hs : isName s.toList = true)
    (ht : isName t.toList = true) (hrest : Parts rest) (hmore : Parts more)
    (h : s.toList ++ rest = t.toList ++ more) : s = t ∧ rest = more := by
  obtain ⟨heq, hafter⟩ :=
    chars_cancel (l := .identifier s) (m := .identifier t) hs ht hrest hmore h
  exact ⟨identifier.inj heq, hafter⟩

theorem symbol_cancel {s t : Symbol} {rest more : List Char} (hrest : Parts rest)
    (hmore : Parts more) (h : s.chars ++ rest = t.chars ++ more) : s = t ∧ rest = more := by
  obtain ⟨heq, hafter⟩ :=
    chars_cancel (l := .symbol s) (m := .symbol t) trivial trivial hrest hmore h
  exact ⟨symbol.inj heq, hafter⟩

/-- No mark is a letter. -/
theorem ne_glyph_of_isAlpha {c : Char} (h : c.isAlpha = true) (m : Mark) : c ≠ m.glyph := by
  intro heq
  subst heq
  cases m <;> exact absurd h (by decide)

end Lexeme

/-! ### Listings -/

section Listings

variable {α : Type} {write : α → String} {Good : α → Prop} {xs ys : List α}

/-- What is written for `x` tells `x` among the good elements, whatever comes after it. -/
def Tells (write : α → String) (Good : α → Prop) (x : α) : Prop :=
  ∀ y rest more, Good y → Parts rest → Parts more →
    (write x).toList ++ rest = (write y).toList ++ more → x = y ∧ rest = more

/-- A listing is its first part and then, each behind a comma and a blank, the others. -/
theorem toList_commaSeparated_cons (part : String) (parts : List String) :
    (Text.commaSeparated (part :: parts)).toList
      = part.toList ++ parts.flatMap fun s => ',' :: ' ' :: s.toList := by
  unfold Text.commaSeparated
  induction parts generalizing part with
  | nil => simp
  | cons next parts ih =>
    rw [String.intercalate_cons_cons, String.toList_append, String.toList_append, ih,
      List.flatMap_cons, List.append_assoc]
    rfl

/-- The parts of a listing after the first one, up to the mark that closes it. -/
theorem further_cancel {m : Mark} {rest more : List Char} (hm : m ≠ .comma)
    (hxs : ∀ x ∈ xs, Tells write Good x) (hys : ∀ y ∈ ys, Good y)
    (h : (xs.map write).flatMap (fun s => ',' :: ' ' :: s.toList) ++ m.glyph :: rest
      = (ys.map write).flatMap (fun s => ',' :: ' ' :: s.toList) ++ m.glyph :: more) :
    xs = ys ∧ rest = more := by
  have hcomma : m.glyph ≠ ',' := by
    intro heq
    apply hm
    cases m <;> first | rfl | exact absurd heq (by decide)
  -- a comma or the closing mark comes next, and from both a part can be told
  have hparts : ∀ (zs : List α) (after : List Char),
      Parts ((zs.map write).flatMap (fun s => ',' :: ' ' :: s.toList) ++ m.glyph :: after) := by
    intro zs after
    cases zs with
    | nil => exact parts_mark m after
    | cons z zs => exact parts_mark .comma _
  induction xs generalizing ys with
  | nil =>
    cases ys with
    | nil => exact ⟨rfl, (List.cons.inj h).2⟩
    | cons y ys => exact absurd (List.cons.inj h).1 hcomma
  | cons x xs ih =>
    cases ys with
    | nil => exact absurd (List.cons.inj h).1.symm hcomma
    | cons y ys =>
      obtain ⟨hx, hxs⟩ := List.forall_mem_cons.1 hxs
      obtain ⟨hy, hys⟩ := List.forall_mem_cons.1 hys
      simp only [List.map_cons, List.flatMap_cons, List.cons_append, List.append_assoc,
        List.cons.injEq, true_and] at h
      obtain ⟨heq, hafter⟩ := hx y _ _ hy (hparts xs rest) (hparts ys more) h
      obtain ⟨heqs, hend⟩ := ih hxs hys hafter
      exact ⟨by rw [heq, heqs], hend⟩

/-- A listing, up to the mark that closes it, tells its parts. -/
theorem listing_cancel {m : Mark} {rest more : List Char} (hm : m ≠ .comma)
    (hfirst : ∀ x, Good x → ∃ c cs, (write x).toList = c :: cs ∧ c ≠ m.glyph)
    (hgood : ∀ x ∈ xs, Good x) (hxs : ∀ x ∈ xs, Tells write Good x) (hys : ∀ y ∈ ys, Good y)
    (h : (Text.commaSeparated (xs.map write)).toList ++ m.glyph :: rest
      = (Text.commaSeparated (ys.map write)).toList ++ m.glyph :: more) :
    xs = ys ∧ rest = more := by
  cases xs with
  | nil =>
    cases ys with
    | nil => exact ⟨rfl, (List.cons.inj h).2⟩
    | cons y ys =>
      obtain ⟨c, cs, hc, hne⟩ := hfirst y (hys y List.mem_cons_self)
      rw [List.map_cons, toList_commaSeparated_cons, hc] at h
      exact absurd (List.cons.inj h).1.symm hne
  | cons x xs =>
    cases ys with
    | nil =>
      obtain ⟨c, cs, hc, hne⟩ := hfirst x (hgood x List.mem_cons_self)
      rw [List.map_cons, toList_commaSeparated_cons, hc] at h
      exact absurd (List.cons.inj h).1 hne
    | cons y ys =>
      -- with a comma and a blank in front, the first parts are like the others
      apply further_cancel hm hxs hys
      rw [List.map_cons, List.map_cons, toList_commaSeparated_cons,
        toList_commaSeparated_cons] at h
      simp only [List.map_cons, List.flatMap_cons, List.cons_append, h]

end Listings

/-! ### Values -/

namespace Value

mutual

/-- Is there no quoted text in the value? -/
def isUnquoted : Value → Bool
  | .text _ => false
  | .name _ => true
  | .list vs => areUnquoted vs

/-- Is there no quoted text in several values? -/
def areUnquoted : List Value → Bool
  | [] => true
  | v :: vs => isUnquoted v && areUnquoted vs

end

/-- The value is made of names alone. -/
def Plain (v : Value) : Prop :=
  v.isUnquoted = true ∧ v.isPrintable = true

theorem not_plain_text (s : String) : ¬ (Value.text s).Plain := by
  intro h
  cases h.1

theorem plain_items {vs : List Value} (h : (Value.list vs).Plain) : ∀ v ∈ vs, v.Plain := by
  obtain ⟨hunquoted, hprintable⟩ := h
  rw [isUnquoted] at hunquoted
  rw [isPrintable] at hprintable
  induction vs with
  | nil => exact nofun
  | cons v vs ih =>
    rw [areUnquoted, Bool.and_eq_true] at hunquoted
    rw [arePrintable, Bool.and_eq_true] at hprintable
    rw [List.forall_mem_cons]
    exact ⟨⟨hunquoted.1, hprintable.1⟩, ih hunquoted.2 hprintable.2⟩

theorem toList_plain_list (vs : List Value) (rest : List Char) :
    (plain (.list vs)).toList ++ rest
      = Mark.openBracket.glyph ::
        ((Text.commaSeparated (vs.map plain)).toList ++ Mark.closeBracket.glyph :: rest) := by
  rw [plain, plainItems_eq_map, String.toList_append, String.toList_append, List.append_assoc,
    List.append_assoc]
  rfl

/-- A value begins with a letter or with an opening bracket. -/
theorem exists_cons_plain {v : Value} (h : v.Plain) :
    ∃ c cs, v.plain.toList = c :: cs ∧ (c.isAlpha = true ∨ c = Mark.openBracket.glyph) := by
  cases v with
  | text s => exact absurd h (not_plain_text s)
  | name s =>
    obtain ⟨c, cs, hs, halpha, -⟩ := exists_cons_of_isName h.2
    exact ⟨c, cs, hs, .inl halpha⟩
  | list vs =>
    have hchars := toList_plain_list vs []
    rw [List.append_nil] at hchars
    exact ⟨_, _, hchars, .inr rfl⟩

theorem first_ne_closeBracket {v : Value} (h : v.Plain) :
    ∃ c cs, v.plain.toList = c :: cs ∧ c ≠ Mark.closeBracket.glyph := by
  obtain ⟨c, cs, hcs, halpha | rfl⟩ := exists_cons_plain h
  · exact ⟨c, cs, hcs, ne_glyph_of_isAlpha halpha _⟩
  · exact ⟨_, cs, hcs, by decide⟩

/-- A name is not the beginning of a list. -/
theorem name_ne_list {s : String} {vs : List Value} {rest more : List Char}
    (hs : (Value.name s).Plain) : s.toList ++ rest ≠ (plain (.list vs)).toList ++ more := by
  obtain ⟨c, cs, hcs, halpha, -⟩ := exists_cons_of_isName hs.2
  rw [hcs, toList_plain_list]
  intro h
  exact ne_glyph_of_isAlpha halpha _ (List.cons.inj h).1

mutual

/-- A value is told by how it stands in a trace. -/
theorem tells_plain : (v : Value) → v.Plain → Tells plain Plain v
  | .text s, h => absurd h (not_plain_text s)
  | .name s, h => by
    intro w rest more hw hrest hmore heq
    cases w with
    | text t => exact absurd hw (not_plain_text t)
    | name t =>
      obtain ⟨rfl, hafter⟩ := name_cancel h.2 hw.2 hrest hmore heq
      exact ⟨rfl, hafter⟩
    | list ws => exact absurd heq (name_ne_list h)
  | .list vs, h => by
    intro w rest more hw hrest hmore heq
    cases w with
    | text t => exact absurd hw (not_plain_text t)
    | name t => exact absurd heq.symm (name_ne_list hw)
    | list ws =>
      rw [toList_plain_list, toList_plain_list] at heq
      obtain ⟨rfl, hafter⟩ := listing_cancel (by decide) (fun v hv => first_ne_closeBracket hv)
        (plain_items h) (tells_plainItems vs (plain_items h)) (plain_items hw)
        (List.cons.inj heq).2
      exact ⟨rfl, hafter⟩

theorem tells_plainItems : (vs : List Value) → (∀ v ∈ vs, v.Plain) →
    ∀ v ∈ vs, Tells plain Plain v
  | [], _ => nofun
  | v :: vs, h =>
    have hparts := List.forall_mem_cons.1 h
    List.forall_mem_cons.2 ⟨tells_plain v hparts.1, tells_plainItems vs hparts.2⟩

end

end Value

/-! ### Arguments -/

namespace Arguments

/-- Is there no quoted text among the values? -/
def isUnquoted (as : Arguments) : Bool :=
  as.entries.all fun e => e.2.isUnquoted

/-- An argument as it stands in a trace. -/
def plainEntry (e : String × Value) : String :=
  e.1 ++ ": " ++ e.2.plain

/-- The name is a name, and the value is made of names. -/
def PlainEntry (e : String × Value) : Prop :=
  isName e.1.toList = true ∧ e.2.Plain

theorem toList_plainEntry (e : String × Value) (rest : List Char) :
    (plainEntry e).toList ++ rest
      = e.1.toList ++ ':' :: ' ' :: (e.2.plain.toList ++ rest) := by
  rw [plainEntry, String.toList_append, String.toList_append, List.append_assoc,
    List.append_assoc]
  rfl

/-- An argument is told by how it stands in a trace: its name goes up to the colon. -/
theorem tells_plainEntry {e : String × Value} (he : PlainEntry e) :
    Tells plainEntry PlainEntry e := by
  intro f rest more hf hrest hmore h
  rw [toList_plainEntry, toList_plainEntry] at h
  obtain ⟨hkey, hvalue⟩ :=
    name_cancel he.1 hf.1 (parts_mark .colon _) (parts_mark .colon _) h
  have hbehind := (List.cons.inj (List.cons.inj hvalue).2).2
  obtain ⟨heq, hafter⟩ := e.2.tells_plain he.2 f.2 rest more hf.2 hrest hmore hbehind
  exact ⟨Prod.ext hkey heq, hafter⟩

theorem first_ne_closeParen {e : String × Value} (he : PlainEntry e) :
    ∃ c cs, (plainEntry e).toList = c :: cs ∧ c ≠ Mark.closeParen.glyph := by
  obtain ⟨c, cs, hcs, halpha, -⟩ := exists_cons_of_isName he.1
  have hchars := toList_plainEntry e []
  rw [List.append_nil, hcs] at hchars
  exact ⟨c, _, hchars, ne_glyph_of_isAlpha halpha _⟩

theorem plainEntry_of_mem {as : Arguments} (hunquoted : as.isUnquoted = true)
    (hprintable : as.isPrintable = true) : ∀ e ∈ as.entries, PlainEntry e := by
  intro e he
  have hvalue := List.all_eq_true.1 hunquoted e he
  have hentry := List.all_eq_true.1 hprintable e he
  rw [Bool.and_eq_true] at hentry
  exact ⟨hentry.1, hvalue, hentry.2⟩

/-- Arguments are told by their listing, up to the parenthesis that closes it. -/
theorem listing_plain_cancel {as bs : Arguments} {rest more : List Char}
    (has : ∀ e ∈ as.entries, PlainEntry e) (hbs : ∀ e ∈ bs.entries, PlainEntry e)
    (h : (as.listing Value.plain).toList ++ ')' :: rest
      = (bs.listing Value.plain).toList ++ ')' :: more) : as = bs ∧ rest = more := by
  have hchars : (Text.commaSeparated (as.entries.map plainEntry)).toList
        ++ Mark.closeParen.glyph :: rest
      = (Text.commaSeparated (bs.entries.map plainEntry)).toList
        ++ Mark.closeParen.glyph :: more := h
  obtain ⟨hentries, hafter⟩ := listing_cancel (by decide) (fun e he => first_ne_closeParen he)
    has (fun e he => tells_plainEntry (has e he)) hbs hchars
  exact ⟨ext hentries, hafter⟩

end Arguments

/-! ### Expressions -/

namespace Expr

/-- Is there no quoted text among the arguments of the symbols? -/
def isUnquoted : Expr → Bool
  | .call _ as => as.isUnquoted
  | .binary _ l r => l.isUnquoted && r.isUnquoted
  | .unary _ x => x.isUnquoted

/-! The words of a trace, and the text that follows it. -/

theorem toList_trace_symbol {s : Symbol} {as : Arguments} (h : as.isEmpty = true)
    (rest : List Char) :
    (trace (.call s as)).toList ++ rest = "Executed symbol: ".toList ++ (s.chars ++ rest) := by
  rw [trace_symbol s h, String.toList_append, Symbol.toList_text, List.append_assoc]

theorem toList_trace_function {s : Symbol} {as : Arguments} (h : as.isEmpty = false)
    (rest : List Char) :
    (trace (.call s as)).toList ++ rest
      = "Executed function: ".toList ++
          (s.chars ++ '(' :: ((as.listing Value.plain).toList ++ ')' :: rest)) := by
  rw [trace_function s h]
  simp only [String.toList_append, Symbol.toList_text, List.append_assoc]
  simp

theorem toList_trace_binary (c : Connective) (l r : Expr) (rest : List Char) :
    (trace (.binary c l r)).toList ++ rest
      = "Executed operation: ".toList ++ c.glyph ::
          (" on ".toList ++ (l.trace.toList ++ (" and ".toList ++ (r.trace.toList ++ rest)))) := by
  rw [trace_binary]
  simp only [String.toList_append, toList_text_connective, List.append_assoc,
    List.cons_append, List.nil_append]

theorem toList_trace_unary (c : Connective) (x : Expr) (rest : List Char) :
    (trace (.unary c x)).toList ++ rest
      = "Executed operation: ".toList ++ c.glyph ::
          (" on ".toList ++ (x.trace.toList ++ rest)) := by
  rw [trace_unary]
  simp only [String.toList_append, toList_text_connective, List.append_assoc,
    List.cons_append, List.nil_append]

/-- A call is told by its trace, and is not the beginning of another one. -/
theorem call_cancel {s t : Symbol} {as bs : Arguments} {rest more : List Char}
    (has : ∀ e ∈ as.entries, Arguments.PlainEntry e)
    (hbs : ∀ e ∈ bs.entries, Arguments.PlainEntry e) (hrest : Parts rest) (hmore : Parts more)
    (h : (trace (.call s as)).toList ++ rest = (trace (.call t bs)).toList ++ more) :
    Expr.call s as = .call t bs ∧ rest = more := by
  cases hempty : as.isEmpty with
  | true =>
    cases hempty' : bs.isEmpty with
    | true =>
      rw [toList_trace_symbol hempty, toList_trace_symbol hempty'] at h
      obtain ⟨rfl, hafter⟩ := symbol_cancel hrest hmore (List.append_cancel_left h)
      have hentries : as.entries = bs.entries :=
        (List.isEmpty_iff.1 hempty).trans (List.isEmpty_iff.1 hempty').symm
      rw [Arguments.ext hentries]
      exact ⟨rfl, hafter⟩
    | false =>
      rw [toList_trace_symbol hempty, toList_trace_function hempty'] at h
      simp at h
  | false =>
    cases hempty' : bs.isEmpty with
    | true =>
      rw [toList_trace_function hempty, toList_trace_symbol hempty'] at h
      simp at h
    | false =>
      rw [toList_trace_function hempty, toList_trace_function hempty'] at h
      obtain ⟨rfl, hbehind⟩ := symbol_cancel (parts_mark .openParen _) (parts_mark .openParen _)
        (List.append_cancel_left h)
      obtain ⟨rfl, hafter⟩ := Arguments.listing_plain_cancel has hbs (List.cons.inj hbehind).2
      exact ⟨rfl, hafter⟩

/-- The trace of a call does not begin like that of a connective. -/
theorem trace_call_ne {s : Symbol} {as : Arguments} {c : Connective} {rest more : List Char} :
    (trace (.call s as)).toList ++ rest ≠ "Executed operation: ".toList ++ c.glyph :: more := by
  intro h
  cases hempty : as.isEmpty with
  | true =>
    rw [toList_trace_symbol hempty] at h
    simp at h
  | false =>
    rw [toList_trace_function hempty] at h
    simp at h

/-- The sign of a connective is told by the trace over it. -/
theorem connective_cancel {c d : Connective} {rest more : List Char}
    (h : "Executed operation: ".toList ++ c.glyph :: (" on ".toList ++ rest)
      = "Executed operation: ".toList ++ d.glyph :: (" on ".toList ++ more)) :
    c = d ∧ rest = more := by
  obtain ⟨hglyph, hbehind⟩ := List.cons.inj (List.append_cancel_left h)
  exact ⟨Connective.glyph_injective hglyph, List.append_cancel_left hbehind⟩

/-- The expression can be read, and there is no quoted text in it. -/
def Plain (x : Expr) : Prop :=
  x.isUnquoted = true ∧ x.isPrintable = true

theorem Plain.call {s : Symbol} {as : Arguments} (h : (Expr.call s as).Plain) :
    ∀ e ∈ as.entries, Arguments.PlainEntry e :=
  Arguments.plainEntry_of_mem h.1 h.2

theorem Plain.binary {c : Connective} {l r : Expr} (h : (Expr.binary c l r).Plain) :
    c.isUnary = false ∧ l.Plain ∧ r.Plain := by
  obtain ⟨hunquoted, hprintable⟩ := h
  rw [isUnquoted, Bool.and_eq_true] at hunquoted
  rw [isPrintable, Bool.and_eq_true, Bool.and_eq_true, Bool.not_eq_true'] at hprintable
  exact ⟨hprintable.1.1, ⟨hunquoted.1, hprintable.1.2⟩, ⟨hunquoted.2, hprintable.2⟩⟩

theorem Plain.unary {c : Connective} {x : Expr} (h : (Expr.unary c x).Plain) :
    c.isUnary = true ∧ x.Plain := by
  obtain ⟨hunquoted, hprintable⟩ := h
  rw [isPrintable, Bool.and_eq_true] at hprintable
  exact ⟨hprintable.1, hunquoted, hprintable.2⟩

/-- What follows an operand in a trace parts from it. -/
theorem parts_and (rest : List Char) : Parts (" and ".toList ++ rest) :=
  parts_cons (by decide) (by decide) _

/-- An expression is told by its trace: the first words say of which form it is, and the
sign of a connective how many operands follow. -/
theorem tells_trace {x : Expr} (hx : x.Plain) : Tells trace Plain x := by
  induction x with
  | call s as =>
    intro y rest more hy hrest hmore h
    cases y with
    | call t bs => exact call_cancel hx.call hy.call hrest hmore h
    | binary d l r =>
      rw [toList_trace_binary] at h
      exact absurd h trace_call_ne
    | unary d y =>
      rw [toList_trace_unary] at h
      exact absurd h trace_call_ne
  | binary c l r ihl ihr =>
    intro y rest more hy hrest hmore h
    obtain ⟨hc, hl, hr⟩ := hx.binary
    rw [toList_trace_binary] at h
    cases y with
    | call t bs => exact absurd h.symm trace_call_ne
    | binary d l' r' =>
      obtain ⟨-, hl', hr'⟩ := hy.binary
      rw [toList_trace_binary] at h
      obtain ⟨rfl, hoperands⟩ := connective_cancel h
      -- the left operand ends before ` and `, the right one with the whole
      obtain ⟨rfl, hright⟩ := ihl hl l' _ _ hl' (parts_and _) (parts_and _) hoperands
      obtain ⟨rfl, hafter⟩ :=
        ihr hr r' rest more hr' hrest hmore (List.append_cancel_left hright)
      exact ⟨rfl, hafter⟩
    | unary d y =>
      rw [toList_trace_unary] at h
      obtain ⟨rfl, -⟩ := connective_cancel h
      rw [hy.unary.1] at hc
      cases hc
  | unary c x ih =>
    intro y rest more hy hrest hmore h
    obtain ⟨hc, hoperand⟩ := hx.unary
    rw [toList_trace_unary] at h
    cases y with
    | call t bs => exact absurd h.symm trace_call_ne
    | binary d l r =>
      rw [toList_trace_binary] at h
      obtain ⟨rfl, -⟩ := connective_cancel h
      rw [hy.binary.1] at hc
      cases hc
    | unary d y =>
      rw [toList_trace_unary] at h
      obtain ⟨rfl, hoperands⟩ := connective_cancel h
      obtain ⟨rfl, hafter⟩ := ih hoperand y rest more hy.unary.2 hrest hmore hoperands
      exact ⟨rfl, hafter⟩

/-- Expressions that have been read, and in which there is no quoted text, are told apart by
their traces: the same trace means the same symbols, connectives, groups, names and values,
and the arguments in the same order. -/
theorem eq_of_trace_eq {text other : String} {x y : Expr} (hx : parse text = .ok x)
    (hy : parse other = .ok y) (hunquoted : x.isUnquoted = true)
    (hunquoted' : y.isUnquoted = true) (h : x.trace = y.trace) : x = y := by
  have htells := tells_trace ⟨hunquoted, isPrintable_of_parse hx⟩
  have hchars : x.trace.toList ++ [] = y.trace.toList ++ [] := by rw [h]
  have hplain : y.Plain := ⟨hunquoted', isPrintable_of_parse hy⟩
  exact (htells y [] [] hplain parts_nil parts_nil hchars).1

/-- A chain that is grouped as it stands, and the same with parentheses. -/
theorem eq_of_trace_eq_chain : ∃ x y,
    parse "ΔΑ1∨¬ΔΑ2⊗ΔΑ3(K:[a,[]],L:b)∨ΔΑ4" = .ok x ∧
    parse "(ΔΑ1 ∨ (¬ΔΑ2 ⊗ ΔΑ3(K: [a, []], L: b))) ∨ ΔΑ4" = .ok y ∧
    x.isUnquoted = true ∧ y.isUnquoted = true ∧ x.trace = y.trace ∧ x = y := by
  have hunquoted : (parse "ΔΑ1∨¬ΔΑ2⊗ΔΑ3(K:[a,[]],L:b)∨ΔΑ4").toOption.map isUnquoted
      = some true := by decide +kernel
  have hunquoted' : (parse "(ΔΑ1 ∨ (¬ΔΑ2 ⊗ ΔΑ3(K: [a, []], L: b))) ∨ ΔΑ4").toOption.map isUnquoted
      = some true := by decide +kernel
  have htrace : (parse "ΔΑ1∨¬ΔΑ2⊗ΔΑ3(K:[a,[]],L:b)∨ΔΑ4").toOption.map trace
      = (parse "(ΔΑ1 ∨ (¬ΔΑ2 ⊗ ΔΑ3(K: [a, []], L: b))) ∨ ΔΑ4").toOption.map trace := by
    decide +kernel
  obtain ⟨x, hx, hux⟩ := exists_parse_of_toOption hunquoted
  obtain ⟨y, hy, huy⟩ := exists_parse_of_toOption hunquoted'
  rw [hx, hy] at htrace
  have hsame : x.trace = y.trace := Option.some.inj htrace
  exact ⟨x, y, hx, hy, hux, huy, hsame, eq_of_trace_eq hx hy hux huy hsame⟩

/-- A quoted text can look like two arguments. -/
example : (parse "ΔΑ1(K: 'a, L: b')").toOption.map trace
    = (parse "ΔΑ1(K: a, L: b)").toOption.map trace := by decide +kernel

end Expr

end Sigil
