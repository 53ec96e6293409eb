import Sigil.Expr.Execute
import Sigil.Proofs.Lacking
import Sigil.Proofs.Places
import Sigil.Proofs.Trimming
import Mathlib.Data.List.TakeWhile

/-! # Where reading fails

    A text that cannot be cut into tokens is refused at the end of its
    longest beginning that can (`Token.unreadable_is_exact`).  The greedy
    reading never stops before: what a lexeme takes it would also take of
    a shorter text, or the shorter text ends within it; and where nothing
    can be read of a text, nothing can be read of a beginning of it.

    What stands at the place decides the fault.  A quote is there only if
    it is the last of its kind in the text, and then the literal is not
    closed; any other character is named by itself.  No later pass has a
    fault of this kind, so the refusal of a text is lexical exactly when
    its tokens cannot be read. -/

namespace Sigil

open Lexeme

/-! ### Nothing to scan -/

namespace Lexeme

/-- What begins a text also begins every text that goes on with it. -/
theorem scan_append_isSome {cs rest : List Char} {l : Lexeme} (h : scan cs = some (l, rest))
    (more : List Char) : (scan (cs ++ more)).isSome = true := by
  obtain ⟨rfl, hvalid, -⟩ := scan_eq_some_iff.1 h
  obtain ⟨m, after, hm, hstops, happ, -, -⟩ := exists_stops hvalid (rest ++ more)
  rw [List.append_assoc, happ, scan_chars_append hm hstops]
  rfl

/-- A literal that cannot be read has no closing quote. -/
theorem not_mem_of_scanLiteral {q : Quote} {cs : List Char} (h : scanLiteral q cs = none) :
    q.char ∉ cs := by
  intro hmem
  unfold scanLiteral at h
  split at h
  · next hnil =>
    have hall := List.dropWhile_eq_nil_iff.1 hnil q.char hmem
    simp at hall
  · cases h

end Lexeme

namespace Token

/-! ### The place of the failure -/

/-- A text is readable behind a lexeme that stops, if it is readable with it. -/
theorem readable_of_chars_append {l : Lexeme} {cs : List Char} {start : Nat}
    (hvalid : l.Valid) (hstops : l.Stops cs)
    (h : ∃ tokens, readFrom start (l.chars ++ cs) = .ok tokens) :
    ∃ tokens, readFrom (start + Text.width l.chars) cs = .ok tokens := by
  obtain ⟨tokens, htokens⟩ := h
  rw [readFrom_chars_append hvalid hstops] at htokens
  cases hrest : readFrom (start + Text.width l.chars) cs with
  | ok later => exact ⟨later, rfl⟩
  | error r =>
    rw [hrest] at htokens
    cases htokens

/-- Nothing is readable of a text of which no lexeme can be scanned. -/
theorem eq_nil_of_readable {c : Char} {cs longer : List Char} {start : Nat}
    (hc : Text.isBlank c = false) (hscan : scan (c :: cs) = none) (hbegins : longer <+: c :: cs)
    (h : ∃ tokens, readFrom start longer = .ok tokens) : longer = [] := by
  cases longer with
  | nil => rfl
  | cons e longer =>
    -- a lexeme of the beginning would be one of the text
    exfalso
    obtain ⟨rfl, more, rfl⟩ := List.cons_prefix_cons.1 hbegins
    obtain ⟨tokens, htokens⟩ := h
    cases hscan' : scan (e :: longer) with
    | none =>
      rw [readFrom_stuck hc hscan'] at htokens
      cases htokens
    | some found =>
      have hsome := scan_append_isSome hscan' more
      rw [List.cons_append, hscan] at hsome
      cases hsome

/-- A reading that fails has read the longest beginning of its text that can be read, and
stands before a character with which no lexeme begins. -/
theorem exists_split_of_readFrom {start : Nat} {cs : List Char} {r : Refusal}
    (h : readFrom start cs = .error r) :
    ∃ before c after, cs = before ++ c :: after ∧ scan (c :: after) = none ∧
      r = unscannable (start + Text.width before) c after ∧
      (∃ tokens, readFrom start before = .ok tokens) ∧
      ∀ longer, longer <+: cs → (∃ tokens, readFrom start longer = .ok tokens) →
        longer <+: before := by
  -- the reading takes a blank or a lexeme off the text, or is stuck
  induction cs using text_induction generalizing start with
  | nil =>
    rw [readFrom] at h
    cases h
  | blank d cs hd ih =>
    rw [readFrom_blank hd] at h
    obtain ⟨before, c, after, rfl, hscan, rfl, hbefore, hlongest⟩ := ih h
    refine ⟨d :: before, c, after, rfl, hscan, ?_, ?_, ?_⟩
    · rw [Text.width_cons, Nat.add_assoc]
    · rw [readFrom_blank hd]
      exact hbefore
    · intro longer hbegins hreadable
      cases longer with
      | nil => exact List.nil_prefix
      | cons e longer =>
        obtain ⟨rfl, hbegins'⟩ := List.cons_prefix_cons.1 hbegins
        rw [readFrom_blank hd] at hreadable
        exact List.cons_prefix_cons.2 ⟨rfl, hlongest longer hbegins' hreadable⟩
  | lexeme l cs hvalid hstops ih =>
    rw [readFrom_chars_append hvalid hstops] at h
    cases hrest : readFrom (start + Text.width l.chars) cs with
    | ok later =>
      rw [hrest] at h
      cases h
    | error r' =>
      rw [hrest] at h
      obtain rfl := Except.error.inj h
      obtain ⟨before, c, after, rfl, hscan, rfl, ⟨tokens, htokens⟩, hlongest⟩ := ih hrest
      refine ⟨l.chars ++ before, c, after, (List.append_assoc ..).symm, hscan, ?_, ?_, ?_⟩
      · rw [Text.width_append, Nat.add_assoc]
      · rw [readFrom_chars_append hvalid hstops.of_append, htokens]
        exact ⟨_, rfl⟩
      · intro longer hbegins hreadable
        rcases List.prefix_or_prefix_of_prefix hbegins (List.prefix_append l.chars _)
          with hshort | ⟨behind, rfl⟩
        · -- the beginning ends within the lexeme
          exact hshort.trans (List.prefix_append _ _)
        · -- the beginning has the lexeme, too, and stops behind it where the text does
          have hbehind := (List.prefix_append_right_inj l.chars).1 hbegins
          obtain ⟨more, hmore⟩ := hbehind
          rw [← hmore] at hstops
          have hreadable' := readable_of_chars_append hvalid hstops.of_append hreadable
          exact (List.prefix_append_right_inj l.chars).2 (hlongest behind ⟨more, hmore⟩ hreadable')
  | stuck c cs hc hscan =>
    rw [readFrom_stuck hc hscan] at h
    obtain rfl := Except.error.inj h
    refine ⟨[], c, cs, rfl, hscan, rfl, ?_, ?_⟩
    · rw [readFrom]
      exact ⟨[], rfl⟩
    · intro longer hbegins hreadable
      obtain rfl := eq_nil_of_readable hc hscan hbegins hreadable
      exact List.nil_prefix

end Token

/-! ### What is said of the place -/

/-- The refusal points at the first place of the text that cannot be read: at `c`, with
`before` in front of it and `after` behind it. -/
structure Refusal.PointsAt (r : Refusal) (text : String) (before : List Char) (c : Char)
    (after : List Char) : Prop where
  split : text.toList = before ++ c :: after
  start : r.span.start = Text.width before
  readable : ∃ tokens, Token.readAll (String.ofList before) = .ok tokens
  /-- No longer beginning of the text can be read. -/
  longest : ∀ longer, longer <+: text.toList →
    (∃ tokens, Token.readAll (String.ofList longer) = .ok tokens) →
    Text.width longer ≤ Text.width before
  unterminated : r.fault.message = "unterminated string literal" ↔ c = '\'' ∨ c = '"'
  /-- A quote is not closed, and all that is behind it belongs to the literal. -/
  quote : c = '\'' ∨ c = '"' → c ∉ after ∧ r.span.stop = Text.width text.toList ∧
    r.fault.advice = some ("close the literal with " ++ String.singleton c
      ++ "; string literals have no escapes")
  /-- Another character is named, and the span holds its bytes. -/
  other : ¬ (c = '\'' ∨ c = '"') →
    r.fault.message = "unrecognized character '" ++ String.singleton c ++ "'" ∧
    r.span.stop = r.span.start + c.utf8Size ∧
    text.toByteArray.extract r.span.start r.span.stop = (String.singleton c).toByteArray

/-- Where a refusal points is told by its span. -/
theorem Refusal.PointsAt.of_split {r : Refusal} {text : String}
    {before before' after after' : List Char} {c c' : Char} (h : r.PointsAt text before c after)
    (hsplit : text.toList = before' ++ c' :: after') (hstart : r.span.start = Text.width before') :
    r.PointsAt text before' c' after' := by
  obtain ⟨rfl, hrest⟩ := Text.append_inj_of_width (h.split.symm.trans hsplit)
    (h.start.symm.trans hstart)
  obtain ⟨rfl, rfl⟩ := List.cons.inj hrest
  exact h

theorem Quote.isSome_ofChar?_iff (c : Char) :
    (∃ q, Quote.ofChar? c = some q) ↔ c = '\'' ∨ c = '"' := by
  constructor
  · rintro ⟨q, hq⟩
    rw [← char_of_ofChar? hq]
    cases q with
    | single => exact .inl rfl
    | double => exact .inr rfl
  · rintro (rfl | rfl)
    · exact ⟨.single, rfl⟩
    · exact ⟨.double, rfl⟩

/-- The message about a character is not the one about a literal: they differ in the third
letter. -/
theorem Fault.message_unreadable_ne (c : Char) :
    (Fault.unreadable c).message ≠ "unterminated string literal" := by
  intro h
  change "unrecognized character '" ++ String.singleton c ++ "'"
    = "unterminated string literal" at h
  have hthird := congrArg (fun s : String => s.toList[2]?) h
  simp at hthird

namespace Token

/-- The whole text is cut from its start. -/
theorem exists_split_of_readAll {text : String} {r : Refusal} (h : readAll text = .error r) :
    ∃ before c after, text.toList = before ++ c :: after ∧ scan (c :: after) = none ∧
      r = unscannable (Text.width before) c after ∧
      (∃ tokens, readAll (String.ofList before) = .ok tokens) ∧
      ∀ longer, longer <+: text.toList →
        (∃ tokens, readAll (String.ofList longer) = .ok tokens) →
        Text.width longer ≤ Text.width before := by
  unfold readAll at h
  obtain ⟨before, c, after, htext, hscan, hr, hbefore, hlongest⟩ := exists_split_of_readFrom h
  rw [Nat.zero_add] at hr
  refine ⟨before, c, after, htext, hscan, hr, ?_, ?_⟩
  · unfold readAll
    rw [String.toList_ofList]
    exact hbefore
  · intro longer hbegins hlonger
    unfold readAll at hlonger
    rw [String.toList_ofList] at hlonger
    obtain ⟨more, rfl⟩ := hlongest longer hbegins hlonger
    rw [Text.width_append]
    exact Nat.le_add_right _ _

/-- The refusal of a text that cannot be read points at its place. -/
theorem pointsAt_of_readAll {text : String} {r : Refusal} (h : readAll text = .error r) :
    ∃ before c after, r.PointsAt text before c after := by
  obtain ⟨before, c, after, htext, hscan, hr, hreadable, hlongest⟩ := exists_split_of_readAll h
  have hwidth : Text.width text.toList = Text.width before + Text.width (c :: after) := by
    rw [htext, Text.width_append]
  refine ⟨before, c, after, ?_⟩
  cases hquote : Quote.ofChar? c with
  | some q =>
    -- the literal opens here, and is not closed
    have hq := (Quote.isSome_ofChar?_iff c).1 ⟨q, hquote⟩
    have hc := Quote.char_of_ofChar? hquote
    have hr' : r = ⟨.unterminated q, ⟨Text.width before,
        Text.width before + Text.width (c :: after)⟩⟩ := by
      rw [hr]
      simp only [unscannable, hquote]
    subst hr'
    refine ⟨htext, rfl, hreadable, hlongest, iff_of_true rfl hq, ?_, ?_⟩
    · intro _
      rw [← hc, scan_quote] at hscan
      refine ⟨?_, hwidth.symm, ?_⟩
      · rw [← hc]
        exact not_mem_of_scanLiteral hscan
      · rw [← hc]
        rfl
    · intro hnot
      exact absurd hq hnot
  | none =>
    have hnot : ¬ (c = '\'' ∨ c = '"') := by
      intro hq
      obtain ⟨q, hq⟩ := (Quote.isSome_ofChar?_iff c).2 hq
      rw [hquote] at hq
      cases hq
    have hr' : r = ⟨.unreadable c, ⟨Text.width before, Text.width before + c.utf8Size⟩⟩ := by
      rw [hr]
      simp only [unscannable, hquote]
    subst hr'
    refine ⟨htext, rfl, hreadable, hlongest,
      iff_of_false (Fault.message_unreadable_ne c) hnot, ?_, ?_⟩
    · intro hq
      exact absurd hq hnot
    · intro _
      refine ⟨rfl, rfl, ?_⟩
      have hbytes : text.toByteArray.extract (Text.width before)
          (Text.width before + Text.width [c]) = (String.ofList [c]).toByteArray :=
        Text.extract_width htext
      rw [Text.width_cons, Text.width_nil, Nat.add_zero] at hbytes
      exact hbytes

end Token

/-! ### Later passes -/

/-- Where reading tokens stops, the text has been cut into them. -/
theorem Reading.Halt.stage_refusal_ne (h : Reading.Halt) (length : Nat) :
    (h.refusal length).fault.stage ≠ .lexical := by
  rcases h.fault_refusal length with ⟨c, hfault⟩ | ⟨c, hfault⟩ | ⟨expected, found, hfault⟩
  · rw [hfault]
    exact nofun
  · rw [hfault]
    exact nofun
  · rw [hfault]
    exact nofun

namespace Expr

theorem stage_ofTokens_ne {length : Nat} {tokens : List Token} {r : Refusal}
    (h : ofTokens length tokens = .error r) : r.fault.stage ≠ .lexical := by
  unfold ofTokens at h
  cases hexcess : Tally.zero.firstExcess tokens with
  | some blamed =>
    simp only [hexcess, Except.error.injEq] at h
    rw [← h, Tally.stage_of_firstExcess hexcess]
    exact nofun
  | none =>
    cases hresult : (Reading.start.run tokens).result? with
    | some x => simp [hexcess, hresult] at h
    | none =>
      simp only [hexcess, hresult, Except.error.injEq] at h
      rw [← h]
      exact Reading.Halt.stage_refusal_ne _ length

/-- A text is refused as an expression for what it is refused for as a row of tokens, and
no other refusal is lexical. -/
theorem parse_eq_lexical_iff {text : String} {r : Refusal} :
    (parse text = .error r ∧ r.fault.stage = .lexical) ↔ Token.readAll text = .error r := by
  rw [parse_eq]
  cases htokens : Token.readAll text with
  | error r' =>
    constructor
    · intro h
      rw [Except.error.inj h.1]
    · intro h
      obtain rfl := Except.error.inj h
      exact ⟨rfl, Token.stage_of_readFrom htokens⟩
  | ok tokens =>
    refine iff_of_false ?_ nofun
    rintro ⟨h, hstage⟩
    exact stage_ofTokens_ne h hstage

/-- What is made of an expression afterwards has no part in the refusal. -/
theorem map_parse_eq_error_iff {α : Type} {text : String} {f : Expr → α} {r : Refusal} :
    (parse text).map f = .error r ↔ parse text = .error r := by
  cases parse text with
  | error r' =>
    show (Except.error r' : Except Refusal α) = .error r ↔ _
    rw [Except.error.injEq, Except.error.injEq]
  | ok x => exact iff_of_false nofun nofun

end Expr

/-- A text that cannot be cut into tokens is refused at the end of its longest beginning
that can, for the character that stands there.  Parsing, executing and processing refuse
these texts in the same way, and no other text for a lexical fault. -/
theorem Token.unreadable_is_exact (text : String) :
    (∀ r, readAll text = .error r → ∃ before c after, r.PointsAt text before c after) ∧
    ∀ r, ((Expr.parse text = .error r ∧ r.fault.stage = .lexical) ↔ readAll text = .error r) ∧
      ((Expr.execute text = .error r ∧ r.fault.stage = .lexical) ↔ readAll text = .error r) ∧
      ((Expr.process text = .error r ∧ r.fault.stage = .lexical) ↔ readAll text = .error r) := by
  constructor
  · intro r h
    exact pointsAt_of_readAll h
  · intro r
    unfold Expr.execute Expr.process
    rw [Expr.map_parse_eq_error_iff, Expr.map_parse_eq_error_iff]
    exact ⟨Expr.parse_eq_lexical_iff, Expr.parse_eq_lexical_iff, Expr.parse_eq_lexical_iff⟩

/-- A literal that is not closed, whatever is inside it, and a character that begins nothing. -/
theorem Token.unreadable_is_exact_places :
    (∃ r : Refusal, readAll "ΔΑ1 'a' \"'" = .error r ∧ r.span = ⟨10, 12⟩ ∧
      r.PointsAt "ΔΑ1 'a' \"'" "ΔΑ1 'a' ".toList '"' ['\''] ∧
      Expr.parse "ΔΑ1 'a' \"'" = .error r ∧ Expr.execute "ΔΑ1 'a' \"'" = .error r ∧
      Expr.process "ΔΑ1 'a' \"'" = .error r) ∧
    ∃ r : Refusal, readAll "ΔΑ1 ∧β(" = .error r ∧ r.span = ⟨9, 11⟩ ∧
      r.PointsAt "ΔΑ1 ∧β(" "ΔΑ1 ∧".toList 'β' ['('] ∧
      Expr.parse "ΔΑ1 ∧β(" = .error r ∧ Expr.execute "ΔΑ1 ∧β(" = .error r ∧
      Expr.process "ΔΑ1 ∧β(" = .error r := by
  constructor
  · have hread : readAll "ΔΑ1 'a' \"'" = .error ⟨.unterminated .double, ⟨10, 12⟩⟩ := by
      decide +kernel
    obtain ⟨hpoints, hsame⟩ := unreadable_is_exact "ΔΑ1 'a' \"'"
    obtain ⟨before, c, after, h⟩ := hpoints _ hread
    obtain ⟨hparse, hexecute, hprocess⟩ := hsame ⟨.unterminated .double, ⟨10, 12⟩⟩
    exact ⟨_, hread, rfl, h.of_split (by decide +kernel) (by decide +kernel), (hparse.2 hread).1,
      (hexecute.2 hread).1, (hprocess.2 hread).1⟩
  · have hread : readAll "ΔΑ1 ∧β(" = .error ⟨.unreadable 'β', ⟨9, 11⟩⟩ := by decide +kernel
    obtain ⟨hpoints, hsame⟩ := unreadable_is_exact "ΔΑ1 ∧β("
    obtain ⟨before, c, after, h⟩ := hpoints _ hread
    obtain ⟨hparse, hexecute, hprocess⟩ := hsame ⟨.unreadable 'β', ⟨9, 11⟩⟩
    exact ⟨_, hread, rfl, h.of_split (by decide +kernel) (by decide +kernel), (hparse.2 hread).1,
      (hexecute.2 hread).1, (hprocess.2 hread).1⟩

end Sigil
