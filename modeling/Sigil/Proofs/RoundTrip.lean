import Sigil.Proofs.Image
import Sigil.Proofs.Language
import Sigil.Proofs.Nesting
import Sigil.Proofs.Printing

/-! # There and back

    Which expressions come back from their canonical form.  Whatever is
    read is printable (`Expr.isPrintable_of_parse`), so an expression that
    comes back is; and what is printable comes back as it was, if the
    canonical form stays within the limits (`Expr.parse_canonical_iff`).

    The canonical form of an expression that has been read need not do so,
    because it has brackets where the text had none.  Such an expression
    comes back unless its form nests too deep
    (`Expr.comes_back_iff_of_parse`). -/

namespace Sigil

open Grammar

namespace Expr

open Lexeme

/-! ### Reading the canonical form -/

theorem isPrintable_of_parse {text : String} {x : Expr} (h : parse text = .ok x) :
    x.isPrintable = true := by
  obtain ⟨tokens, htok, -, hx⟩ := parse_eq_ok_iff.1 h
  have hspells := Token.lexemes_readAll_iff.1 ⟨tokens, htok, rfl⟩
  exact isPrintable_of_layer hx hspells.valid

/-- A text that spells a sentence is read as that sentence, if it is within the
limits. -/
theorem parse_iff_of_spells {text : String} {ls : List Lexeme} {x y : Expr} {n : Nat}
    (hspells : Spells ls text.toList) (hx : Sentence ls x) (hn : Nests n ls) :
    parse text = .ok y ↔ y = x ∧ x.connectives.length ≤ 256 ∧ n ≤ 256 := by
  obtain ⟨tokens, htok, rfl⟩ := Token.lexemes_readAll_iff.2 hspells
  have hlimits : Tally.zero.firstExcess tokens = none
      ↔ x.connectives.length ≤ 256 ∧ n ≤ 256 := by
    rw [firstExcess_eq_none_iff_of_sentence hx, hn.within, hx.countP_isConnective]
    exact and_comm
  rw [parse_eq_ok_iff]
  constructor
  · rintro ⟨tokens', htok', hlimit, hy⟩
    -- there is only one way to cut the text
    obtain rfl : tokens = tokens' := by
      rw [htok] at htok'
      exact Except.ok.inj htok'
    exact ⟨sentence_unique hy hx, hlimits.1 hlimit⟩
  · rintro ⟨rfl, hbounds⟩
    exact ⟨tokens, htok, hlimits.2 hbounds, hx⟩

/-- Beyond the limit of nesting alone, this limit is the fault that is reported. -/
theorem parse_tooDeep_of_spells {text : String} {ls : List Lexeme} {x : Expr} {n : Nat}
    (hspells : Spells ls text.toList) (hx : Sentence ls x) (hn : Nests n ls)
    (hconnectives : x.connectives.length ≤ 256) (hdeep : 256 < n) :
    ∃ span, parse text = .error ⟨.tooDeep, span⟩ := by
  obtain ⟨tokens, htok, rfl⟩ := Token.lexemes_readAll_iff.2 hspells
  cases hexcess : Tally.zero.firstExcess tokens with
  | none =>
    have hlimits := (firstExcess_eq_none_iff_of_sentence hx).1 hexcess
    rw [hn.within] at hlimits
    exact absurd hlimits.1 (Nat.not_le.2 hdeep)
  | some r =>
    have hfault : r.fault = .tooDeep := by
      refine Tally.fault_of_firstExcess hexcess ?_
      rw [hx.countP_isConnective]
      exact Nat.le_trans (Nat.le_of_eq (Nat.zero_add _)) hconnectives
    refine ⟨r.span, ?_⟩
    rw [parse_eq, htok]
    show ofTokens _ tokens = _
    rw [ofTokens, hexcess, ← hfault]

/-- A printable expression comes back from its canonical form, as it was, when the
form stays within the limits; no other expression comes back in its place. -/
theorem parse_canonical_iff {x y : Expr} (h : x.isPrintable = true) :
    parse x.canonical = .ok y ↔ y = x ∧ x.connectives.length ≤ 256 ∧ x.nesting ≤ 256 :=
  parse_iff_of_spells (prints h).spells (sentence_lexemes h) x.nests_lexemes

/-- An expression comes back from its canonical form, up to the order of arguments,
exactly when it is printable, has at most 256 connectives, and its canonical form
nests at most 256 deep; it then comes back with its arguments in order. -/
theorem comes_back_iff (x : Expr) :
    ((∃ y, parse x.canonical = .ok y ∧ y.same x = true) ↔
      x.isPrintable = true ∧ x.connectives.length ≤ 256 ∧ x.nesting ≤ 256) ∧
    (x.isPrintable = true ∧ x.connectives.length ≤ 256 ∧ x.nesting ≤ 256 →
      parse x.canonical = .ok x) := by
  have hback : x.isPrintable = true ∧ x.connectives.length ≤ 256 ∧ x.nesting ≤ 256 →
      parse x.canonical = .ok x := by
    rintro ⟨hx, hbounds⟩
    exact (parse_canonical_iff hx).2 ⟨rfl, hbounds⟩
  refine ⟨⟨?_, fun h => ⟨x, hback h, x.same_self⟩⟩, hback⟩
  rintro ⟨y, hy, hsame⟩
  -- `y` has been read and is printable, and `x` differs from it in order only
  have hx := isPrintable_of_same hsame (isPrintable_of_parse hy)
  exact ⟨hx, ((parse_canonical_iff hx).1 hy).2⟩

/-! ### Brackets that the text did not have -/

/-- An expression that has been read has at most 256 connectives. -/
theorem length_connectives_of_parse {text : String} {x : Expr} (h : parse text = .ok x) :
    x.connectives.length ≤ 256 := by
  obtain ⟨tokens, -, hlimit, hx⟩ := parse_eq_ok_iff.1 h
  have hcount := ((firstExcess_eq_none_iff_of_sentence hx).1 hlimit).2
  rwa [hx.countP_isConnective] at hcount

/-- The outermost parentheses of a canonical form may be left out; the text then nests
one less deep. -/
theorem parse_bare_iff {c : Connective} {l r y : Expr}
    (h : (binary c l r).isPrintable = true) :
    parse (l.canonical ++ " " ++ c.text ++ " " ++ r.canonical) = .ok y ↔
      y = binary c l r ∧ (binary c l r).connectives.length ≤ 256 ∧
        max l.nesting r.nesting ≤ 256 := by
  obtain ⟨⟨hc, hl⟩, hr⟩ : (c.isUnary = false ∧ l.isPrintable = true) ∧ r.isPrintable = true := by
    simpa [isPrintable] using h
  have hspells : Spells (l.lexemes ++ .connective c :: r.lexemes)
      (l.canonical ++ " " ++ c.text ++ " " ++ r.canonical).toList := by
    have hboth := ((prints hl).binary (prints hr) c).spells
    simpa [toList_text_connective] using hboth
  have hsentence := sentence_binary hc (layer_lexemes hl).1 (layer_lexemes hr).1
  have hright : Nests r.nesting (.connective c :: r.lexemes) := r.nests_lexemes.cons rfl rfl
  have hnests := l.nests_lexemes.append hright
  exact parse_iff_of_spells hspells hsentence hnests

end Expr

namespace Value

/-- A list in `n` further lists. -/
def boxed : Nat → Value
  | 0 => .list []
  | n + 1 => .list [boxed n]

theorem nesting_boxed (n : Nat) : (boxed n).nesting = n + 1 := by
  induction n with
  | zero => rfl
  | succ n ih =>
    rw [boxed, nesting, itemNesting, itemNesting, ih]
    rfl

theorem isPrintable_boxed (n : Nat) : (boxed n).isPrintable = true := by
  induction n with
  | zero => rfl
  | succ n ih =>
    rw [boxed, isPrintable, arePrintable, arePrintable, ih]
    rfl

end Value

namespace Expr

/-- The canonical form of `ΔΑ1(K: v) ∧ ΔΑ1` without its outermost parentheses. -/
theorem bare_call {s : Symbol} (hs : s.text = "ΔΑ1") (v : Value)
    (hnodup : ([("K", v)].map Prod.fst).Nodup) :
    (call s ⟨[("K", v)], hnodup⟩).canonical ++ " " ++ Connective.and.text ++ " "
        ++ (call s .empty).canonical
      = "ΔΑ1(K: " ++ v.written ++ ") ∧ ΔΑ1" := by
  have hcall : (call s ⟨[("K", v)], hnodup⟩).canonical
      = "ΔΑ1" ++ "(" ++ ("K" ++ ": " ++ v.written) ++ ")" := by
    rw [canonical, hs]
    rfl
  have hplain : (call s .empty).canonical = "ΔΑ1" := by
    rw [canonical, hs]
    rfl
  have hsymbol : "ΔΑ1".toList = ['Δ', 'Α', '1'] := String.toList_ofList
  have hopening : "ΔΑ1(K: ".toList = ['Δ', 'Α', '1', '(', 'K', ':', ' '] :=
    String.toList_ofList
  have hclosing : ") ∧ ΔΑ1".toList = [')', ' ', '∧', ' ', 'Δ', 'Α', '1'] :=
    String.toList_ofList
  rw [hcall, hplain]
  apply String.toList_injective
  simp only [String.toList_append, hsymbol, hopening, hclosing, toList_text_connective,
    Connective.glyph]
  simp

/-- An expression that has been read comes back from its canonical form exactly when
that nests at most 256 deep; else the form is refused for its nesting. -/
theorem comes_back_iff_of_parse {text : String} {x : Expr} (h : parse text = .ok x) :
    (parse x.canonical = .ok x ↔ x.nesting ≤ 256) ∧
    (256 < x.nesting → ∃ span, parse x.canonical = .error ⟨.tooDeep, span⟩) := by
  have hx := isPrintable_of_parse h
  have hconnectives := length_connectives_of_parse h
  constructor
  · constructor
    · intro hback
      exact ((parse_canonical_iff hx).1 hback).2.2
    · intro hnesting
      exact (parse_canonical_iff hx).2 ⟨rfl, hconnectives, hnesting⟩
  · intro hdeep
    exact parse_tooDeep_of_spells (prints hx).spells (sentence_lexemes hx) x.nests_lexemes
      hconnectives hdeep

/-- An expression whose canonical form nests three deep, where the text nests two
deep. -/
theorem comes_back_mixed :
    ∃ x, parse "ΔΑ1∧¬ΔΑ2∨ΔΑ3(K:[b])" = .ok x ∧ x.nesting = 3 ∧ parse x.canonical = .ok x := by
  have hnesting : (parse "ΔΑ1∧¬ΔΑ2∨ΔΑ3(K:[b])").toOption.map nesting = some 3 := by
    decide +kernel
  obtain ⟨x, hparse, hthree⟩ := exists_parse_of_toOption hnesting
  exact ⟨x, hparse, hthree, (comes_back_iff_of_parse hparse).1.2 (by omega)⟩

/-- Under 255 brackets in the arguments of a symbol there is room for one more pair, but
the canonical form needs two. -/
theorem not_comes_back :
    ∃ x, parse ("ΔΑ1(K: " ++ (Value.boxed 254).written ++ ") ∧ ΔΑ1") = .ok x ∧
      ∀ y, parse x.canonical ≠ .ok y := by
  have hvalue := Value.isPrintable_boxed 254
  have hboxes := Value.nesting_boxed 254
  -- nothing below depends on which value it is
  generalize Value.boxed 254 = v at hvalue hboxes ⊢
  let s : Symbol := ⟨'Δ', ['Α'], ['1'], none, by decide, by decide, by decide, by decide,
    by decide, by decide⟩
  let l : Expr := .call s ⟨[("K", v)], by simp⟩
  let r : Expr := .call s .empty
  have hprintable : (binary .and l r).isPrintable = true := by
    have hname : Lexeme.isName "K".toList = true := by decide
    simp only [isPrintable, Arguments.isPrintable, l, List.all_cons, List.all_nil, hname, hvalue]
    rfl
  have hnesting : l.nesting = 256 := by
    simp [l, nesting, Arguments.isEmpty, Arguments.nesting, Value.itemNesting, hboxes]
  have htext := bare_call (s := s) rfl v (by simp)
  refine ⟨binary .and l r, ?_, fun y hy => ?_⟩
  · rw [← htext]
    have hone : (binary .and l r).connectives.length = 1 := rfl
    refine (parse_bare_iff hprintable).2 ⟨rfl, by omega, ?_⟩
    rw [hnesting]
    exact Nat.max_le.2 ⟨Nat.le_refl 256, Nat.zero_le 256⟩
  · have hle := ((parse_canonical_iff hprintable).1 hy).2.2
    rw [nesting, hnesting] at hle
    omega

end Expr

end Sigil
