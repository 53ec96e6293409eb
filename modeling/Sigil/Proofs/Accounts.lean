import Sigil.Proofs.Image
import Sigil.Proofs.Language
import Sigil.Proofs.Nesting
import Sigil.Proofs.Symbols

/-! # The size of what is read

    Reading an expression neither drops a symbol or a connective nor moves
    one, whatever the groups and the ranks make of the row: from left to
    right the expression has the symbols and the connectives of its
    lexemes.  With the limits on the tokens this bounds the expression in
    its height and its values in their depth (`Expr.accounts_of_parse`). -/

namespace Sigil

open Grammar

namespace Expr

/-! ### Parts of expressions -/

/-- The number of connectives that join two expressions. -/
def binaries : Expr → Nat
  | .call .. => 0
  | .binary _ l r => l.binaries + r.binaries + 1
  | .unary _ x => x.binaries

/-- The values of the arguments from left to right. -/
def values : Expr → List Value
  | .call _ as => as.entries.map Prod.snd
  | .binary _ l r => l.values ++ r.values
  | .unary _ x => x.values

/-- A connective joins two expressions, and every expression ends in symbols. -/
theorem length_symbols (x : Expr) : x.symbols.length = x.binaries + 1 := by
  induction x with
  | call => rfl
  | binary c l r ihl ihr =>
    rw [symbols, binaries, List.length_append, ihl, ihr]
    omega
  | unary c x ih => exact ih

end Expr

namespace Lexeme

/-- The symbol that a lexeme is. -/
def symbol? : Lexeme → Option Symbol
  | .symbol s => some s
  | _ => none

/-- The tokens of the class of symbols are those that are a symbol. -/
theorem map_text_symbols (tokens : List Token) :
    (tokens.filter fun t => t.lexeme.kind == "SYMBOL").map (·.lexeme.text)
      = ((tokens.map (·.lexeme)).filterMap symbol?).map Symbol.text := by
  induction tokens with
  | nil => rfl
  | cons t tokens ih =>
    rw [List.filter_cons, List.map_cons, List.filterMap_cons]
    cases hl : t.lexeme.symbol? with
    | some s =>
      have hsymbol : t.lexeme = .symbol s := by
        revert hl
        cases t.lexeme <;> simp [symbol?]
      rw [if_pos (by rw [hsymbol]; rfl), List.map_cons, List.map_cons, ih, hsymbol]
      rfl
    | none =>
      have hkind : ¬ (t.lexeme.kind == "SYMBOL") = true := by
        rw [beq_iff_eq]
        intro hkind
        obtain ⟨s, hs⟩ := eq_symbol_of_kind hkind
        rw [hs] at hl
        cases hl
      rw [if_neg hkind, ih]

/-- A pair of brackets adds nothing that no mark is. -/
theorem filterMap_enclosed {α : Type} {f : Lexeme → Option α} (hmark : ∀ m, f (.mark m) = none)
    (o c : Mark) (ls : List Lexeme) : (enclosed o c ls).filterMap f = ls.filterMap f := by
  rw [enclosed, List.filterMap_cons_none (hmark o), List.filterMap_append,
    List.filterMap_cons_none (hmark c), List.filterMap_nil, List.append_nil]

/-! ### Rows without symbols and connectives -/

/-- There are no symbols and no connectives in the row, and its brackets go `n` deep. -/
structure Silent (n : Nat) (ls : List Lexeme) : Prop where
  symbols : ls.filterMap symbol? = []
  connectives : ls.filterMap connective? = []
  nests : Nests n ls

theorem Silent.append {n m : Nat} {ls ms : List Lexeme} (hl : Silent n ls) (hm : Silent m ms) :
    Silent (max n m) (ls ++ ms) where
  symbols := by rw [List.filterMap_append, hl.symbols, hm.symbols]; rfl
  connectives := by rw [List.filterMap_append, hl.connectives, hm.connectives]; rfl
  nests := hl.nests.append hm.nests

theorem silent_literal (q : Quote) (content : String) : Silent 0 [.literal q content] :=
  ⟨rfl, rfl, nests_singleton rfl rfl⟩

theorem silent_identifier (name : String) : Silent 0 [.identifier name] :=
  ⟨rfl, rfl, nests_singleton rfl rfl⟩

/-- A comma or a colon changes nothing. -/
theorem Silent.mark {n : Nat} {m : Mark} {ls : List Lexeme} (h : Silent n ls)
    (ho : (Lexeme.mark m).opens = false) (hc : (Lexeme.mark m).closes = false) :
    Silent n (.mark m :: ls) where
  symbols := h.symbols
  connectives := h.connectives
  nests := h.nests.cons ho hc

theorem Silent.enclosed {n : Nat} {o c : Mark} {ls : List Lexeme} (h : Silent n ls)
    (ho : (Lexeme.mark o).opens = true) (hc : (Lexeme.mark c).closes = true) :
    Silent (n + 1) (Lexeme.enclosed o c ls) where
  symbols := (filterMap_enclosed (fun _ => rfl) o c ls).trans h.symbols
  connectives := (filterMap_enclosed (fun _ => rfl) o c ls).trans h.connectives
  nests := h.nests.enclosed ho hc

end Lexeme

namespace Grammar

open Lexeme

/-! ### Values and arguments -/

mutual

/-- A value is as deep as its brackets. -/
theorem IsValue.silent {ls : List Lexeme} {v : Value} (h : IsValue ls v) :
    Silent v.nesting ls := by
  cases h with
  | text q content => exact silent_literal q content
  | name identifier => exact silent_identifier identifier
  | nil => exact Silent.enclosed ⟨rfl, rfl, nests_nil⟩ rfl rfl
  | list items => exact items.silent.enclosed rfl rfl

theorem AreItems.silent {ls : List Lexeme} {vs : List Value} (h : AreItems ls vs) :
    Silent (Value.itemNesting vs) ls := by
  cases h with
  | one value =>
    rw [Value.itemNesting, Value.itemNesting, Nat.max_zero]
    exact value.silent
  | cons value rest =>
    rw [Value.itemNesting]
    exact value.silent.append (rest.silent.mark rfl rfl)

end

theorem IsArgument.silent {ls : List Lexeme} {entry : String × Value}
    (h : IsArgument ls entry) : Silent entry.2.nesting ls := by
  cases h with
  | mk key value =>
    have hrest := (silent_identifier key).append (value.silent.mark (m := .colon) rfl rfl)
    rwa [Nat.zero_max] at hrest

theorem AreArguments.silent {ls : List Lexeme} {entries : List (String × Value)}
    (h : AreArguments ls entries) : Silent (Value.itemNesting (entries.map Prod.snd)) ls := by
  induction h with
  | one argument =>
    rw [List.map_singleton, Value.itemNesting, Value.itemNesting, Nat.max_zero]
    exact argument.silent
  | cons argument rest ih =>
    rw [List.map_cons, Value.itemNesting]
    exact argument.silent.append (ih.mark rfl rfl)

/-- No value is deeper than the deepest of several. -/
theorem nesting_le_itemNesting {v : Value} {vs : List Value} (h : v ∈ vs) :
    v.nesting ≤ Value.itemNesting vs := by
  induction vs with
  | nil => cases h
  | cons w vs ih =>
    rw [Value.itemNesting]
    rcases List.mem_cons.1 h with rfl | h
    · exact Nat.le_max_left _ _
    · exact Nat.le_trans (ih h) (Nat.le_max_right _ _)

/-! ### Expressions -/

/-- The expression has the symbols and the connectives of the row in their order, and a
value in it has at least one more bracket around it than it has inside. -/
structure Accounts (ls : List Lexeme) (x : Expr) : Prop where
  symbols : ls.filterMap symbol? = x.symbols
  connectives : ls.filterMap connective? = x.connectives
  values : ∃ n, Nests n ls ∧ ∀ v ∈ x.values, v.nesting + 1 ≤ n

theorem accounts_symbol (s : Symbol) : Accounts [.symbol s] (.call s .empty) :=
  ⟨rfl, rfl, 0, nests_singleton rfl rfl, fun _ hv => nomatch hv⟩

theorem accounts_call (s : Symbol) {ls : List Lexeme} {entries : List (String × Value)}
    (arguments : AreArguments ls entries) :
    Accounts (.symbol s :: .mark .openParen :: (ls ++ [.mark .closeParen]))
      (.call s (.ofList entries)) := by
  have hargs := arguments.silent.enclosed (o := .openParen) (c := .closeParen) rfl rfl
  refine ⟨?_, hargs.connectives, _, hargs.nests.cons rfl rfl, fun v hv => ?_⟩
  · exact congrArg (s :: ·) hargs.symbols
  · -- the values that were collected are among those that were written
    obtain ⟨e, he, rfl⟩ := List.mem_map.1 hv
    have hle := nesting_le_itemNesting (List.mem_map_of_mem (f := Prod.snd)
      (Arguments.mem_of_mem_ofList he))
    omega

theorem Accounts.group {ls : List Lexeme} {x : Expr} (h : Accounts ls x) :
    Accounts (Lexeme.enclosed .openParen .closeParen ls) x := by
  obtain ⟨n, hn, hvalues⟩ := h.values
  exact ⟨(filterMap_enclosed (fun _ => rfl) _ _ ls).trans h.symbols,
    (filterMap_enclosed (fun _ => rfl) _ _ ls).trans h.connectives,
    n + 1, hn.enclosed rfl rfl, fun v hv => Nat.le_succ_of_le (hvalues v hv)⟩

theorem Accounts.unary {ls : List Lexeme} {x : Expr} (h : Accounts ls x) (c : Connective) :
    Accounts (.connective c :: ls) (.unary c x) := by
  obtain ⟨n, hn, hvalues⟩ := h.values
  exact ⟨h.symbols, congrArg (c :: ·) h.connectives, n, hn.cons rfl rfl, hvalues⟩

theorem Accounts.binary {ls ms : List Lexeme} {x y : Expr} (hl : Accounts ls x)
    (hm : Accounts ms y) (c : Connective) :
    Accounts (ls ++ .connective c :: ms) (.binary c x y) := by
  obtain ⟨n, hn, hlvalues⟩ := hl.values
  obtain ⟨m, hm', hmvalues⟩ := hm.values
  have hsymbol : symbol? (.connective c) = none := rfl
  have hconnective : connective? (.connective c) = some c := rfl
  refine ⟨?_, ?_, max n m, hn.append (hm'.cons rfl rfl), fun v hv => ?_⟩
  · rw [List.filterMap_append, hl.symbols, List.filterMap_cons_none hsymbol, hm.symbols,
      Expr.symbols]
  · rw [List.filterMap_append, hl.connectives, List.filterMap_cons_some hconnective,
      hm.connectives, Expr.connectives]
  · rcases List.mem_append.1 hv with hv | hv
    · exact Nat.le_trans (hlvalues v hv) (Nat.le_max_left _ _)
    · exact Nat.le_trans (hmvalues v hv) (Nat.le_max_right _ _)

/-- Whatever the layers make of a row, they keep account of it. -/
theorem Layer.accounts {n : Nat} {ls : List Lexeme} {x : Expr} (h : Layer n ls x) :
    Accounts ls x := by
  induction h with
  | symbol s => exact accounts_symbol s
  | call s arguments => exact accounts_call s arguments
  | group inner ih => exact ih.group
  | next c tighter ih => exact ih
  | not operand ih => exact ih.unary .not
  | right side left right ihl ihr | left side left right ihl ihr => exact ihl.binary ihr _

end Grammar

namespace Expr

/-- What is read of a text has its symbols and its connectives in their order, one symbol
more than it has binary connectives; it is at most one higher than it has connectives,
and its values are at most 255 brackets deep. -/
theorem accounts_of_parse {text : String} {x : Expr} (h : parse text = .ok x) :
    ∃ tokens, Token.readAll text = .ok tokens ∧
      x.symbols.map Symbol.text
        = (tokens.filter fun t => t.lexeme.kind == "SYMBOL").map (·.lexeme.text) ∧
      x.connectives = tokens.filterMap (·.lexeme.connective?) ∧
      x.symbols.length = x.binaries + 1 ∧
      x.depth ≤ 1 + (tokens.filterMap (·.lexeme.connective?)).length ∧ x.depth ≤ 257 ∧
      ∀ v ∈ x.values, v.nesting ≤ 255 := by
  obtain ⟨tokens, htok, hlimit, hx⟩ := parse_eq_ok_iff.1 h
  have haccounts := Layer.accounts hx
  have hconnectives : tokens.filterMap (·.lexeme.connective?) = x.connectives := by
    rw [← haccounts.connectives, List.filterMap_map]
    rfl
  obtain ⟨hnest, hcount⟩ := (firstExcess_eq_none_iff_of_sentence hx).1 hlimit
  rw [Layer.countP_isConnective hx, maxConnectives] at hcount
  have hdepth := x.depth_le_length_connectives
  refine ⟨tokens, htok, ?_, hconnectives.symm, x.length_symbols, ?_, by omega, fun v hv => ?_⟩
  · rw [Lexeme.map_text_symbols, haccounts.symbols]
  · rw [hconnectives]
    omega
  · obtain ⟨n, hn, hvalues⟩ := haccounts.values
    have hle : n ≤ 256 := (hn.within 256).1 hnest
    have hv' := hvalues v hv
    omega

/-- Both groupings, a `¬` over a group, and a name that comes twice: the list of the first
value is gone from the expression, and its brackets are not missed.  The expression is as
high as it can be with its connectives, and a list is left in it. -/
theorem accounts_of_parse_mixed :
    ∃ x, parse "¬(ΔΑ1⇒ΔΑ2)∧ΔΑ3∧ΔΑ4(K:[[a]],K:'b',L:[c])" = .ok x ∧
      x.canonical = "((¬(ΔΑ1 ⇒ ΔΑ2) ∧ ΔΑ3) ∧ ΔΑ4(K: 'b', L: [c]))" ∧
      x.depth = 5 ∧ x.values.map Value.nesting = [0, 1] ∧
      ∃ tokens, Token.readAll "¬(ΔΑ1⇒ΔΑ2)∧ΔΑ3∧ΔΑ4(K:[[a]],K:'b',L:[c])" = .ok tokens ∧
        x.symbols.map Symbol.text
          = (tokens.filter fun t => t.lexeme.kind == "SYMBOL").map (·.lexeme.text) ∧
        x.connectives = tokens.filterMap (·.lexeme.connective?) ∧
        x.symbols.length = x.binaries + 1 ∧
        x.depth ≤ 1 + (tokens.filterMap (·.lexeme.connective?)).length ∧ x.depth ≤ 257 ∧
        ∀ v ∈ x.values, v.nesting ≤ 255 := by
  have hfacts : (parse "¬(ΔΑ1⇒ΔΑ2)∧ΔΑ3∧ΔΑ4(K:[[a]],K:'b',L:[c])").toOption.map
        (fun x => (x.canonical, x.depth, x.values.map Value.nesting))
      = some ("((¬(ΔΑ1 ⇒ ΔΑ2) ∧ ΔΑ3) ∧ ΔΑ4(K: 'b', L: [c]))", 5, [0, 1]) := by decide +kernel
  obtain ⟨x, hparse, hx⟩ := exists_parse_of_toOption hfacts
  obtain ⟨hcanon, hrest⟩ := Prod.mk.inj hx
  obtain ⟨hdepth, hnesting⟩ := Prod.mk.inj hrest
  exact ⟨x, hparse, hcanon, hdepth, hnesting, accounts_of_parse hparse⟩

end Expr

end Sigil
