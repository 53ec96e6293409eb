import Sigil.Proofs.Descent.Folding
import Sigil.Proofs.Descent.Trees
import Sigil.Proofs.Spelling

/-! # Building comes to an end

    Every tree that the grammar has is one of which an expression can be
    built: nothing is missing, no rule is in a wrong place, every quoted
    text has its two quotes, and climbing meets operands and connectives by
    turns.  What is built is the expression that the lexemes are.

    Key theorem: `Descent.build_of_forms`. -/

namespace Sigil.Descent

open Grammar

variable {ls : List Lexeme} {trees : List Tree}

/-- What stands between two lexemes is shorter than the whole. -/
theorem length_lt_enclosed (left : Lexeme) (ms : List Lexeme) (right : Lexeme) :
    ms.length < (left :: (ms ++ [right])).length := by
  rw [List.length_cons, List.length_append]
  omega

theorem text_identifier (name : String) : (Lexeme.identifier name).text = name :=
  String.ofList_toList

/-! ### Values -/

/-- A quoted text keeps what stands between its quotes. -/
theorem unquoted_literal (q : Quote) (content : String) :
    unquoted (Lexeme.literal q content).text = pure content := by
  have hchars : (Lexeme.literal q content).text.toList
      = [q.char] ++ (content.toList ++ [q.char]) := by
    rw [Lexeme.text, String.toList_ofList]
    rfl
  have hquote : Text.width [q.char] = 1 := by
    cases q <;> rfl
  have hwidth : Text.width (Lexeme.literal q content).text.toList - 1
      = Text.width [q.char] + Text.width content.toList := by
    rw [hchars, Text.width_append, Text.width_append, hquote]
    omega
  have hslice := Text.slice?_eq_some hchars
  rw [← hwidth, hquote, String.ofList_toList] at hslice
  rw [unquoted, hslice]

/-- The trees are that of a value, and the lexemes are the value that is made of it. -/
def MakesValue (ls : List Lexeme) (trees : List Tree) : Prop :=
  ∃ t v, trees = [t] ∧ t.rule.isValue = true ∧ t.value = pure v ∧ IsValue ls v

theorem values_cons {t : Tree} {ts : List Tree} {v : Value} {vs : List Value}
    (hrule : t.rule.isValue = true) (hvalue : t.value = pure v) (hrest : Tree.values ts = pure vs) :
    Tree.values (t :: ts) = pure (v :: vs) := by
  rw [Tree.values, if_pos hrule, hvalue, pure_bind, hrest, pure_bind]

/-- Marks between values are passed over. -/
theorem values_leaf (m : Mark) (span : Span) (ts : List Tree) :
    Tree.values (.leaf (.mark m) (.mark m) span :: ts) = Tree.values ts := by
  rw [Tree.values]
  exact if_neg Bool.false_ne_true

/-- The value of a list has the values that are made behind its first bracket. -/
theorem value_list (text : String) (span span' : Span) (inner : List Tree) {close : Tree}
    {vs : List Value} (h : Tree.values (inner ++ [close]) = pure vs) :
    Tree.value (.node .list text span
        (.leaf (.mark .openBracket) (.mark .openBracket) span' :: (inner ++ [close])))
      = pure (.list vs) := by
  rw [Tree.value, values_leaf, h, pure_bind]

/-- Values with commas between them are made one by one. -/
theorem values_of_items {n : Nat}
    (hvalue : ∀ {ls trees}, ls.length < n → Forms .value ls trees → MakesValue ls trees)
    (h : Items .value ls trees) (hn : ls.length < n) {rest : List Tree}
    (hrest : Tree.values rest = pure []) :
    ∃ vs, Tree.values (trees ++ rest) = pure vs ∧ AreItems ls vs := by
  induction h with
  | one first =>
    obtain ⟨t, v, rfl, hrule, ht, hv⟩ := hvalue hn first
    exact ⟨[v], values_cons hrule ht hrest, .one hv⟩
  | @cons ls ms trees trees' first span _ ih =>
    rw [List.length_append, List.length_cons] at hn
    obtain ⟨t, v, rfl, hrule, ht, hv⟩ := hvalue (by omega) first
    obtain ⟨vs, hvs, hitems⟩ := ih (by omega)
    refine ⟨v :: vs, ?_, .cons hv hitems⟩
    rw [← values_leaf .comma span] at hvs
    exact values_cons hrule ht hvs

/-- A list is made of what is inside its brackets. -/
theorem makesValue_list
    (hvalue : ∀ {ms trees}, ms.length < ls.length → Forms .value ms trees → MakesValue ms trees)
    (h : Forms (.rule .list) ls trees) : MakesValue ls trees := by
  obtain ⟨text, span, inside, rfl, hbody⟩ := node_of_forms rfl h
  obtain ⟨ms, inner, span₁, span₂, rfl, rfl, hitems⟩ := enclosed_of_forms hbody
  have hclose : Tree.values [.leaf (.mark .closeBracket) (.mark .closeBracket) span₂]
      = pure [] := by
    rw [values_leaf, Tree.values]
  cases hitems with
  | absent => exact ⟨_, .list [], rfl, rfl, value_list text span span₁ [] hclose, .nil⟩
  | optional body =>
    obtain ⟨vs, hvs, hms⟩ :=
      values_of_items hvalue (items_of_separated body) (length_lt_enclosed _ ms _) hclose
    exact ⟨_, .list vs, rfl, rfl, value_list text span span₁ inner hvs, .list hms⟩

theorem makesValue_of_forms (h : Forms .value ls trees) : MakesValue ls trees := by
  -- by the length of the row, since the items of a list are values again
  induction hlength : ls.length using Nat.strongRecOn generalizing ls trees with
  | ind n ih =>
    subst hlength
    cases h with
    | choice list => exact makesValue_list (fun hms hvalue => ih _ hms hvalue rfl) list
    | otherwise scalar =>
      cases scalar with
      | choice literal =>
        obtain ⟨l, span, rfl, rfl, hfits⟩ := leaf_of_forms rfl literal
        cases l with
        | literal q content =>
          refine ⟨_, .text content, rfl, rfl, ?_, .text q content⟩
          rw [Tree.leaf, Tree.value, unquoted_literal, pure_bind]
        | _ => cases hfits
      | otherwise identifier =>
        obtain ⟨l, span, rfl, rfl, hfits⟩ := leaf_of_forms rfl identifier
        cases l with
        | identifier name =>
          refine ⟨_, .name name, rfl, rfl, ?_, .name name⟩
          rw [Tree.leaf, Tree.value, text_identifier]
        | _ => cases hfits

/-! ### Arguments -/

/-- The trees are that of an argument, and the lexemes are what is made of it. -/
def MakesArgument (ls : List Lexeme) (trees : List Tree) : Prop :=
  ∃ t entry, trees = [t] ∧ t.rule = .argument ∧ t.argument = pure entry ∧
    IsArgument ls entry

theorem makesArgument_of_forms (h : Forms (.rule .argument) ls trees) : MakesArgument ls trees := by
  obtain ⟨text, span, inside, rfl, hbody⟩ := node_of_forms rfl h
  cases hbody with
  | seq key rest =>
    cases rest with
    | seq colon value =>
      obtain ⟨l, keySpan, rfl, rfl, hfits⟩ := leaf_of_forms rfl key
      obtain ⟨colonSpan, rfl, rfl⟩ := mark_of_forms colon
      obtain ⟨t, v, rfl, hrule, ht, hv⟩ := makesValue_of_forms value
      cases l with
      | identifier name =>
        refine ⟨_, (name, v), rfl, rfl, ?_, .mk name hv⟩
        -- the colon is passed over, and the tree of a value is none
        have hcolon : t.rule ≠ .mark .colon := by
          intro hcolon
          rw [hcolon] at hrule
          cases hrule
        have hkept : [t].filter (fun u => u.rule != .mark .colon) = [t] := by
          rw [List.filter_eq_self]
          intro u hu
          obtain rfl := List.mem_singleton.1 hu
          exact bne_iff_ne.2 hcolon
        show Tree.argument (.node .argument text span [.leaf .identifier (.identifier name) keySpan,
          .leaf (.mark .colon) (.mark .colon) colonSpan, t]) = _
        rw [Tree.argument, Tree.inner, List.filter_cons_of_pos rfl,
          List.filter_cons_of_neg Bool.false_ne_true, hkept]
        show (t.value >>= fun v => pure ((Lexeme.identifier name).text, v)) = _
        rw [ht, pure_bind, text_identifier]
      | _ => cases hfits

theorem arguments_cons {t : Tree} {entry : String × Value} (hrule : t.rule = .argument)
    (hargument : t.argument = pure entry) (earlier : Arguments) (ts : List Tree) :
    Tree.arguments earlier (t :: ts) = Tree.arguments (earlier.insert entry.1 entry.2) ts := by
  rw [Tree.arguments, if_pos hrule, hargument]
  rfl

/-- Marks between arguments are passed over. -/
theorem arguments_leaf (m : Mark) (span : Span) (earlier : Arguments) (ts : List Tree) :
    Tree.arguments earlier (.leaf (.mark m) (.mark m) span :: ts) = Tree.arguments earlier ts := by
  rw [Tree.arguments]
  exact if_neg nofun

/-- Arguments with commas between them are inserted one by one. -/
theorem arguments_of_items (h : Items (.rule .argument) ls trees) {rest : List Tree}
    (hrest : ∀ earlier, Tree.arguments earlier rest = pure earlier) :
    ∃ entries, AreArguments ls entries ∧ ∀ earlier, Tree.arguments earlier (trees ++ rest)
      = pure (entries.foldl (fun as p => as.insert p.1 p.2) earlier) := by
  induction h with
  | one first =>
    obtain ⟨t, entry, rfl, hrule, ht, hentry⟩ := makesArgument_of_forms first
    refine ⟨[entry], .one hentry, fun earlier => ?_⟩
    exact (arguments_cons hrule ht earlier rest).trans (hrest _)
  | cons first span _ ih =>
    obtain ⟨t, entry, rfl, hrule, ht, hentry⟩ := makesArgument_of_forms first
    obtain ⟨entries, hentries, hmade⟩ := ih
    refine ⟨entry :: entries, .cons hentry hentries, fun earlier => ?_⟩
    rw [List.foldl_cons, ← hmade, ← arguments_leaf .comma span]
    exact arguments_cons hrule ht earlier _

/-! ### Operands -/

/-- The trees are that of a call or of a group, and the lexemes are what is made of it. -/
def MakesPrimary (ls : List Lexeme) (trees : List Tree) : Prop :=
  ∃ t x, trees = [t] ∧ table.lookup t.rule = none ∧ t.operand = pure x ∧ IsPrimary ls x

/-- The trees are that of an expression, and the lexemes are what is made of it. -/
def MakesExpression (ls : List Lexeme) (trees : List Tree) : Prop :=
  ∃ t x, trees = [t] ∧ t.rule = .expression ∧ t.expression = pure x ∧ FlatSentence ls x

theorem symbol_leaf (s : Symbol) (span span' : Span) :
    (Tree.leaf .symbol (.symbol s) span).symbol span' = pure s := by
  have hrule : (Tree.leaf .symbol (.symbol s) span).rule = .symbol := rfl
  have htext : (Tree.leaf .symbol (.symbol s) span).text = s.text := rfl
  rw [Tree.symbol, if_pos hrule, htext, Symbol.parse?_eq_some_iff.2 rfl]

/-- A call is made of its symbol and its arguments, if it has any. -/
theorem makesPrimary_call (h : Forms (.rule .call) ls trees) : MakesPrimary ls trees := by
  obtain ⟨text, span, inside, rfl, hbody⟩ := node_of_forms rfl h
  cases hbody with
  | seq symbol more =>
    obtain ⟨l, symbolSpan, rfl, rfl, hfits⟩ := leaf_of_forms rfl symbol
    cases l with
    | symbol s =>
      cases more with
      | absent =>
        refine ⟨_, .call s .empty, rfl, lookup_call, ?_, .symbol s⟩
        show Tree.call span [.leaf .symbol (.symbol s) symbolSpan] = _
        rw [Tree.call, symbol_leaf, pure_bind]
      | optional arguments =>
        obtain ⟨text', span', inside, rfl, hbody⟩ := node_of_forms rfl arguments
        obtain ⟨ms, inner, span₁, span₂, rfl, rfl, hitems⟩ := enclosed_of_forms hbody
        have hclose : ∀ earlier, Tree.arguments earlier
            [.leaf (.mark .closeParen) (.mark .closeParen) span₂] = pure earlier := by
          intro earlier
          rw [arguments_leaf, Tree.arguments]
        obtain ⟨entries, hentries, hmade⟩ := arguments_of_items (items_of_separated hitems) hclose
        -- both parentheses are passed over
        refine ⟨_, .call s (.ofList entries), rfl, lookup_call, ?_, .call s hentries⟩
        show Tree.call span [.leaf .symbol (.symbol s) symbolSpan,
          .node .arguments text' span' _] = _
        rw [Tree.call, symbol_leaf, pure_bind]
        show (Tree.arguments .empty (.leaf (.mark .openParen) (.mark .openParen) span₁ :: _)
          >>= _) = _
        rw [arguments_leaf, hmade, pure_bind]
        rfl
    | _ => cases hfits

/-- A group is made of the expression inside its parentheses. -/
theorem makesPrimary_group
    (hexpression : ∀ {ms trees}, ms.length < ls.length → Forms (.rule .expression) ms trees →
      MakesExpression ms trees)
    (h : Forms (.rule .group) ls trees) : MakesPrimary ls trees := by
  obtain ⟨text, span, inside, rfl, hbody⟩ := node_of_forms rfl h
  obtain ⟨ms, inner, span₁, span₂, rfl, rfl, hinner⟩ := enclosed_of_forms hbody
  obtain ⟨t, x, rfl, hrule, ht, items, hrow, hclimbs⟩ :=
    hexpression (length_lt_enclosed _ ms _) hinner
  refine ⟨_, x, rfl, lookup_group, ?_, .group hrow hclimbs⟩
  -- the parenthesis before the expression is no expression
  rw [Tree.operand, Tree.firstExpression, if_neg nofun]
  show Tree.firstExpression _ _ (t :: _) = _
  rw [Tree.firstExpression, if_pos hrule, ht]

theorem makesPrimary_of_forms
    (hexpression : ∀ {ms trees}, ms.length < ls.length → Forms (.rule .expression) ms trees →
      MakesExpression ms trees)
    (h : Forms .primary ls trees) : MakesPrimary ls trees := by
  cases h with
  | choice call => exact makesPrimary_call call
  | otherwise group => exact makesPrimary_group hexpression group

theorem parts_append (ts us : List Tree) :
    Tree.parts (ts ++ us) = Tree.parts ts ++ Tree.parts us := by
  induction ts with
  | nil => rw [Tree.parts, List.nil_append, List.nil_append]
  | cons t ts ih => rw [List.cons_append, Tree.parts, Tree.parts, ih, List.cons_append]

theorem stands_leaf (c : Connective) (span : Span) (ts : List Tree) (items : List Item)
    (h : List.Forall₂ Stands (Tree.parts ts) items) :
    List.Forall₂ Stands (Tree.parts (.leaf (.connective c) (.connective c) span :: ts))
      (.sign c :: items) := by
  rw [Tree.parts]
  exact .cons (.sign rfl) h

/-- An operand, perhaps behind a `¬`, stands for the items that the lexemes are. -/
theorem stands_operand
    (hexpression : ∀ {ms trees}, ms.length < ls.length → Forms (.rule .expression) ms trees →
      MakesExpression ms trees)
    (h : Forms .operand ls trees) :
    ∃ items, IsOperand ls items ∧ List.Forall₂ Stands (Tree.parts trees) items := by
  have hstands : ∀ {t : Tree} {x : Expr}, table.lookup t.rule = none → t.operand = pure x →
      List.Forall₂ Stands (Tree.parts [t]) [.operand x] := by
    intro t x hrule ht
    rw [Tree.parts, Tree.parts]
    exact .cons (.operand hrule ht) .nil
  cases h with
  | seq sign primary =>
    cases sign with
    | absent =>
      obtain ⟨t, x, rfl, hrule, ht, hx⟩ := makesPrimary_of_forms hexpression primary
      exact ⟨[.operand x], .plain hx, hstands hrule ht⟩
    | optional not =>
      obtain ⟨span, rfl, rfl⟩ := connective_of_forms not
      have hshorter : ∀ {ms trees}, ms.length < _ → Forms (.rule .expression) ms trees →
          MakesExpression ms trees :=
        fun hms => hexpression (Nat.lt_succ_of_lt hms)
      obtain ⟨t, x, rfl, hrule, ht, hx⟩ := makesPrimary_of_forms hshorter primary
      exact ⟨[.sign .not, .operand x], .negated hx, stands_leaf .not span _ _ (hstands hrule ht)⟩

/-! ### Expressions -/

/-- The trees stand for a row of items that the lexemes are. -/
def StandsRow (ls : List Lexeme) (trees : List Tree) : Prop :=
  ∃ items, IsRow ls items ∧ List.Forall₂ Stands (Tree.parts trees) items

/-- An operand, and those behind it that each follow a connective. -/
theorem standsRow_of_many {n : Nat}
    (hexpression : ∀ {ms trees}, ms.length < n → Forms (.rule .expression) ms trees →
      MakesExpression ms trees)
    {ms : List Lexeme} {trees' : List Tree} (h : Forms (.many (.seq .binary .operand)) ms trees') :
    ∀ {ls : List Lexeme} {trees : List Tree}, ls.length + ms.length ≤ n →
      Forms .operand ls trees → StandsRow (ls ++ ms) (trees ++ trees') := by
  generalize hphrase : Phrase.many (.seq .binary .operand) = p at h
  induction h with
  | many first more _ ih =>
    cases hphrase
    intro ls trees hn hoperand
    cases first with
    | seq binary next =>
      obtain ⟨c, span, hc, rfl, rfl⟩ := binary_of_forms binary
      -- the operand before the connective, and then what the connective leads to
      rw [List.length_append, List.length_append] at hn
      obtain ⟨items, hitems, hstands⟩ :=
        stands_operand (fun hms => hexpression (by omega)) hoperand
      obtain ⟨others, hothers, hstands'⟩ := ih rfl (by omega) next
      refine ⟨items ++ .sign c :: others, ?_, ?_⟩
      · rw [List.append_assoc]
        exact .cons hitems hc hothers
      · rw [parts_append, List.append_assoc]
        exact List.rel_append hstands (stands_leaf c span _ _ hstands')
  | noMore =>
    intro ls trees hn hoperand
    obtain ⟨items, hitems, hstands⟩ :=
      stands_operand (fun hms => hexpression (Nat.lt_of_lt_of_le hms hn)) hoperand
    rw [List.append_nil, List.append_nil]
    exact ⟨items, .one hitems, hstands⟩
  | _ => cases hphrase

/-- Of the tree of an expression, the expression is made that its lexemes are. -/
theorem makesExpression_of_forms (h : Forms (.rule .expression) ls trees) :
    MakesExpression ls trees := by
  -- by the length of the row, since a group holds an expression that is shorter
  induction hlength : ls.length using Nat.strongRecOn generalizing ls trees with
  | ind n ih =>
    subst hlength
    obtain ⟨text, span, inner, rfl, hbody⟩ := node_of_forms rfl h
    cases hbody with
    | seq first more =>
      obtain ⟨items, hrow, hstands⟩ :=
        standsRow_of_many (fun hms hforms => ih _ hms hforms rfl) more
          (Nat.le_of_eq List.length_append.symm) first
      obtain ⟨x, hx, hclimbs⟩ := fold_of_starts (starts_of_isRow hrow) hstands
      refine ⟨_, x, rfl, rfl, ?_, items, hrow, hclimbs⟩
      rw [Tree.expression, hx]

/-- Whatever trees the grammar gives a text, an expression is built of them, and it is the
one that the lexemes are. -/
theorem build_of_forms (h : Forms (.rule .input) ls trees) :
    ∃ x, build trees = pure x ∧ Sentence ls x := by
  obtain ⟨text, span, inner, rfl, hbody⟩ := node_of_forms rfl h
  cases hbody with
  | seq expression ending =>
    obtain ⟨t, x, rfl, hrule, ht, hx⟩ := makesExpression_of_forms expression
    obtain rfl := eq_nil_of_forms ending
    rw [List.append_nil]
    refine ⟨x, ?_, flatSentence_iff.1 hx⟩
    show Tree.firstExpression "expression" _ (t :: _) = _
    rw [Tree.firstExpression, if_pos hrule, ht]

end Sigil.Descent
