import Sigil.Grammar.Descent.Tree

/-! # The trees of what is accepted

    A phrase that fits has trees (`Descent.forms_of_runs`).  What the trees
    of a phrase look like is read off the phrase: a rule has one tree, with
    the trees of its body inside; a choice among connectives is the tree of
    one of them; and items with commas between them are `Items`.

    Key theorem: `Descent.forms_of_runs`. -/

namespace Sigil.Descent

/-- What fits, fits in the lexemes that are taken, and these have trees. -/
theorem forms_of_runs {p : Phrase} {ls ms : List Lexeme} {b b' : Book}
    (h : Runs p ls b (some ms) b') :
    ∃ taken trees, ls = taken ++ ms ∧ Forms p taken trees := by
  generalize hresult : some ms = result at h
  -- along the run; what fails gives no trees
  induction h generalizing ms with
  | @lexeme r l ls b fits =>
    cases hresult
    exact ⟨[l], [], rfl, .lexeme fits⟩
  | endOfText =>
    cases hresult
    exact ⟨[], [], rfl, .endOfText⟩
  | @rule r ls ms' b b' body ih =>
    obtain ⟨taken, trees, rfl, hforms⟩ := ih hresult
    by_cases hleaf : r.body = .lexeme r
    · -- a rule about single lexemes has a leaf
      rw [hleaf] at hforms
      cases hforms with
      | @lexeme _ l fits =>
        exact ⟨[l], [.leaf r l (.point 0)], rfl, .leaf hleaf fits (.point 0)⟩
    · exact ⟨taken, [.node r "" (.point 0) trees], rfl, .rule hleaf "" (.point 0) hforms⟩
  | seq first second ih₁ ih₂ =>
    obtain ⟨taken, trees, rfl, hfirst⟩ := ih₁ rfl
    obtain ⟨taken', trees', rfl, hsecond⟩ := ih₂ hresult
    exact ⟨taken ++ taken', trees ++ trees', (List.append_assoc ..).symm, .seq hfirst hsecond⟩
  | choice first ih =>
    obtain ⟨taken, trees, rfl, hfirst⟩ := ih hresult
    exact ⟨taken, trees, rfl, .choice hfirst⟩
  | otherwise first second ih₁ ih₂ =>
    obtain ⟨taken, trees, rfl, hsecond⟩ := ih₂ hresult
    exact ⟨taken, trees, rfl, .otherwise hsecond⟩
  | optional body ih =>
    obtain ⟨taken, trees, rfl, hbody⟩ := ih hresult
    exact ⟨taken, trees, rfl, .optional hbody⟩
  | absent =>
    cases hresult
    exact ⟨[], [], rfl, .absent⟩
  | many first more ih₁ ih₂ =>
    obtain ⟨taken, trees, rfl, hfirst⟩ := ih₁ rfl
    obtain ⟨taken', trees', rfl, hmore⟩ := ih₂ hresult
    exact ⟨taken ++ taken', trees ++ trees', (List.append_assoc ..).symm, .many hfirst hmore⟩
  | noMore =>
    cases hresult
    exact ⟨[], [], rfl, .noMore⟩
  | _ => cases hresult

/-! ### The shape of trees -/

section Shapes

variable {r : Rule} {ls : List Lexeme} {trees : List Tree}

/-- A rule about single lexemes has taken one, and has a leaf. -/
theorem leaf_of_forms (hbody : r.body = .lexeme r) (h : Forms (.rule r) ls trees) :
    ∃ l span, ls = [l] ∧ trees = [.leaf r l span] ∧ r.fits l = true := by
  cases h with
  | leaf _ fits span => exact ⟨_, span, rfl, rfl, fits⟩
  | rule several => exact absurd hbody several

/-- A rule about more than a lexeme has a tree with the trees of its body inside. -/
theorem node_of_forms {p q : Phrase} (hbody : r.body = .seq p q) (h : Forms (.rule r) ls trees) :
    ∃ text span inner, trees = [.node r text span inner] ∧ Forms (.seq p q) ls inner := by
  cases h with
  | leaf body =>
    rw [hbody] at body
    cases body
  | rule _ text span body =>
    rw [hbody] at body
    exact ⟨text, span, _, rfl, body⟩

/-- The end of a text takes no lexemes. -/
theorem eq_nil_of_forms (h : Forms (.rule .endOfText) ls trees) : ls = [] := by
  cases h with
  | leaf body => cases body
  | rule _ _ _ body =>
    cases body with
    | endOfText => rfl

theorem mark_of_forms {m : Mark} (h : Forms (.rule (.mark m)) ls trees) :
    ∃ span, ls = [.mark m] ∧ trees = [.leaf (.mark m) (.mark m) span] := by
  obtain ⟨l, span, rfl, rfl, hfits⟩ := leaf_of_forms rfl h
  cases l with
  | mark n =>
    obtain rfl : m = n := eq_of_beq hfits
    exact ⟨span, rfl, rfl⟩
  | _ => cases hfits

theorem connective_of_forms {c : Connective} (h : Forms (.rule (.connective c)) ls trees) :
    ∃ span, ls = [.connective c] ∧ trees = [.leaf (.connective c) (.connective c) span] := by
  obtain ⟨l, span, rfl, rfl, hfits⟩ := leaf_of_forms rfl h
  cases l with
  | connective d =>
    obtain rfl : c = d := eq_of_beq hfits
    exact ⟨span, rfl, rfl⟩
  | _ => cases hfits

/-- One of the connectives stands where one of them is looked for. -/
theorem oneOf_of_forms {c : Connective} {cs : List Connective} (h : Forms (.oneOf c cs) ls trees) :
    ∃ d ∈ c :: cs, ∃ span, ls = [.connective d] ∧
      trees = [.leaf (.connective d) (.connective d) span] := by
  induction cs generalizing c with
  | nil => exact ⟨c, List.mem_cons_self, connective_of_forms h⟩
  | cons d ds ih =>
    cases h with
    | choice first => exact ⟨c, List.mem_cons_self, connective_of_forms first⟩
    | otherwise second =>
      obtain ⟨e, he, hforms⟩ := ih second
      exact ⟨e, List.mem_cons_of_mem c he, hforms⟩

theorem binary_of_forms (h : Forms .binary ls trees) :
    ∃ (c : Connective) (span : Span), c.isUnary = false ∧ ls = [.connective c] ∧
      trees = [.leaf (.connective c) (.connective c) span] := by
  obtain ⟨c, hc, span, hforms⟩ := oneOf_of_forms h
  refine ⟨c, span, ?_, hforms⟩
  revert hc
  cases c <;> decide

/-- The marks around a phrase have leaves around its trees. -/
theorem enclosed_of_forms {left right : Mark} {p : Phrase}
    (h : Forms (.enclosed left p right) ls trees) :
    ∃ ms inner span span', ls = .mark left :: (ms ++ [.mark right]) ∧
      trees = .leaf (.mark left) (.mark left) span
        :: (inner ++ [.leaf (.mark right) (.mark right) span']) ∧
      Forms p ms inner := by
  cases h with
  | seq opening rest =>
    cases rest with
    | @seq _ _ ms _ inner _ body closing =>
      obtain ⟨span, rfl, rfl⟩ := mark_of_forms opening
      obtain ⟨span', rfl, rfl⟩ := mark_of_forms closing
      exact ⟨ms, inner, span, span', rfl, rfl, body⟩

end Shapes

/-! ### Items -/

/-- Instances of a phrase with commas between them, and their trees. -/
inductive Items (item : Phrase) : List Lexeme → List Tree → Prop where
  | one {ls : List Lexeme} {trees : List Tree} (first : Forms item ls trees) : Items item ls trees
  | cons {ls ms : List Lexeme} {trees trees' : List Tree} (first : Forms item ls trees)
      (span : Span) (rest : Items item ms trees') :
      Items item (ls ++ .mark .comma :: ms)
        (trees ++ .leaf (.mark .comma) (.mark .comma) span :: trees')

/-- An item, and those behind it that each follow a comma. -/
theorem items_of_many {item : Phrase} {ms : List Lexeme} {trees' : List Tree}
    (h : Forms (.many (.seq (.rule (.mark .comma)) item)) ms trees') :
    ∀ {ls : List Lexeme} {trees : List Tree}, Forms item ls trees →
      Items item (ls ++ ms) (trees ++ trees') := by
  generalize hphrase : Phrase.many (.seq (.rule (.mark .comma)) item) = p at h
  -- along the repetition; the item before it changes from round to round
  induction h with
  | many first more _ ih =>
    cases hphrase
    intro ls trees hitem
    cases first with
    | seq comma next =>
      obtain ⟨span, rfl, rfl⟩ := mark_of_forms comma
      rw [List.append_assoc, List.append_assoc]
      exact .cons hitem span (ih rfl next)
  | noMore =>
    intro ls trees hitem
    rw [List.append_nil, List.append_nil]
    exact .one hitem
  | _ => cases hphrase

theorem items_of_separated {item : Phrase} {ls : List Lexeme} {trees : List Tree}
    (h : Forms (.separated item) ls trees) : Items item ls trees := by
  cases h with
  | seq first more => exact items_of_many more first

end Sigil.Descent
