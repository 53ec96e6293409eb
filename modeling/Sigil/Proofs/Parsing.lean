import Sigil.Expr.Parse
import Sigil.Expr.Tokens
import Sigil.Proofs.Descent.Acceptance
import Sigil.Proofs.Descent.Agreement
import Sigil.Proofs.Placement

/-! # Two ways to read a text

    A text is read by going down the rules of the grammar over its
    characters.  That comes to what a reader by descent comes to in the
    lexemes of the text: the same trees, or the same rules in the book at the
    same token (`Descent.read_of_accepted`, `Descent.read_of_refused`).  And
    it comes to what a reading of the tokens comes to, the same expression
    or the same refusal (`Expr.parse_eq`). -/

namespace Sigil

open Grammar Token

namespace Descent

open Text

/-! ### Where descent gets stuck -/

/-- A reader by descent that gets stuck in the lexemes of tokens is stuck where the reading of
the tokens stops. -/
theorem Stuck.eq_run {tokens : List Token} {b : Book}
    (h : Stuck .start (tokens.map (·.lexeme)) b) :
    b = ⟨(Reading.start.run tokens).rest.length, tried (Reading.start.run tokens).reading⟩ := by
  obtain ⟨ms, r, ⟨passed, happ, hadvance⟩, hstop, rfl⟩ := h
  obtain ⟨hrest, hreading⟩ := Reading.run_unique happ hadvance hstop
  rw [hrest, hreading]

/-- The rules that fail at a stop are not the whole of an input. -/
theorem input_notMem_tried (r : Reading) : .input ∉ tried r := by
  obtain ⟨⟨waiting, negated⟩, outer, site⟩ := r
  cases site with
  | operand => cases negated <;> cases waiting <;> simp [tried]
  | called s | complete x => cases outer <;> simp [tried, binaries, ending]
  | _ => simp [tried]

/-- Where a reader of lexemes fails, it is not the whole input that is booked. -/
theorem input_notMem_failed {tokens : List Token} {b : Book}
    (run : Runs (.rule .input) (tokens.map (·.lexeme)) (.blank tokens.length) none b) :
    .input ∉ b.failed := by
  rw [← List.length_map (·.lexeme)] at run
  rw [(stuck_of_refused run).eq_run]
  exact input_notMem_tried _

/-! ### Whole texts -/

/-- What the failure of the outermost rule does to the book: it leaves it alone when a rule
has failed behind the start, or a single one at the start. -/
theorem Book.note_blank (r : Rule) (left : Nat) (b : Book) :
    note r left (blank left) b
      = if b.left < left ∨ b.left = left ∧ b.failed.length = 1 then b else ⟨left, [r]⟩ := by
  have hblank : (blank left).failedAt left = [] := if_pos rfl
  rw [note, hblank, List.length_nil, Nat.zero_add, List.take_zero, List.nil_append, Book.failedAt]
  rcases Nat.lt_trichotomy b.left left with hlt | rfl | hgt
  · have hne : b.left ≠ left := Nat.ne_of_lt hlt
    have hnot : ¬ left < b.left := Nat.lt_asymm hlt
    simp [hne, hnot, hlt]
  · simp
  · have hne : b.left ≠ left := Nat.ne_of_gt hgt
    have hnot : ¬ b.left < left := Nat.lt_asymm hgt
    simp [hne, hnot, hgt]

section Whole

variable {text : String} {tokens : List Token} (hread : readAll text = .ok tokens)

include hread

/-- What a reader of lexemes comes to inside the whole row, a reader of the text comes to
inside the whole text. -/
theorem agrees_body {result : Option (List Lexeme)} {b : Book}
    (run : Runs (Rule.body .input) (tokens.map (·.lexeme)) (.blank tokens.length) result b) :
    ∃ p finding, Agrees text tokens p (Rule.body .input) (tokens.map (·.lexeme)) result b finding ∧
      read text = finding.ofRule (width text.toList) .spaced .input (.before text.toList)
        (.blank (width text.toList)) := by
  have hprecedes := precedes_start hread
  obtain ⟨hnext, htight⟩ := hprecedes.next
  have hlength := hprecedes.length_le_left
  -- four rules to go down for each byte are enough, a lexeme needs three
  have hdepth : 3 * (tokens.map (·.lexeme)).length + (Rule.body .input).height
      ≤ 4 * width text.toList + 3 := by
    have hheight : (Rule.body .input).height = 3 := by decide
    change (tokens.map (·.lexeme)).length ≤ width text.toList at hlength
    omega
  refine ⟨_, _, agrees_of_runs hread run rfl hdepth hnext htight same_blank, ?_⟩
  show Rule.read (width text.toList) (4 * width text.toList + 3 + 1) .spaced .input _ _ = _
  rw [Rule.read]
  congr 1
  -- the start of the text takes nothing
  show Pattern.read _ _ .spaced (.seq .start (Rule.body .input).pattern) _ _ = _
  have hleft : (Place.before text.toList).left = width text.toList := rfl
  rw [Pattern.read, Pattern.read, if_pos hleft]
  exact Finding.prepend_nil _

/-- A row that is accepted has trees, and the reader of the text finds some. -/
theorem read_of_accepted {b : Book}
    (run : Runs (.rule .input) (tokens.map (·.lexeme)) (.blank tokens.length) (some []) b) :
    ∃ trees rest B, read text = .found trees rest B ∧
      Forms (.rule .input) (tokens.map (·.lexeme)) trees := by
  cases run with
  | rule body =>
    obtain ⟨p, finding, hagrees, hfinding⟩ := agrees_body hread body
    cases hagrees with
    | @found taken ms trees rest _ B row forms precedes shorter same =>
      rw [List.append_nil] at row
      rw [← row] at forms
      have hseveral : Rule.body .input ≠ .lexeme .input := nofun
      exact ⟨_, _, _, hfinding, .rule hseveral _ _ forms⟩

/-- Where the reader of a row fails, the reader of the text fails with the same rules in the
book, at the place where the same token begins. -/
theorem read_of_refused {b : Book}
    (run : Runs (.rule .input) (tokens.map (·.lexeme)) (.blank tokens.length) none b) :
    read text = .failed ⟨leftAt text tokens b.left, b.failed⟩ := by
  have hinput := input_notMem_failed run
  -- what has failed inside is kept, or the whole input would be booked
  cases run with
  | @noRule _ _ _ b' body =>
    obtain ⟨p, finding, hagrees, hfinding⟩ := agrees_body hread body
    rw [List.length_map, Book.note_blank] at hinput ⊢
    cases hagrees with
    | @failed _ B same =>
      have hkept : b'.left < tokens.length ∨ b'.left = tokens.length ∧ b'.failed.length = 1 := by
        by_contra h
        rw [if_neg h] at hinput
        exact hinput List.mem_cons_self
      have hleft : B.left = leftAt text tokens b'.left := by
        rcases same.left with hleft | ⟨hnil, hall, -⟩
        · exact hleft
        · -- something has failed, so the book is at a token
          rw [hnil, List.length_nil] at hkept
          omega
      have hkept' : B.left < width text.toList ∨
          B.left = width text.toList ∧ B.failed.length = 1 := by
        have hle : leftAt text tokens tokens.length ≤ width text.toList := Nat.sub_le _ _
        have hlt := leftAt_lt_iff hread same.le (Nat.le_refl tokens.length)
        rw [same.failed]
        rcases hkept with hbehind | ⟨hstart, hone⟩
        · omega
        · rw [hstart] at hleft
          omega
      rw [if_pos hkept, hfinding, ← same.failed, ← hleft]
      show Finding.failed (Book.note .input (width text.toList) _ B) = _
      rw [Book.note_blank, if_pos hkept']

/-- A text that can be cut into tokens has too few characters for a reader to give up. -/
theorem read_ne_gaveUp (b : Book) : read text ≠ .gaveUp b := by
  intro hgaveUp
  cases hrow : (Reading.start.advance (tokens.map (·.lexeme))).bind Reading.result? with
  | some x =>
    obtain ⟨b', run⟩ := runs_of_sentence (Reading.advance_start_iff.1 hrow)
    rw [List.length_map] at run
    obtain ⟨trees, rest, B, hfound, -⟩ := read_of_accepted hread run
    rw [hfound] at hgaveUp
    cases hgaveUp
  | none =>
    obtain ⟨b', run, -⟩ := runs_input hrow
    rw [List.length_map] at run
    rw [read_of_refused hread run] at hgaveUp
    cases hgaveUp

end Whole

end Descent

/-! ### Stops -/

/-- The index of the token that begins where the last `n` tokens of a text begin. -/
theorem Refusal.indexAt_leftAt {text : String} {tokens : List Token}
    (hread : readAll text = .ok tokens) (n : Nat) :
    indexAt tokens (Text.width text.toList - Descent.leftAt text tokens n) = tokens.length - n := by
  have hcut := cut_of_readFrom hread
  have hle := placeAt_le hcut (Nat.sub_le tokens.length n)
  rw [Descent.leftAt, Nat.sub_sub_self hle]
  exact findIdx_placeAt hcut (Nat.sub_le _ _)

/-- The refusal at a stop is told by the book. -/
theorem Reading.refusal_eq_between {tokens : List Token} {b : Descent.Book}
    (h : Descent.Stuck .start (tokens.map (·.lexeme)) b) (length : Nat) :
    (start.run tokens).refusal length
      = .between length (tokens.take (tokens.length - b.left)).getLast?
          tokens[tokens.length - b.left]? b.expected := by
  obtain rfl := h.eq_run
  have hlength := congrArg List.length (passed_append_rest start tokens)
  rw [List.length_append] at hlength
  have hpassed : tokens.length - (start.run tokens).rest.length
      = (start.run tokens).passed.length := by
    omega
  simp only [hpassed, Descent.expected_tried]
  rw [← (passed_eq_take _ _).1, ← head?_rest, Halt.refusal]

namespace Expr

/-- What has been built without a defect or a crash. -/
theorem outcome_pure (x : Expr) : (pure x : Descent.Build Expr).outcome = .ok x := rfl

section Tokens

variable {text : String} {tokens : List Token} (hread : readAll text = .ok tokens)

include hread

/-- Where the reading of the tokens goes over all of them, the reader of the text finds the
trees of the same expression. -/
theorem ofFinding_of_accepted {x : Expr} (h : Sentence (tokens.map (·.lexeme)) x) (length : Nat) :
    ofFinding length tokens (Descent.read text) = .ok x := by
  obtain ⟨b, run⟩ := Descent.runs_of_sentence h
  rw [List.length_map] at run
  obtain ⟨trees, rest, B, hfound, forms⟩ := Descent.read_of_accepted hread run
  obtain ⟨y, hbuild, hy⟩ := Descent.build_of_forms forms
  rw [hfound, ofFinding, hbuild, outcome_pure, sentence_unique hy h]

/-- Where a reader by descent fails in the lexemes, the reader of the text fails, and the
refusal is between the tokens around the place in the book. -/
theorem ofFinding_of_refused {b : Descent.Book}
    (run : Descent.Runs (.rule .input) (tokens.map (·.lexeme)) (.blank tokens.length) none b) :
    ofFinding (Text.width text.toList) tokens (Descent.read text)
      = .error (.between (Text.width text.toList) (tokens.take (tokens.length - b.left)).getLast?
          tokens[tokens.length - b.left]? b.expected) := by
  rw [Descent.read_of_refused hread run, ofFinding, Refusal.ofFailure]
  simp only
  rw [Refusal.indexAt_leftAt hread]
  rfl

end Tokens

/-- Within the limits, reading a text by descent is all there is to it. -/
theorem parse_within {text : String} {tokens : List Token} (hread : readAll text = .ok tokens)
    (hlimits : Tally.zero.firstExcess tokens = none) :
    parse text = ofFinding (Text.width text.toList) tokens (Descent.read text) := by
  rw [parse, hread]
  simp only [bind, Except.bind, hlimits]

/-- To read a text by descent comes to the same as to read its tokens. -/
theorem parse_eq (text : String) :
    parse text = (readAll text).bind (ofTokens (Text.width text.toList)) := by
  cases hread : readAll text with
  | error refusal =>
    rw [parse, hread]
    rfl
  | ok tokens =>
    show _ = ofTokens _ tokens
    rw [ofTokens]
    cases hlimits : Tally.zero.firstExcess tokens with
    | some refusal =>
      rw [parse, hread]
      simp only [bind, Except.bind, hlimits]
    | none =>
      rw [parse_within hread hlimits]
      simp only [Reading.result?_run]
      -- both are told by a reader of the lexemes
      cases hrow : (Reading.start.advance (tokens.map (·.lexeme))).bind Reading.result? with
      | some x => exact ofFinding_of_accepted hread (Reading.advance_start_iff.1 hrow) _
      | none =>
        obtain ⟨b, run, hstuck⟩ := Descent.runs_input hrow
        rw [List.length_map] at run
        rw [ofFinding_of_refused hread run]
        exact congrArg Except.error (Reading.refusal_eq_between hstuck _).symm

end Expr

end Sigil
