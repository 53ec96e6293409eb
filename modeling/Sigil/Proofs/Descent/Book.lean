import Sigil.Grammar.Descent
import Sigil.Proofs.Moves

/-! # The book of a reader by descent

    What the failure of a rule does to the book depends on how far the book
    is.  A failure at the furthest place is added to those that are booked
    there, and a rule gives its name to several failures inside it; a
    failure before that place leaves the book alone (`Book.note_of_lt`).

    `Descent.Stuck` says where this is to lead: the reading of a row stops
    within it, and the book holds what is tried at the stop. -/

namespace Sigil.Descent

/-! ### The book -/

namespace Book

/-- No rule has failed behind the place, and at the place the `failed` ones. -/
structure Holds (b : Book) (left : Nat) (failed : List Rule) : Prop where
  le : left ≤ b.left
  failedAt : b.failedAt left = failed

theorem holds_blank (left : Nat) : (blank left).Holds left [] where
  le := Nat.le_refl left
  failedAt := by rw [Book.failedAt]; split <;> rfl

theorem holds_self (left : Nat) (failed : List Rule) : Holds ⟨left, failed⟩ left failed where
  le := Nat.le_refl left
  failedAt := if_pos rfl

/-- Further on nothing has failed yet. -/
theorem Holds.further {b : Book} {left left' : Nat} {failed : List Rule} (h : b.Holds left failed)
    (hlt : left' < left) : b.Holds left' [] where
  le := by have hle := h.le; omega
  failedAt := if_neg (by have hle := h.le; omega)

/-- A failure before the furthest place is not booked. -/
theorem note_of_lt (r : Rule) {left : Nat} {before after : Book} (h : after.left < left) :
    note r left before after = after := by
  have hat : after.failedAt left = [] := if_neg (by omega)
  rw [note, hat]
  simp only [List.length_nil]
  rw [if_neg (by omega), if_neg (by omega), if_neg (by omega)]

/-- The failure of a single lexeme is booked after what has failed at the place. -/
theorem Holds.note_self {b : Book} {left : Nat} {failed : List Rule} (h : b.Holds left failed)
    (r : Rule) : note r left b b = ⟨left, failed ++ [r]⟩ := by
  obtain ⟨hle, hat⟩ := h
  rw [note, if_neg (by omega)]
  rcases Nat.lt_or_eq_of_le hle with hlt | heq
  · have hnone : b.failedAt left = [] := if_neg (by omega)
    rw [if_neg (by omega), if_pos hlt, ← hat, hnone]
    rfl
  · have hall : b.failedAt left = b.failed := if_pos heq.symm
    rw [if_pos heq.symm, hall, List.take_length, ← hat, hall]

/-- A single failure inside a rule stands for the rule. -/
theorem Holds.note_one {b : Book} {left : Nat} {failed : List Rule} (h : b.Holds left failed)
    (r r' : Rule) : note r left b ⟨left, failed ++ [r']⟩ = ⟨left, failed ++ [r']⟩ := by
  rw [note, h.failedAt, (holds_self left _).failedAt, if_pos (by simp)]

/-- A rule takes the room of several failures inside it. -/
theorem Holds.note_several {b : Book} {left : Nat} {failed inside : List Rule}
    (h : b.Holds left failed) (r : Rule) (hinside : 2 ≤ inside.length) :
    note r left b ⟨left, failed ++ inside⟩ = ⟨left, failed ++ [r]⟩ := by
  rw [note, h.failedAt, (holds_self left _).failedAt, if_neg, if_pos rfl, List.take_left]
  rw [List.length_append]
  omega

end Book

/-! ### Names -/

theorem description_injective {e e' : Expectation} (h : e.description = e'.description) :
    e = e' := by
  rcases e with _ | _ | _ | _ | _ | _ | _ | _ | ⟨⟨⟩⟩ | _ <;>
    rcases e' with _ | _ | _ | _ | _ | _ | _ | _ | ⟨⟨⟩⟩ | _ <;>
    first | rfl | exact absurd h (by decide)

/-- Where different values have different images, the same ones come twice in both. -/
theorem map_eraseDups {α β : Type} [BEq α] [LawfulBEq α] [BEq β] [LawfulBEq β] {f : α → β}
    (hf : ∀ {a a'}, f a = f a' → a = a') (as : List α) :
    (as.map f).eraseDups = as.eraseDups.map f := by
  induction hn : as.length using Nat.strongRecOn generalizing as with
  | ind n ih =>
    subst hn
    cases as with
    | nil => rfl
    | cons a as =>
      have hne : ∀ b, (!(f b == f a)) = !(b == a) := by
        intro b
        rw [Bool.eq_iff_iff, Bool.not_eq_true', Bool.not_eq_true', beq_eq_false_iff_ne,
          beq_eq_false_iff_ne]
        exact not_congr ⟨hf, congrArg f⟩
      have hshorter := Nat.lt_succ_of_le (List.length_filter_le (fun b => !(b == a)) as)
      rw [List.map_cons, List.eraseDups_cons, List.eraseDups_cons, List.map_cons, List.filter_map]
      simp only [Function.comp_def, hne]
      rw [ih _ hshorter _ rfl]

/-- The names in a book are those of what was expected. -/
theorem Book.names_eq (b : Book) : b.names = b.expected.map Expectation.description := by
  rw [Book.names, Book.expected, ← map_eraseDups description_injective, List.map_map]
  rfl

/-! ### Single lexemes -/

section Leaves

variable {r : Rule} {l : Lexeme} {ls : List Lexeme} {b : Book}

theorem differs_cons (h : r.fits l = false) (ls : List Lexeme) :
    ∀ l' ∈ (l :: ls).head?, r.fits l' = false := by
  intro l' hl'
  cases hl'
  exact h

theorem runs_leaf (hbody : r.body = .lexeme r) (hfits : r.fits l = true) :
    Runs (.rule r) (l :: ls) b (some ls) b := by
  refine .rule ?_
  rw [hbody]
  exact .lexeme hfits

theorem runs_noLeaf (hbody : r.body = .lexeme r) (hdiffers : ∀ l ∈ ls.head?, r.fits l = false) :
    Runs (.rule r) ls b none (Book.note r ls.length b b) := by
  refine .noRule ?_
  rw [hbody]
  exact .noLexeme hdiffers

/-- The failure of a lexeme at the furthest place, or further on. -/
theorem runs_noLeaf_here {failed : List Rule} (hbody : r.body = .lexeme r)
    (hdiffers : ∀ l ∈ ls.head?, r.fits l = false) (hb : b.Holds ls.length failed) :
    Runs (.rule r) ls b none ⟨ls.length, failed ++ [r]⟩ := by
  have hrun := runs_noLeaf (b := b) hbody hdiffers
  rwa [hb.note_self] at hrun

theorem runs_noLeaf_next {failed : List Rule} (hbody : r.body = .lexeme r)
    (hdiffers : ∀ l ∈ ls.head?, r.fits l = false) :
    Runs (.rule r) ls ⟨ls.length, failed⟩ none ⟨ls.length, failed ++ [r]⟩ :=
  runs_noLeaf_here hbody hdiffers (Book.holds_self _ _)

/-- The failure of a lexeme before the furthest place. -/
theorem runs_noLeaf_before (hbody : r.body = .lexeme r)
    (hdiffers : ∀ l ∈ ls.head?, r.fits l = false) (hb : b.left < ls.length) :
    Runs (.rule r) ls b none b := by
  have hrun := runs_noLeaf (b := b) hbody hdiffers
  rwa [Book.note_of_lt r hb] at hrun

end Leaves

/-! ### Phrases between marks -/

section Enclosed

variable {r : Rule} {left right : Mark} {p : Phrase} {ls ms ns : List Lexeme} {b b' b'' : Book}
  (hbody : r.body = .enclosed left p right)

include hbody

theorem runs_enclosed (run : Runs p ls b (some ms) b')
    (close : Runs (.rule (.mark right)) ms b' (some ns) b'') :
    Runs (.rule r) (.mark left :: ls) b (some ns) b'' := by
  refine .rule ?_
  rw [hbody]
  exact .seq (runs_leaf rfl (beq_self_eq_true left)) (.seq run close)

theorem runs_noOpen {failed : List Rule}
    (hdiffers : ∀ l ∈ ls.head?, Rule.fits (.mark left) l = false)
    (hb : b.Holds ls.length failed) :
    Runs (.rule r) ls b none ⟨ls.length, failed ++ [.mark left]⟩ := by
  have hrun : Runs r.body ls b none ⟨ls.length, failed ++ [.mark left]⟩ := by
    rw [hbody]
    exact .noSeq (runs_noLeaf_here rfl hdiffers hb)
  have hrule := Runs.noRule hrun
  rwa [hb.note_one] at hrule

/-- What fails behind the first mark is not booked for the rule. -/
theorem runs_noEnclosed (run : Runs (.seq p (.rule (.mark right))) ls b none b')
    (hle : b'.left ≤ ls.length) : Runs (.rule r) (.mark left :: ls) b none b' := by
  have hrun : Runs r.body (.mark left :: ls) b none b' := by
    rw [hbody]
    exact .seq (runs_leaf rfl (beq_self_eq_true left)) run
  have hlt : b'.left < (Lexeme.mark left :: ls).length := Nat.lt_succ_of_le hle
  have hrule := Runs.noRule hrun
  rwa [Book.note_of_lt r hlt] at hrule

end Enclosed

/-! ### Along the reading -/

open Reading

/-- The binary connectives, in the order in which they are tried. -/
def binaries : List Connective :=
  [.therefore, .implies, .equiv, .or, .and, .compose]

/-- What is tried last behind an operand. -/
def ending (r : Reading) : Rule :=
  if r.outer.isEmpty then .endOfText else .mark .closeParen

/-- The rules that fail where the reading stops, in the order in which they are tried. -/
def tried (r : Reading) : List Rule :=
  match r.site with
  | .operand =>
    if r.group.negated then [.symbol, .mark .openParen]
    else if r.group.waiting.isEmpty then [.expression]
    else [.connective .not, .symbol, .mark .openParen]
  | .called _ => [.mark .openParen] ++ binaries.map .connective ++ [ending r]
  | .complete _ => binaries.map .connective ++ [ending r]
  | .name .. => [.identifier]
  | .named .. => [.mark .colon]
  | .value _ => [.mark .openBracket, .literal, .identifier]
  | .opened _ => [.mark .openBracket, .literal, .identifier, .mark .closeBracket]
  | .listed .. => [.mark .comma, .mark .closeBracket]
  | .filled .. => [.mark .comma, .mark .closeParen]

/-- What is tried is what is expected. -/
theorem expected_tried (r : Reading) (left : Nat) : Book.expected ⟨left, tried r⟩ = r.expected := by
  obtain ⟨⟨waiting, negated⟩, outer, site⟩ := r
  cases site with
  | operand => cases negated <;> cases waiting <;> rfl
  | called s => cases outer <;> rfl
  | complete x => cases outer <;> rfl
  | _ => rfl

theorem names_tried (r : Reading) (left : Nat) :
    Book.names ⟨left, tried r⟩ = r.expected.map Expectation.description := by
  rw [Book.names_eq, expected_tried]

/-- The reading `r` passes over the first lexemes of `ls` and is `r'` before the rest. -/
def Passes (r : Reading) (ls ms : List Lexeme) (r' : Reading) : Prop :=
  ∃ passed, ls = passed ++ ms ∧ r.advance passed = some r'

section Passes

variable {r r' r'' : Reading} {l : Lexeme} {ls ms ns : List Lexeme}

theorem Passes.refl (r : Reading) (ls : List Lexeme) : Passes r ls ls r :=
  ⟨[], rfl, rfl⟩

theorem Passes.step (hstep : r.step l = some r') (h : Passes r' ls ms r'') :
    Passes r (l :: ls) ms r'' := by
  obtain ⟨passed, rfl, hadvance⟩ := h
  refine ⟨l :: passed, rfl, ?_⟩
  rw [advance_cons, hstep, Option.bind_some, hadvance]

theorem Passes.trans (h : Passes r ls ms r') (h' : Passes r' ms ns r'') : Passes r ls ns r'' := by
  obtain ⟨passed, rfl, hadvance⟩ := h
  obtain ⟨passed', rfl, hadvance'⟩ := h'
  refine ⟨passed ++ passed', (List.append_assoc ..).symm, ?_⟩
  rw [advance_append_of_eq_some hadvance, hadvance']

theorem Passes.length_le (h : Passes r ls ms r') : ms.length ≤ ls.length := by
  obtain ⟨passed, rfl, -⟩ := h
  rw [List.length_append]
  omega

end Passes

/-- The reading stops within the row, and the book holds what is tried at the stop. -/
def Stuck (r : Reading) (ls : List Lexeme) (b : Book) : Prop :=
  ∃ ms r', Passes r ls ms r' ∧ (∀ l ∈ ms.head?, r'.step l = none) ∧ b = ⟨ms.length, tried r'⟩

section Stuck

variable {r r' : Reading} {l : Lexeme} {ls ms : List Lexeme} {b : Book}

theorem Stuck.here (hstop : ∀ l ∈ ls.head?, r.step l = none) : Stuck r ls ⟨ls.length, tried r⟩ :=
  ⟨ls, r, .refl r ls, hstop, rfl⟩

theorem Stuck.of_passes (hpasses : Passes r ls ms r') (h : Stuck r' ms b) : Stuck r ls b := by
  obtain ⟨ns, r'', hrest, hstop, rfl⟩ := h
  exact ⟨ns, r'', hpasses.trans hrest, hstop, rfl⟩

theorem Stuck.step (hstep : r.step l = some r') (h : Stuck r' ls b) : Stuck r (l :: ls) b :=
  h.of_passes (.step hstep (.refl r' ls))

theorem Stuck.left_le (h : Stuck r ls b) : b.left ≤ ls.length := by
  obtain ⟨ms, r', hpasses, -, rfl⟩ := h
  exact hpasses.length_le

end Stuck

end Sigil.Descent
