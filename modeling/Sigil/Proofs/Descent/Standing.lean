import Sigil.Grammar.Descent.Read
import Sigil.Proofs.Places

/-! # Places in a row and in a text

    A reader of lexemes counts how many of them are left, a reader of
    characters how many bytes.  Behind a place in a text there are the last
    of its tokens (`Descent.Precedes`), and a place without blanks behind it
    is where the first of these begins.  So both kinds of places come in the
    same order, and a book kept in bytes is the one kept in lexemes
    (`Descent.Same`): it books the same rules, at the place where the
    token begins at which the other one books them. -/

namespace Sigil.Descent

open Text Token Lexeme

/-! ### Places before tokens -/

/-- No blank stands behind the place. -/
def Tight (p : Place) : Prop :=
  ∀ c ∈ p.chars.head?, isBlank c = false

theorem tight_skipBlanks (p : Place) : Tight p.skipBlanks := by
  rw [Tight, Place.chars_skipBlanks]
  exact head?_dropWhile p.chars

/-- Behind the place there are the lexemes `ls`, those of the last of the tokens. -/
def Precedes (text : String) (tokens : List Token) (p : Place) (ls : List Lexeme) : Prop :=
  ∃ passed rest, tokens = passed ++ rest ∧ rest.map (·.lexeme) = ls ∧
    p.left ≤ width text.toList ∧ readFrom (width text.toList - p.left) p.chars = .ok rest

/-- How many bytes are left where the last `n` tokens of a text begin. -/
def leftAt (text : String) (tokens : List Token) (n : Nat) : Nat :=
  width text.toList - placeAt (width text.toList) tokens (tokens.length - n)

section Precedes

variable {text : String} {tokens : List Token} {p : Place} {l : Lexeme} {ls ms : List Lexeme}

theorem precedes_start (h : readAll text = .ok tokens) :
    Precedes text tokens (.before text.toList) (tokens.map (·.lexeme)) := by
  refine ⟨[], tokens, rfl, rfl, Nat.le_refl _, ?_⟩
  show readFrom (width text.toList - width text.toList) text.toList = _
  rwa [Nat.sub_self]

theorem Precedes.length_le (h : Precedes text tokens p ls) : ls.length ≤ tokens.length := by
  obtain ⟨passed, rest, rfl, rfl, -⟩ := h
  rw [List.length_map, List.length_append]
  omega

/-- A place has only one row of lexemes behind it. -/
theorem Precedes.unique (h : Precedes text tokens p ls) (h' : Precedes text tokens p ms) :
    ls = ms := by
  obtain ⟨passed, rest, -, rfl, -, hread⟩ := h
  obtain ⟨passed', rest', -, rfl, -, hread'⟩ := h'
  rw [Except.ok.inj (hread.symm.trans hread')]

/-- Blanks at the head of characters are passed over on the way to the first token. -/
theorem readFrom_dropWhile (start : Nat) (cs : List Char) :
    readFrom start cs
      = readFrom (start + width cs - width (cs.dropWhile isBlank)) (cs.dropWhile isBlank) := by
  induction cs generalizing start with
  | nil => rfl
  | cons c cs ih =>
    -- a blank moves what follows it by its width
    cases hc : isBlank c with
    | false =>
      rw [List.dropWhile_cons_of_neg (Bool.eq_false_iff.1 hc), Nat.add_sub_cancel]
    | true => rw [List.dropWhile_cons_of_pos hc, readFrom_blank hc, ih, width_cons, Nat.add_assoc]

theorem Precedes.skipBlanks (h : Precedes text tokens p ls) :
    Precedes text tokens p.skipBlanks ls := by
  obtain ⟨passed, rest, happ, hlexemes, hle, hread⟩ := h
  have hskip := p.left_skipBlanks_le
  refine ⟨passed, rest, happ, hlexemes, by omega, ?_⟩
  rw [readFrom_dropWhile, ← p.chars_skipBlanks, ← p.left_eq, ← p.skipBlanks.left_eq] at hread
  rwa [Nat.sub_add_cancel hle] at hread

/-- A tight place is at the end of the text, or a token begins there. -/
theorem exists_of_tight {start : Nat} {rest : List Token} (htight : Tight p)
    (h : readFrom start p.chars = .ok rest) :
    (p.chars = [] ∧ rest = []) ∨
      ∃ t cs later, rest = t :: later ∧ t.span.start = start ∧
        scan p.chars = some (t.lexeme, cs) ∧ p.chars = t.lexeme.chars ++ cs ∧
        readFrom (start + width t.lexeme.chars) cs = .ok later := by
  cases hchars : p.chars with
  | nil =>
    rw [hchars, readFrom] at h
    exact .inl ⟨rfl, (Except.ok.inj h).symm⟩
  | cons c ds =>
    have hc : isBlank c = false := htight c (by rw [hchars]; rfl)
    rw [hchars] at h
    -- it is no blank, so a lexeme is scanned there or the text is not read
    cases hscan : scan (c :: ds) with
    | none =>
      rw [readFrom_stuck hc hscan] at h
      cases h
    | some found =>
      obtain ⟨l, cs⟩ := found
      obtain ⟨happ, hvalid, hstops⟩ := scan_eq_some_iff.1 hscan
      rw [happ, readFrom_chars_append hvalid hstops] at h
      cases hlater : readFrom (start + width l.chars) cs with
      | error refusal =>
        rw [hlater] at h
        cases h
      | ok later =>
        rw [hlater] at h
        exact .inr ⟨_, cs, later, (Except.ok.inj h).symm, rfl, rfl, happ, hlater⟩

theorem Precedes.chars_eq_nil (h : Precedes text tokens p []) (htight : Tight p) :
    p.chars = [] := by
  obtain ⟨passed, rest, -, hlexemes, -, hread⟩ := h
  obtain rfl := List.map_eq_nil_iff.1 hlexemes
  rcases exists_of_tight htight hread with ⟨hnil, -⟩ | ⟨t, cs, later, hrest, -⟩
  · exact hnil
  · cases hrest

/-- The first lexeme is scanned at a tight place, and the others are behind it. -/
theorem Precedes.exists_scan (h : Precedes text tokens p (l :: ls)) (htight : Tight p) :
    ∃ cs, scan p.chars = some (l, cs) ∧ p.chars = l.chars ++ cs ∧
      Precedes text tokens (.before cs) ls := by
  obtain ⟨passed, rest, happ, hlexemes, hle, hread⟩ := h
  rcases exists_of_tight htight hread with
    ⟨-, rfl⟩ | ⟨t, cs, later, rfl, -, hscan, hsplit, hlater⟩
  · cases hlexemes
  · obtain ⟨rfl, rfl⟩ := List.cons.inj hlexemes
    have hleft : p.left = width t.lexeme.chars + width cs := by
      rw [p.left_eq, hsplit, width_append]
    have hstart : width text.toList - p.left + width t.lexeme.chars
        = width text.toList - width cs := by
      omega
    rw [hstart] at hlater
    refine ⟨cs, hscan, hsplit, passed ++ [t], later, ?_, rfl, ?_, hlater⟩
    · rw [happ, List.append_assoc, List.singleton_append]
    · show width cs ≤ _
      omega

/-- A tight place is where the first of the tokens behind it begins. -/
theorem Precedes.left_eq (h : Precedes text tokens p ls) (htight : Tight p) :
    p.left = leftAt text tokens ls.length := by
  obtain ⟨passed, rest, rfl, rfl, hle, hread⟩ := h
  -- the first token behind the place stands behind those that are passed
  have hindex : (passed ++ rest).length - (rest.map (·.lexeme)).length = passed.length := by
    rw [List.length_append, List.length_map, Nat.add_sub_cancel]
  rw [leftAt, hindex]
  rcases exists_of_tight htight hread with ⟨hnil, rfl⟩ | ⟨t, cs, later, rfl, hstart, -⟩
  · rw [List.append_nil, placeAt_length, p.left_eq, hnil, width_nil, Nat.sub_self]
  · have hplace : placeAt (width text.toList) (passed ++ t :: later) passed.length
        = width text.toList - p.left := by
      rw [placeAt, List.getElem?_append_right (Nat.le_refl _), Nat.sub_self]
      exact hstart
    rw [hplace]
    omega

/-- Every lexeme has a byte. -/
theorem Precedes.length_le_left (h : Precedes text tokens p ls) : ls.length ≤ p.left := by
  obtain ⟨passed, rest, -, rfl, -, hread⟩ := h
  have hwidth : ∀ {start cs rest}, Cut start cs rest → rest.length ≤ width cs := by
    intro start cs rest hcut
    induction hcut with
    | nil => exact Nat.le_refl _
    | blank _ _ ih =>
      rw [width_cons]
      omega
    | cons valid _ _ ih =>
      have hpos := width_pos valid.chars_ne_nil
      rw [width_append, List.length_cons]
      omega
  rw [List.length_map, p.left_eq]
  exact hwidth (cut_of_readFrom hread)

end Precedes

/-! ### Places in order -/

section Order

variable {text : String} {tokens : List Token} (hread : readAll text = .ok tokens)

include hread

theorem leftAt_lt {m n : Nat} (hmn : m < n) (hn : n ≤ tokens.length) :
    leftAt text tokens m < leftAt text tokens n := by
  have hcut := cut_of_readFrom hread
  have hindex : tokens.length - n < tokens.length - m := by omega
  have hlt := placeAt_lt hcut hindex (Nat.sub_le _ _)
  have hle := placeAt_le hcut (k := tokens.length - m) (by omega)
  -- the more tokens are left, the nearer to the start
  rw [leftAt, leftAt]
  omega

theorem leftAt_lt_iff {m n : Nat} (hm : m ≤ tokens.length) (hn : n ≤ tokens.length) :
    leftAt text tokens m < leftAt text tokens n ↔ m < n := by
  refine ⟨fun h => ?_, fun h => leftAt_lt hread h hn⟩
  rcases Nat.lt_trichotomy m n with hlt | rfl | hgt
  · exact hlt
  · omega
  · have hlt := leftAt_lt hread hgt hm
    omega

theorem leftAt_inj {m n : Nat} (hm : m ≤ tokens.length) (hn : n ≤ tokens.length) :
    leftAt text tokens m = leftAt text tokens n ↔ m = n := by
  have hlt := leftAt_lt_iff hread hm hn
  have hgt := leftAt_lt_iff hread hn hm
  omega

end Order

/-! ### Books in lexemes and in bytes -/

/-- The book `B`, kept in bytes, is the book `b`, kept in lexemes.  As long as nothing has
failed, it may be at the blanks before the first lexeme. -/
structure Same (text : String) (tokens : List Token) (b B : Book) : Prop where
  failed : B.failed = b.failed
  le : b.left ≤ tokens.length
  left : B.left = leftAt text tokens b.left ∨
    b.failed = [] ∧ b.left = tokens.length ∧ leftAt text tokens tokens.length < B.left

section Same

variable {text : String} {tokens : List Token} {b b' B B' : Book} {n : Nat}

theorem same_blank : Same text tokens (.blank tokens.length) (.blank (width text.toList)) where
  failed := rfl
  le := Nat.le_refl _
  left := by
    have hle : leftAt text tokens tokens.length ≤ width text.toList := Nat.sub_le _ _
    show width text.toList = _ ∨ _ ∧ _ ∧ _ < width text.toList
    rcases Nat.lt_or_eq_of_le hle with hlt | heq
    · exact .inr ⟨rfl, rfl, hlt⟩
    · exact .inl heq.symm

variable (hread : readAll text = .ok tokens)

include hread

theorem Same.failedAt (h : Same text tokens b B) (hn : n ≤ tokens.length) :
    B.failedAt (leftAt text tokens n) = b.failedAt n := by
  rw [Book.failedAt, Book.failedAt, h.failed]
  -- an empty book has nothing at any place
  rcases h.left with hleft | ⟨hnil, -, -⟩
  · rw [hleft]
    by_cases heq : b.left = n
    · rw [if_pos heq, heq, if_pos rfl]
    · rw [if_neg heq, if_neg (mt (leftAt_inj hread h.le hn).1 heq)]
  · rw [hnil, ite_self, ite_self]

/-- The failure of a rule is noted alike in both. -/
theorem Same.note (r : Rule) (h : Same text tokens b B) (h' : Same text tokens b' B')
    (hn : n ≤ tokens.length) :
    Same text tokens (Book.note r n b b') (Book.note r (leftAt text tokens n) B B') := by
  have hlone : ∀ rules, Same text tokens ⟨n, rules⟩ ⟨leftAt text tokens n, rules⟩ :=
    fun rules => ⟨rfl, hn, .inl rfl⟩
  rw [Book.note, Book.note, h.failedAt hread hn, h'.failedAt hread hn, h'.failed]
  -- a rule that has failed for one rule inside it is not noted itself
  by_cases hone : (b'.failedAt n).length = (b.failedAt n).length + 1
  · rw [if_pos hone, if_pos hone]
    exact h'
  · rw [if_neg hone, if_neg hone]
    rcases h'.left with hleft | ⟨hnil, hall, hbefore⟩
    · rw [hleft]
      simp only [leftAt_inj hread h'.le hn, leftAt_lt_iff hread hn h'.le]
      split
      · exact hlone _
      · split
        · exact hlone _
        · exact h'
    · -- nothing has failed yet, and the rule is the first
      have hle := leftAt_lt_iff hread (Nat.le_refl tokens.length) hn
      have hbehind : leftAt text tokens n < B'.left := by omega
      have hne : B'.left ≠ leftAt text tokens n := by omega
      rw [if_neg hne, if_pos hbehind]
      split
      · rw [hnil, List.take_nil, List.nil_append]
        exact hlone _
      · rw [if_pos (by omega)]
        exact hlone _

end Same

end Sigil.Descent
