import Sigil.Fault
import Sigil.Text.Blank
import Sigil.Text.Width

/-! # From text to tokens

    Reading cuts a text into lexemes from left to right.  At each place
    there is at most one class of lexeme that fits, and the longest lexeme
    of that class is taken; blanks before it are skipped.  A place where no
    lexeme fits ends the reading with a fault.

    Key definitions: `Lexeme.scan`, `Token.readAll`.
    Key theorem: `Lexeme.scan_append` — scanning loses nothing, so every
    step leaves a shorter text. -/

namespace Sigil

namespace Lexeme

/-! ### One lexeme -/

/-- Can `c` stand in an identifier after its first letter? -/
def isNamePart (c : Char) : Bool :=
  c.isAlphanum || c == '_'

/-- Is this an identifier: a letter, then letters, digits and underscores? -/
def isName : List Char → Bool
  | [] => false
  | c :: cs => c.isAlpha && cs.all isNamePart

/-- The rest of a quoted text, after its opening quote.  It ends at the next
such quote; nothing in between is special. -/
def scanLiteral (quote : Quote) (cs : List Char) : Option (Lexeme × List Char) :=
  match cs.dropWhile (· != quote.char) with
  | [] => none
  | _ :: rest =>
    some (.literal quote (String.ofList (cs.takeWhile (· != quote.char))), rest)

/-- The lexeme that a single character is. -/
def ofChar? (c : Char) : Option Lexeme :=
  ((Connective.ofGlyph? c).map .connective).or ((Mark.ofGlyph? c).map .mark)

/-- The lexeme at the head of `cs`, with the characters after it. -/
def scan : List Char → Option (Lexeme × List Char)
  | [] => none
  | c :: cs =>
    match Symbol.scan (c :: cs) with
    | some (s, rest) => some (.symbol s, rest)
    | none =>
      if c.isAlpha then
        some (.identifier (String.ofList (c :: cs.takeWhile isNamePart)),
          cs.dropWhile isNamePart)
      else
        match Quote.ofChar? c with
        | some quote => scanLiteral quote cs
        | none => (ofChar? c).map fun l => (l, cs)

theorem chars_of_ofChar? {c : Char} {l : Lexeme} (h : ofChar? c = some l) :
    l.chars = [c] := by
  unfold ofChar? at h
  cases hc : Connective.ofGlyph? c with
  | some k =>
    simp only [hc, Option.map_some, Option.some_or, Option.some.injEq] at h
    subst h
    simp [chars, Connective.glyph_of_ofGlyph? hc]
  | none =>
    simp only [hc, Option.map_none, Option.none_or, Option.map_eq_some_iff] at h
    obtain ⟨m, hm, rfl⟩ := h
    simp [chars, Mark.glyph_of_ofGlyph? hm]

theorem scanLiteral_append {q : Quote} {cs rest : List Char} {l : Lexeme}
    (h : scanLiteral q cs = some (l, rest)) : q.char :: cs = l.chars ++ rest := by
  unfold scanLiteral at h
  split at h
  · cases h
  · next c r hd =>
    simp only [Option.some.injEq, Prod.mk.injEq] at h
    obtain ⟨rfl, rfl⟩ := h
    have hc : c = q.char := by
      have := List.head?_dropWhile_not (· != q.char) cs
      rw [hd] at this
      simpa using this
    have := List.takeWhile_append_dropWhile (p := (· != q.char)) (l := cs)
    rw [hd, hc] at this
    simp [chars, this]

/-- Scanning splits its input: the lexeme's characters, then the rest. -/
theorem scan_append {cs rest : List Char} {l : Lexeme}
    (h : scan cs = some (l, rest)) : cs = l.chars ++ rest := by
  cases cs with
  | nil => cases h
  | cons c cs =>
    rw [scan] at h
    split at h
    · next s r hs =>
      simp only [Option.some.injEq, Prod.mk.injEq] at h
      obtain ⟨rfl, rfl⟩ := h
      exact Symbol.scan_append hs
    · split at h
      · simp only [Option.some.injEq, Prod.mk.injEq] at h
        obtain ⟨rfl, rfl⟩ := h
        simp [chars]
      · split at h
        · next q hq =>
          rw [← Quote.char_of_ofChar? hq]
          exact scanLiteral_append h
        · obtain ⟨k, hk, he⟩ := Option.map_eq_some_iff.1 h
          obtain ⟨rfl, rfl⟩ := Prod.mk.inj he
          rw [chars_of_ofChar? hk]
          rfl

theorem chars_ne_nil_of_scan {cs rest : List Char} {l : Lexeme}
    (h : scan cs = some (l, rest)) : l.chars ≠ [] := by
  cases cs with
  | nil => cases h
  | cons c cs =>
    rw [scan] at h
    split at h
    · cases h; exact Symbol.chars_ne_nil _
    · split at h
      · cases h; simp [chars]
      · split at h
        · unfold scanLiteral at h
          split at h
          · cases h
          · cases h; exact List.cons_ne_nil _ _
        · obtain ⟨k, hk, he⟩ := Option.map_eq_some_iff.1 h
          cases he
          simp [chars_of_ofChar? hk]

/-- What is left after a lexeme is shorter than what was there. -/
theorem length_lt_of_scan {cs rest : List Char} {l : Lexeme}
    (h : scan cs = some (l, rest)) : rest.length < cs.length := by
  have := List.length_pos_iff.2 (chars_ne_nil_of_scan h)
  rw [scan_append h, List.length_append]
  omega

end Lexeme

namespace Token

/-! ### All tokens -/

/-- Why no lexeme begins with `c`, at byte `start` of a text that goes on
with `cs` after it.  An opened literal takes the rest of the text. -/
def unscannable (start : Nat) (c : Char) (cs : List Char) : Refusal :=
  match Quote.ofChar? c with
  | some quote => ⟨.unterminated quote, ⟨start, start + Text.width (c :: cs)⟩⟩
  | none => ⟨.unreadable c, ⟨start, start + c.utf8Size⟩⟩

/-- The tokens of `cs`, which stands at byte `start` of its text. -/
def readFrom (start : Nat) : List Char → Except Refusal (List Token)
  | [] => .ok []
  | c :: cs =>
    if Text.isBlank c then readFrom (start + c.utf8Size) cs
    else
      match _h : Lexeme.scan (c :: cs) with
      | none => .error (unscannable start c cs)
      | some (lexeme, rest) =>
        let stop := start + Text.width lexeme.chars
        (readFrom stop rest).map (⟨lexeme, ⟨start, stop⟩⟩ :: ·)
termination_by cs => cs.length
decreasing_by
  · simp
  · exact Lexeme.length_lt_of_scan ‹_›

/-- The tokens of a text. -/
def readAll (text : String) : Except Refusal (List Token) :=
  readFrom 0 text.toList

end Token

end Sigil
