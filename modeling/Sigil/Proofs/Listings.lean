import Sigil.Cli.Listing
import Sigil.Proofs.Commands
import Mathlib.Data.List.Forall2

/-! # Lines and tokens

    The listing of tokens has a line for each token, from which all is read
    back that is said of the token, unless a literal holds a line feed.  The
    text of a token is written as it is, so that such a literal breaks its
    line (`Cli.lists_tokens_iff`, `Cli.not_lists_tokens_feed`).  Blanks in a
    literal do no harm, since a line is read from both its ends. -/

namespace Sigil

open Lexeme

/-! ### Spans -/

namespace Span

theorem toList_text (s : Span) :
    s.text.toList = Nat.toDigits 10 s.start ++ '.' :: '.' :: Nat.toDigits 10 s.stop := by
  have htext : s.text = s.start.repr ++ ".." ++ s.stop.repr := rfl
  simp [htext, Nat.toList_repr]

theorem all_isDigit_toDigits (n : Nat) : (Nat.toDigits 10 n).all Char.isDigit = true := by
  rw [List.all_eq_true]
  intro c hc
  exact Nat.isDigit_of_mem_toDigits (by omega) (by omega) hc

/-- A span is written with digits and points, so that it has no blanks. -/
theorem notMem_text_of_isBlank {c : Char} (h : Text.isBlank c = true) (s : Span) :
    c ∉ s.text.toList := by
  have hdigits (n : Nat) : c ∉ Nat.toDigits 10 n := by
    intro hmem
    have hdigit := Text.toNat_of_isDigit (List.all_eq_true.1 (all_isDigit_toDigits n) c hmem)
    have hblank := Text.toNat_of_isBlank h
    omega
  have hpoint : c ≠ '.' := by
    rintro rfl
    cases h
  rw [toList_text, List.mem_append, List.mem_cons, List.mem_cons]
  rintro (hstart | heq | heq | hstop)
  · exact hdigits _ hstart
  · exact hpoint heq
  · exact hpoint heq
  · exact hdigits _ hstop

theorem ofText?_text (s : Span) : ofText? s.text = some s := by
  have hpoint : ∀ c ∈ ('.' :: '.' :: Nat.toDigits 10 s.stop).head?, c.isDigit = false := by
    intro c hc
    obtain rfl : '.' = c := Option.some.inj hc
    rfl
  rw [ofText?, toList_text,
    Text.dropWhile_append_of_stop (all_isDigit_toDigits s.start) hpoint,
    Text.takeWhile_append_of_stop (all_isDigit_toDigits s.start) hpoint]
  simp only [all_isDigit_toDigits, Nat.ofDigitChars_ten_toDigits, if_true]

end Span

/-! ### Columns -/

namespace Text

theorem all_ne_of_notMem {c : Char} {cs : List Char} (h : c ∉ cs) :
    cs.all (· != c) = true :=
  List.all_eq_true.2 fun _ hd => bne_iff_ne.2 (ne_of_mem_of_not_mem hd h)

theorem length_padded {width : Nat} {s : String} (h : s.length ≤ width) :
    (padded width s).toList.length = width := by
  rw [padded, String.toList_append, String.toList_ofList, List.length_append,
    List.length_replicate, String.length_toList]
  exact Nat.add_sub_of_le h

theorem takeWhile_padded {s : String} (h : ' ' ∉ s.toList) (width : Nat) :
    (padded width s).toList.takeWhile (· != ' ') = s.toList := by
  rw [padded, String.toList_append, String.toList_ofList]
  apply takeWhile_append_of_stop (all_ne_of_notMem h)
  intro c hc
  rw [List.eq_of_mem_replicate (List.mem_of_mem_head? hc)]
  rfl

end Text

/-- The name of a class has no blanks and fits into its column. -/
theorem Lexeme.kind_fits (l : Lexeme) :
    l.kind.toList.all (!Text.isBlank ·) = true ∧ l.kind.length ≤ Cli.Action.kindWidth := by
  cases l with
  | symbol | identifier | literal => rw [kind]; decide
  | connective c => cases c <;> decide
  | mark m => cases m <;> decide

theorem Lexeme.notMem_kind_of_isBlank {c : Char} (h : Text.isBlank c = true) (l : Lexeme) :
    c ∉ l.kind.toList := by
  intro hmem
  have hblank := List.all_eq_true.1 l.kind_fits.1 c hmem
  rw [h] at hblank
  cases hblank

namespace Cli

namespace Listed

theorem toList_line (l : Listed) :
    l.line.toList = (Text.padded Action.kindWidth l.kind).toList
      ++ ' ' :: (l.text.toList ++ ' ' :: ' ' :: l.span.text.toList) := by
  simp [line]

/-- A line is read back: the class up to the first blank of its column, and the span from
the other end of the line up to a blank. -/
theorem ofLine?_line {l : Listed} (hkind : ' ' ∉ l.kind.toList)
    (hwidth : l.kind.length ≤ Action.kindWidth) : ofLine? l.line = some l := by
  have hcolumn := Text.length_padded hwidth
  have htake : (l.line.toList.take Action.kindWidth).takeWhile (· != ' ') = l.kind.toList := by
    rw [toList_line, List.take_left' hcolumn, Text.takeWhile_padded hkind]
  have hdrop : (l.line.toList.drop (Action.kindWidth + 1)).reverse
      = l.span.text.toList.reverse ++ ' ' :: ' ' :: l.text.toList.reverse := by
    rw [toList_line, List.append_cons, List.drop_left' (by simp [hcolumn])]
    simp
  have hspan : l.span.text.toList.reverse.all (· != ' ') = true := by
    rw [List.all_reverse]
    exact Text.all_ne_of_notMem (Span.notMem_text_of_isBlank rfl l.span)
  have hblank : ∀ c ∈ (' ' :: ' ' :: l.text.toList.reverse).head?, (c != ' ') = false := by
    intro c hc
    obtain rfl : ' ' = c := Option.some.inj hc
    rfl
  unfold ofLine?
  simp only [htake, hdrop, Text.dropWhile_append_of_stop hspan hblank,
    Text.takeWhile_append_of_stop hspan hblank, List.reverse_reverse, String.ofList_toList,
    Span.ofText?_text, Option.map_some]

end Listed

/-! ### Lines of tokens -/

/-- The output is a line for each token, in order, each ended by a line feed, and from a
line alone is read back what is said of its token. -/
def Lists (output : String) (tokens : List Token) : Prop :=
  ∃ lines, Text.lines output = lines ++ [""] ∧
    List.Forall₂ (fun line t => Listed.ofLine? line = some (.ofToken t)) lines tokens

theorem tokenLine_eq (t : Token) :
    Action.tokenLine false t = (Listed.ofToken t).line ++ "\n" := by
  simp [Action.tokenLine, Ink.paint, Listed.line, Listed.ofToken, String.append_assoc]

theorem Listed.ofLine?_ofToken (t : Token) : ofLine? (ofToken t).line = some (ofToken t) :=
  ofLine?_line (t.lexeme.notMem_kind_of_isBlank rfl) t.lexeme.kind_fits.2

/-- Line feeds come into a line from the text of the token alone. -/
theorem Listed.count_feed_line (t : Token) :
    (ofToken t).line.toList.count '\n' = t.lexeme.chars.count '\n' := by
  have hcolumn : '\n' ∉ (Text.padded Action.kindWidth t.lexeme.kind).toList := by
    rw [Text.padded, String.toList_append, String.toList_ofList, List.mem_append]
    rintro (hkind | hblank)
    · exact t.lexeme.notMem_kind_of_isBlank rfl hkind
    · cases List.eq_of_mem_replicate hblank
  have hspan : '\n' ∉ t.span.text.toList := Span.notMem_text_of_isBlank rfl t.span
  have hline : (ofToken t).line.toList = (Text.padded Action.kindWidth t.lexeme.kind).toList
      ++ ' ' :: (t.lexeme.chars ++ ' ' :: ' ' :: t.span.text.toList) := by
    rw [toList_line, ofToken, Lexeme.text, String.toList_ofList]
  rw [hline]
  simp [List.count_eq_zero_of_not_mem hcolumn, List.count_eq_zero_of_not_mem hspan]

/-- The listing has a line feed for each token, and those of the texts. -/
theorem count_feed_listing (tokens : List Token) :
    (String.join (tokens.map (Action.tokenLine false))).toList.count '\n'
      = tokens.length + (tokens.flatMap fun t => t.lexeme.chars).count '\n' := by
  induction tokens with
  | nil => rfl
  | cons t tokens ih =>
    have hfirst : (Action.tokenLine false t).toList.count '\n'
        = t.lexeme.chars.count '\n' + 1 := by
      rw [tokenLine_eq, String.toList_append, List.count_append, Listed.count_feed_line]
      rfl
    rw [List.map_cons, String.join_cons, String.toList_append, List.count_append, hfirst, ih,
      List.flatMap_cons, List.count_append, List.length_cons]
    omega

/-- A listing has its tokens line by line just when no text of a token holds a line feed. -/
theorem lists_listing_iff {tokens : List Token} :
    Lists (String.join (tokens.map (Action.tokenLine false))) tokens
      ↔ ∀ t ∈ tokens, '\n' ∉ t.lexeme.chars := by
  constructor
  · rintro ⟨lines, hlines, hread⟩
    -- One line feed for each token is all there is, so that the texts have none.
    have hlength := congrArg List.length hlines
    rw [Text.length_lines, count_feed_listing, List.length_append, hread.length_eq] at hlength
    have hcount : (tokens.flatMap fun t => t.lexeme.chars).count '\n' = 0 := by
      simpa using hlength
    intro t ht hfeed
    exact List.count_eq_zero.1 hcount (List.mem_flatMap_of_mem ht hfeed)
  · intro h
    have hended : tokens.map (Action.tokenLine false)
        = (tokens.map fun t => (Listed.ofToken t).line).map (· ++ "\n") := by
      rw [List.map_map]
      exact List.map_congr_left fun t _ => tokenLine_eq t
    refine ⟨tokens.map fun t => (Listed.ofToken t).line, ?_, ?_⟩
    · rw [hended]
      apply Text.lines_join
      intro line hline
      obtain ⟨t, ht, rfl⟩ := List.mem_map.1 hline
      rw [← List.count_eq_zero, Listed.count_feed_line, List.count_eq_zero]
      exact h t ht
    · rw [List.forall₂_map_left_iff, List.forall₂_same]
      exact fun t _ => Listed.ofLine?_ofToken t

section Runs

variable {input : Input} {console : Console} {world : World} {text : String} {tokens : List Token}
  (hinput : input.Gives console world text) (hread : Token.readAll text = .ok tokens)
  {color : ColorMode} (hcolor : color.paints console = false) (verbosity : Nat)

include hinput hread hcolor

theorem lists_run_iff :
    Lists (runOn console ⟨.single .tokens input, verbosity, color⟩ world).output tokens
      ↔ ∀ t ∈ tokens, '\n' ∉ t.lexeme.chars := by
  obtain ⟨houtput, -⟩ := (run_tokens_answers hinput verbosity color).success tokens hread
  rw [houtput, hcolor, lists_listing_iff]

/-- The listing of a text, without colors, is a line for each of its tokens, in order, and
each line tells the class, the text and the span of its token, just when no literal of the
text holds a line feed. -/
theorem lists_tokens_iff :
    Lists (runOn console ⟨.single .tokens input, verbosity, color⟩ world).output tokens
      ↔ ∀ t ∈ tokens, ∀ q content, t.lexeme = .literal q content →
          '\n' ∉ content.toList := by
  rw [lists_run_iff hinput hread hcolor verbosity]
  constructor
  · intro h t ht q content hlexeme hfeed
    refine h t ht ?_
    rw [hlexeme, chars]
    exact List.mem_cons_of_mem _ (List.mem_append_left _ hfeed)
  · intro h t ht hfeed
    -- Only a literal has blanks in its text, and a line feed is one.
    obtain ⟨q, content, hlexeme, hmem⟩ :=
      (Token.valid_of_readAll hread t ht).exists_literal_of_isBlank hfeed (by decide)
    exact h t ht q content hlexeme hmem

end Runs

/-- A literal that looks like the end of a line is still told from it. -/
theorem lists_tokens_columns :
    let text := "'a  0..3'\nK\u3000"
    let world : World := fun _ => .ok text.toUTF8
    ∃ tokens, Token.readAll text = .ok tokens ∧
      Lists (run ⟨.single .tokens (.channel .stdin), 0, .never⟩ world).output tokens := by
  intro text world
  have hread : Token.readAll text
      = .ok [⟨.literal .single "a  0..3", 0, 9⟩, ⟨.identifier "K", 10, 11⟩] := by
    decide +kernel
  have hinput : Input.Gives .pipes world (.channel .stdin) text := .channel rfl rfl
  refine ⟨_, hread, (lists_tokens_iff hinput hread rfl 0).2 ?_⟩
  intro t ht q content hlexeme
  simp only [List.mem_cons, List.not_mem_nil, or_false] at ht
  rcases ht with rfl | rfl
  · cases hlexeme
    decide
  · cases hlexeme

/-- A literal over two lines breaks the line of its token. -/
theorem not_lists_tokens_feed :
    let text := "ΔΑ1(K: 'a\nb')"
    let world : World := fun _ => .ok text.toUTF8
    ∃ tokens, Token.readAll text = .ok tokens ∧
      ¬ Lists (run ⟨.single .tokens (.channel .stdin), 0, .never⟩ world).output tokens := by
  intro text world
  let s : Symbol := ⟨'Δ', ['Α'], ['1'], none, by decide, by decide, by decide, by decide,
    by decide, by decide⟩
  have hread : Token.readAll text
      = .ok [⟨.symbol s, 0, 5⟩, ⟨.mark .openParen, 5, 6⟩, ⟨.identifier "K", 6, 7⟩,
        ⟨.mark .colon, 7, 8⟩, ⟨.literal .single "a\nb", 9, 14⟩, ⟨.mark .closeParen, 14, 15⟩] := by
    decide +kernel
  have hinput : Input.Gives .pipes world (.channel .stdin) text := .channel rfl rfl
  refine ⟨_, hread, fun h => ?_⟩
  exact (lists_run_iff hinput hread rfl 0).1 h ⟨.literal .single "a\nb", 9, 14⟩ (by simp)
    (by decide)

end Cli

end Sigil
