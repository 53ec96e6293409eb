/-! # Patterns

    A pattern is a regular expression: it describes stretches of a text,
    character by character, and says where they may lie.  `Pattern.occursIn`
    tells whether some stretch of a text is as the pattern says.

    It is found by following marks.  A text of `n` characters has `n + 1`
    places; a mark lies on each place to which the part of the pattern that
    is done can lead.  At first every place is marked, and the pattern
    occurs when a mark is left in the end.

    Key definitions: `CharSet.contains`, `Look.holds`, `Pattern.lead`,
    `Pattern.occursIn`. -/

namespace Sigil

/-! ### Sets of characters -/

/-- A set of characters. -/
inductive CharSet where
  | empty
  | range (first last : Char)
  | union (a b : CharSet)
  | inter (a b : CharSet)
  | diff (a b : CharSet)
  /-- What is in one of two sets and not in both. -/
  | symmDiff (a b : CharSet)
  | compl (a : CharSet)
  /-- The set with both cases of each of its ASCII letters. -/
  | anyCase (a : CharSet)
  deriving DecidableEq

namespace CharSet

/-- The set of a single character. -/
def single (c : Char) : CharSet :=
  .range c c

/-- Is `c` in the set? -/
def contains : CharSet → Char → Bool
  | .empty, _ => false
  | .range first last, c => first ≤ c && c ≤ last
  | .union a b, c => a.contains c || b.contains c
  | .inter a b, c => a.contains c && b.contains c
  | .diff a b, c => a.contains c && !b.contains c
  | .symmDiff a b, c => a.contains c != b.contains c
  | .compl a, c => !a.contains c
  | .anyCase a, c => a.contains c || a.contains c.toLower || a.contains c.toUpper

/-- The union of closed ranges. -/
def ofRanges (ranges : List (Char × Char)) : CharSet :=
  ranges.foldr (fun r s => .union (.range r.1 r.2) s) .empty

end CharSet

/-! ### Looks -/

/-- Can `c` stand in a word? -/
def isWordChar (c : Char) : Bool :=
  c.isAlphanum || c == '_'

/-- What may be asked of a place, by the characters around it.  Words are of
ASCII letters, digits and `_`. -/
inductive Look where
  | textStart
  | textEnd
  /-- After a line feed; with `crlf`, after any end of line. -/
  | lineStart (crlf : Bool)
  /-- Before a line feed; with `crlf`, before any end of line. -/
  | lineEnd (crlf : Bool)
  | wordEdge
  | noWordEdge
  | wordStart
  | wordEnd
  /-- No word goes on from before the place. -/
  | noWordBefore
  /-- No word goes on after the place. -/
  | noWordAfter
  deriving DecidableEq

/-- Does a place between two characters have what is asked of it?  A character
is missing at either end of the text. -/
def Look.holds (l : Look) (before after : Option Char) : Bool :=
  let wordBefore := before.any isWordChar
  let wordAfter := after.any isWordChar
  match l with
  | .textStart => before.isNone
  | .textEnd => after.isNone
  | .lineStart false => before.all (· == '\n')
  | .lineStart true => before.all fun c => c == '\n' || (c == '\r' && after != some '\n')
  | .lineEnd false => after.all (· == '\n')
  | .lineEnd true => after.all fun c => c == '\r' || (c == '\n' && before != some '\r')
  | .wordEdge => wordBefore != wordAfter
  | .noWordEdge => wordBefore == wordAfter
  | .wordStart => !wordBefore && wordAfter
  | .wordEnd => wordBefore && !wordAfter
  | .noWordBefore => !wordBefore
  | .noWordAfter => !wordAfter

/-! ### Patterns -/

/-- A pattern for stretches of a text. -/
inductive Pattern where
  | empty
  | one (s : CharSet)
  | look (l : Look)
  | seq (p q : Pattern)
  | either (p q : Pattern)
  /-- `p` over and over, at least `least` times and at most `most` times. -/
  | repeated (p : Pattern) (least : Nat) (most : Option Nat)
  /-- The stretch of `p` is remembered. -/
  | captured (p : Pattern)
  deriving DecidableEq

/-- A mark, or none, for each place of a text in order. -/
abbrev Marks := List Bool

namespace Marks

/-- The marks of either. -/
def or (a b : Marks) : Marks :=
  List.zipWith (· || ·) a b

/-- The marks after one character of a set. -/
def pass (s : CharSet) (cs : List Char) (marks : Marks) : Marks :=
  false :: List.zipWith (fun mark c => mark && s.contains c) marks cs

/-- The marks on places that have what is asked of them; `before` is the
character before `cs`. -/
def keep (l : Look) (before : Option Char) : List Char → Marks → Marks
  | [], marks => marks.map (· && l.holds before none)
  | c :: cs, mark :: marks => (mark && l.holds before (some c)) :: keep l (some c) cs marks
  | _ :: _, [] => []

/-- `f` done `n` times.  When it changes nothing, doing it again is needless. -/
def iterate (f : Marks → Marks) : Nat → Marks → Marks
  | 0, marks => marks
  | n + 1, marks =>
    let next := f marks
    if next = marks then marks else iterate f n next

/-- `f` done at most `n` times. -/
def spread (f : Marks → Marks) (n : Nat) (marks : Marks) : Marks :=
  iterate (fun m => or m (f m)) n marks

end Marks

namespace Pattern

/-- The places to which a pattern leads from marked places of `cs`.  Where it
may be repeated without end, as many times as there are characters suffice:
each further time has to mark a place that was not marked before. -/
def lead (cs : List Char) : Pattern → Marks → Marks
  | .empty, marks => marks
  | .one s, marks => marks.pass s cs
  | .look l, marks => marks.keep l none cs
  | .seq p q, marks => q.lead cs (p.lead cs marks)
  | .either p q, marks => (p.lead cs marks).or (q.lead cs marks)
  | .repeated p least most, marks =>
    let further :=
      match most with
      | some most => most - least
      | none => cs.length
    Marks.spread (p.lead cs) further (Marks.iterate (p.lead cs) least marks)
  | .captured p, marks => p.lead cs marks

/-- Is some stretch of the text as the pattern says? -/
def occursIn (p : Pattern) (text : String) : Bool :=
  let cs := text.toList
  (p.lead cs (List.replicate (cs.length + 1) true)).any id

/-- The patterns one after the other. -/
def ofSequence (ps : List Pattern) : Pattern :=
  match ps with
  | [] => .empty
  | [p] => p
  | p :: q :: ps => .seq p (ofSequence (q :: ps))

/-- One of the patterns. -/
def ofAlternatives (ps : List Pattern) : Pattern :=
  match ps with
  | [] => .empty
  | [p] => p
  | p :: q :: ps => .either p (ofAlternatives (q :: ps))

/-- The pattern of a single character. -/
def letter (c : Char) : Pattern :=
  .one (.single c)

end Pattern

end Sigil
