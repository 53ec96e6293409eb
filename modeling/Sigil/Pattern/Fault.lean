import Sigil.Text.Lines
import Sigil.Text.Listing

/-! # What can be wrong with a pattern

    A pattern is written as text, and a text may fail to be one.  A
    `Refusal` says why.  Most faults lie at a stretch of the text, which is
    pointed out in the report: each line that holds such a stretch is
    followed by a line of carets.

    Key definitions: `Fault.message`, `Refusal.report`. -/

namespace Sigil.Pattern

/-! ### Faults -/

/-- The deepest allowed nesting of a pattern's parts. -/
def maxNesting : Nat := 250

/-- The largest allowed room of a pattern, in bytes. -/
def maxRoom : Nat := 10485760

/-- A fault in the text of a pattern. -/
inductive Fault where
  | escapeInSet
  | reversedRange
  | rangeOfSets
  | unclosedSet
  | numberTooLarge
  | emptyCode
  | noCharacter
  | badCodeDigit
  | unfinishedEscape
  | unknownEscape
  | danglingNegation
  | repeatedFlag
  | repeatedNegation
  | unfinishedFlags
  | unknownFlag
  | repeatedName
  | emptyName
  | badNameCharacter
  | unfinishedName
  | unclosedGroup
  | unopenedGroup
  | tooDeep
  | reversedCounts
  | missingCount
  | unclosedCount
  | nothingToRepeat
  | unclosedWordEdge
  | unknownWordEdge
  | unfinishedWordEdge
  | unknownProperty
  | backReference
  | lookAround
  /-- The pattern could fit a part of a character. -/
  | splitsCharacter
  /-- Only ASCII can stand here. -/
  | beyondAscii
  /-- A property of characters that has no table. -/
  | noSuchProperty
  | noSuchPropertyValue
  /-- A set for which a table of properties would be needed. -/
  | noSetTable
  /-- Letters of which the cases are told by a table. -/
  | noCaseTable
  deriving DecidableEq

/-- The wording of a fault. -/
def Fault.message : Fault → String
  | .escapeInSet => "invalid escape sequence found in character class"
  | .reversedRange => "invalid character class range, the start must be <= the end"
  | .rangeOfSets => "invalid range boundary, must be a literal"
  | .unclosedSet => "unclosed character class"
  | .numberTooLarge => "decimal literal invalid"
  | .emptyCode => "hexadecimal literal empty"
  | .noCharacter => "hexadecimal literal is not a Unicode scalar value"
  | .badCodeDigit => "invalid hexadecimal digit"
  | .unfinishedEscape => "incomplete escape sequence, reached end of pattern prematurely"
  | .unknownEscape => "unrecognized escape sequence"
  | .danglingNegation => "dangling flag negation operator"
  | .repeatedFlag => "duplicate flag"
  | .repeatedNegation => "flag negation operator repeated"
  | .unfinishedFlags => "expected flag but got end of regex"
  | .unknownFlag => "unrecognized flag"
  | .repeatedName => "duplicate capture group name"
  | .emptyName => "empty capture group name"
  | .badNameCharacter => "invalid capture group character"
  | .unfinishedName => "unclosed capture group name"
  | .unclosedGroup => "unclosed group"
  | .unopenedGroup => "unopened group"
  | .tooDeep =>
    s!"exceed the maximum number of nested parentheses/brackets ({maxNesting})"
  | .reversedCounts => "invalid repetition count range, the start must be <= the end"
  | .missingCount => "repetition quantifier expects a valid decimal"
  | .unclosedCount => "unclosed counted repetition"
  | .nothingToRepeat => "repetition operator missing expression"
  | .unclosedWordEdge =>
    "special word boundary assertion is either unclosed or contains an invalid character"
  | .unknownWordEdge =>
    "unrecognized special word boundary assertion, "
      ++ "valid choices are: start, end, start-half or end-half"
  | .unfinishedWordEdge =>
    "found either the beginning of a special word boundary or a bounded repetition "
      ++ "on a \\b with an opening brace, but no closing brace"
  | .unknownProperty => "invalid Unicode character class"
  | .backReference => "backreferences are not supported"
  | .lookAround => "look-around, including look-ahead and look-behind, is not supported"
  | .splitsCharacter => "pattern can match invalid UTF-8"
  | .beyondAscii => "Unicode not allowed here"
  | .noSuchProperty => "Unicode property not found"
  | .noSuchPropertyValue => "Unicode property value not found"
  | .noSetTable =>
    "Unicode-aware Perl class not found (make sure the unicode-perl feature is enabled)"
  | .noCaseTable =>
    "Unicode-aware case insensitivity matching is not available "
      ++ "(make sure the unicode-case feature is enabled)"

/-! ### Stretches -/

/-- The characters of a pattern from `start` up to, and without, `stop`. -/
structure Stretch where
  start : Nat
  stop : Nat
  deriving DecidableEq

/-- Line and column of a place in a text, both counted from 1. -/
structure Position where
  line : Nat
  column : Nat
  deriving DecidableEq

/-- The position of the place with `n` characters of `cs` before it. -/
def Position.at (cs : List Char) (n : Nat) : Position :=
  let lines := Text.lineSplit (cs.take n)
  ⟨lines.length, (lines.getLast?.getD []).length + 1⟩

/-- Why a text is not taken as a pattern. -/
inductive Refusal where
  /-- A fault at a stretch of the text.  It may concern an earlier stretch
  too. -/
  | fault (f : Fault) (place : Stretch) (earlier? : Option Stretch)
  /-- The pattern takes too much room. -/
  | tooLarge
  /-- The pattern asks for edges of words that are told by a table. -/
  | noWordTable
  deriving DecidableEq

/-! ### Reports -/

/-- A stretch by its positions. -/
structure Region where
  first : Position
  last : Position

/-- Does a region lie on a single line? -/
def Region.isOnOneLine (r : Region) : Bool :=
  r.first.line == r.last.line

/-- Carets below regions of one line, which are given in order; `column` is
where the line of carets has come to.  Each region gets a caret at least. -/
def carets (column : Nat) : List Region → String
  | [] => ""
  | r :: rs =>
    let gap := r.first.column - column
    let length := max 1 (r.last.column - r.first.column)
    String.ofList (List.replicate gap ' ') ++ String.ofList (List.replicate length '^')
      ++ carets (column + gap + length) rs

/-- The pattern line by line, numbered when it has several, with carets below
the regions. -/
def notated (pattern : String) (regions : List Region) : String :=
  let lines := Text.terminatedLines pattern
  let count := lines.length + if pattern.toList.getLast? = some '\n' then 1 else 0
  let digits := (toString count).length
  let margin (n : Nat) : String :=
    if count ≤ 1 then "    "
    else String.ofList (List.replicate (digits - (toString n).length) ' ') ++ toString n ++ ": "
  let indent := if count ≤ 1 then 4 else digits + 2
  String.join <| (lines.zipIdx 1).map fun (line, n) =>
    let here := regions.filter fun r => r.isOnOneLine && r.first.line == n
    margin n ++ line ++ "\n"
      ++ if here.isEmpty then ""
        else String.ofList (List.replicate indent ' ') ++ carets 1 here ++ "\n"

/-- A region of several lines, in words. -/
def Region.text (r : Region) : String :=
  s!"on line {r.first.line} (column {r.first.column}) "
    ++ s!"through line {r.last.line} (column {r.last.column - 1})"

/-- What is said when `pattern` is refused. -/
def Refusal.report (pattern : String) : Refusal → String
  | .fault f place earlier? =>
    let region (s : Stretch) : Region :=
      ⟨.at pattern.toList s.start, .at pattern.toList s.stop⟩
    let regions := (earlier?.toList ++ [place]).map region
    let shown := notated pattern regions
    if pattern.toList.contains '\n' then
      let rule := String.ofList (List.replicate 79 '~') ++ "\n"
      let long := regions.filter (!·.isOnOneLine)
      "regex parse error:\n" ++ rule ++ shown ++ rule
        ++ (if long.isEmpty then "" else String.intercalate "\n" (long.map Region.text) ++ "\n")
        ++ "error: " ++ f.message
    else "regex parse error:\n" ++ shown ++ "error: " ++ f.message
  | .tooLarge => s!"Compiled regex exceeds size limit of {maxRoom} bytes."
  | .noWordTable => "error building NFA"

end Sigil.Pattern
