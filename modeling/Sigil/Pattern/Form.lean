import Sigil.Pattern
import Sigil.Pattern.Fault

/-! # The written form of a pattern

    The form of a pattern is what its text spells out: letters, sets in
    brackets, repetitions, groups, and the settings that a group changes.
    Every part knows the stretch of the text that it takes, so that a fault
    in what it means can be pointed out.

    What a form means depends on the settings around it; that is told in
    `Sigil.Pattern.Meaning`. -/

namespace Sigil.Pattern

/-! ### Settings -/

/-- A setting that the text of a pattern can turn on and off. -/
inductive Setting where
  | anyCase
  | manyLines
  | dotIsAny
  /-- Repetitions prefer to be short; this has no say in whether a pattern
  occurs. -/
  | preferShort
  | unicode
  | crlf
  /-- Blanks and comments in the text of the pattern are left out. -/
  | spaced
  deriving DecidableEq

/-- The letter of a setting. -/
def Setting.letter : Setting → Char
  | .anyCase => 'i'
  | .manyLines => 'm'
  | .dotIsAny => 's'
  | .preferShort => 'U'
  | .unicode => 'u'
  | .crlf => 'R'
  | .spaced => 'x'

/-- All settings. -/
def Setting.all : List Setting :=
  [.anyCase, .manyLines, .dotIsAny, .preferShort, .unicode, .crlf, .spaced]

/-- The setting with a letter. -/
def Setting.ofLetter? (c : Char) : Option Setting :=
  all.find? (·.letter == c)

/-- Settings that are turned on or off, each at most once. -/
abbrev Changes := List (Setting × Bool)

/-- A setting after changes. -/
def Changes.get (cs : Changes) (s : Setting) (before : Bool) : Bool :=
  (cs.lookup s).getD before

/-! ### Parts -/

/-- A character that stands for itself. -/
structure Letter where
  char : Char
  /-- Is it written as two hexadecimal digits?  Without `unicode`, they give
  a byte. -/
  isByte : Bool
  place : Stretch

/-- A set with a letter of its own, as in `\d`. -/
inductive Shorthand where
  | digit
  | blank
  | word

/-- A set with a name, as in `[:alpha:]`. -/
inductive NamedSet where
  | alnum
  | alpha
  | ascii
  | blank
  | cntrl
  | digit
  | graph
  | lower
  | print
  | punct
  | space
  | upper
  | word
  | xdigit

namespace NamedSet

/-- The name of a set. -/
def name : NamedSet → String
  | .alnum => "alnum"
  | .alpha => "alpha"
  | .ascii => "ascii"
  | .blank => "blank"
  | .cntrl => "cntrl"
  | .digit => "digit"
  | .graph => "graph"
  | .lower => "lower"
  | .print => "print"
  | .punct => "punct"
  | .space => "space"
  | .upper => "upper"
  | .word => "word"
  | .xdigit => "xdigit"

/-- All named sets. -/
def all : List NamedSet :=
  [.alnum, .alpha, .ascii, .blank, .cntrl, .digit, .graph, .lower, .print, .punct, .space,
    .upper, .word, .xdigit]

/-- The set with a name. -/
def ofName? (s : String) : Option NamedSet :=
  all.find? (·.name == s)

/-- The characters of a set, as closed ranges. -/
def ranges : NamedSet → List (Char × Char)
  | .alnum => [('0', '9'), ('A', 'Z'), ('a', 'z')]
  | .alpha => [('A', 'Z'), ('a', 'z')]
  | .ascii => [('\x00', '\x7F')]
  | .blank => [('\t', '\t'), (' ', ' ')]
  | .cntrl => [('\x00', '\x1F'), ('\x7F', '\x7F')]
  | .digit => [('0', '9')]
  | .graph => [('!', '~')]
  | .lower => [('a', 'z')]
  | .print => [(' ', '~')]
  | .punct => [('!', '/'), (':', '@'), ('[', '\x60'), ('\x7B', '~')]
  | .space => [('\t', '\t'), ('\n', '\n'), ('\x0B', '\x0B'), ('\x0C', '\x0C'), ('\r', '\r'),
      (' ', ' ')]
  | .upper => [('A', 'Z')]
  | .word => [('0', '9'), ('A', 'Z'), ('_', '_'), ('a', 'z')]
  | .xdigit => [('0', '9'), ('A', 'F'), ('a', 'f')]

end NamedSet

/-- The characters of a shorthand, of ASCII. -/
def Shorthand.ranges : Shorthand → List (Char × Char)
  | .digit => NamedSet.digit.ranges
  | .blank => NamedSet.space.ranges
  | .word => NamedSet.word.ranges

/-- A property of characters, by its name; with `isPair`, by its name and a
value. -/
structure Property where
  name : String
  isPair : Bool

/-- An operation on two sets. -/
inductive SetOperation where
  | intersection
  | difference
  | symmetricDifference

/-- The written form of a set, or of a part of one. -/
inductive SetForm where
  | empty (place : Stretch)
  | letter (l : Letter)
  | range (first last : Letter) (place : Stretch)
  | named (s : NamedSet) (negated : Bool) (place : Stretch)
  | property (p : Property) (place : Stretch)
  | shorthand (s : Shorthand) (negated : Bool) (place : Stretch)
  | bracketed (negated : Bool) (inner : SetForm) (place : Stretch)
  | union (parts : List SetForm) (place : Stretch)
  | combined (op : SetOperation) (left right : SetForm) (place : Stretch)

/-- The stretch that a set takes. -/
def SetForm.place : SetForm → Stretch
  | .letter l => l.place
  | .empty place | .range _ _ place | .named _ _ place | .property _ place
  | .shorthand _ _ place | .bracketed _ _ place | .union _ place
  | .combined _ _ _ place => place

/-- What is asked of a place; the settings say what it comes to. -/
inductive LookForm where
  | start
  | stop
  | textStart
  | textEnd
  | wordEdge
  | noWordEdge
  | wordStart
  | wordEnd
  | noWordBefore
  | noWordAfter

/-- The written form of a pattern, or of a part of one. -/
inductive Form where
  | empty (place : Stretch)
  | settings (changes : Changes) (place : Stretch)
  | letter (l : Letter)
  | dot (place : Stretch)
  | look (l : LookForm) (place : Stretch)
  | property (p : Property) (place : Stretch)
  | shorthand (s : Shorthand) (negated : Bool) (place : Stretch)
  | set (negated : Bool) (inner : SetForm) (place : Stretch)
  | repeated (x : Form) (least : Nat) (most : Option Nat) (place : Stretch)
  /-- A group that is remembered, or one that changes settings. -/
  | group (changes : Option Changes) (x : Form) (place : Stretch)
  | sequence (xs : List Form) (place : Stretch)
  | alternatives (xs : List Form) (place : Stretch)

/-- The stretch that a form takes. -/
def Form.place : Form → Stretch
  | .letter l => l.place
  | .empty place | .settings _ place | .dot place | .look _ place | .property _ place
  | .shorthand _ _ place | .set _ _ place | .repeated _ _ _ place | .group _ _ place
  | .sequence _ place | .alternatives _ place => place

/-! ### Depth -/

mutual

/-- The first part that lies deeper than `depth` allows. -/
def SetForm.tooDeep? (depth : Nat) : SetForm → Option Stretch
  | .empty _ | .letter _ | .range .. | .named .. | .property .. | .shorthand .. => none
  | .bracketed _ inner place =>
    match depth with
    | 0 => some place
    | depth + 1 => inner.tooDeep? depth
  | .union parts place =>
    match depth with
    | 0 => some place
    | depth + 1 => SetForm.tooDeepIn? depth parts
  | .combined _ left right place =>
    match depth with
    | 0 => some place
    | depth + 1 => (left.tooDeep? depth).or (right.tooDeep? depth)

/-- The first part of several that lies deeper than `depth` allows. -/
def SetForm.tooDeepIn? (depth : Nat) : List SetForm → Option Stretch
  | [] => none
  | x :: xs => (x.tooDeep? depth).or (SetForm.tooDeepIn? depth xs)

end

mutual

/-- The first part that lies deeper than `depth` allows. -/
def Form.tooDeep? (depth : Nat) : Form → Option Stretch
  | .empty _ | .settings .. | .letter _ | .dot _ | .look .. | .property .. | .shorthand .. =>
    none
  | .set _ inner place =>
    match depth with
    | 0 => some place
    | depth + 1 => inner.tooDeep? depth
  | .repeated x _ _ place =>
    match depth with
    | 0 => some place
    | depth + 1 => x.tooDeep? depth
  | .group _ x place =>
    match depth with
    | 0 => some place
    | depth + 1 => x.tooDeep? depth
  | .sequence xs place =>
    match depth with
    | 0 => some place
    | depth + 1 => Form.tooDeepIn? depth xs
  | .alternatives xs place =>
    match depth with
    | 0 => some place
    | depth + 1 => Form.tooDeepIn? depth xs

/-- The first part of several that lies deeper than `depth` allows. -/
def Form.tooDeepIn? (depth : Nat) : List Form → Option Stretch
  | [] => none
  | x :: xs => (x.tooDeep? depth).or (Form.tooDeepIn? depth xs)

end

end Sigil.Pattern
