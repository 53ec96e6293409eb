/-! # What a terminal shows of a text

    A terminal shows the characters of a text, but not all of them: an
    escape character opens a control sequence, which tells the terminal to
    do something, and other control characters have no shape of their own.
    `visible` keeps what is shown and drops the rest.

    There are four kinds of sequence.  A short one ends with its first
    letter or digit; a control sequence (after `[`) ends with its first
    letter; a title (after `]`) ends with the bell; a string goes on until
    the end of strings, `U+009C`, is met, as a byte of the text.  White
    space within a short or control sequence is shown, and so is what
    follows it, until something is met that has no shape.

    Key definition: `visible`. -/

namespace Sigil.Text

/-! ### Characters -/

/-- The white space that moves on in the text: tabulation, line feed, form
feed, carriage return. -/
def isMove (c : Char) : Bool :=
  c == '\t' || c == '\n' || c == '\x0c' || c == '\r'

/-- Is `c` shown where no sequence is open? -/
def isShown (c : Char) : Bool :=
  isMove c || (0x20 ≤ c.toNat && c.toNat != 0x7F)

/-- Does the code point of `c` lie between two others? -/
def isBetween (first last : Nat) (c : Char) : Bool :=
  first ≤ c.toNat && c.toNat ≤ last

/-- Is the byte that ends strings one of the bytes of `c`? -/
def endsString (c : Char) : Bool :=
  0x80 ≤ c.toNat && (String.utf8EncodeChar c).contains 0x9C

/-! ### Sequences -/

/-- How far the head of a sequence is read. -/
inductive Head where
  /-- Nothing but its opening is read. -/
  | opened
  /-- Its parameters are being read. -/
  | parameters
  /-- The marks after its parameters are being read. -/
  | marks
  /-- Something is read that cannot stand where it does. -/
  | malformed
  deriving DecidableEq

/-- The head after one more character from `U+0020` to `U+003F`. -/
def Head.next (h : Head) (c : Char) : Head :=
  let isMark := c.toNat < 0x30
  match h with
  | .opened => if isMark then .marks else .parameters
  | .parameters => if isMark then .marks else if c.toNat < 0x3C then .parameters else .malformed
  | .marks => if isMark then .marks else .malformed
  | .malformed => .malformed

/-- A sequence that is open. -/
inductive Sequence where
  /-- After the escape character. -/
  | escape
  /-- A short sequence, after its marks. -/
  | short
  | control (head : Head)
  /-- A string for the device, in its head. -/
  | device (head : Head)
  | string
  | title
  deriving DecidableEq

/-- Is white space within the sequence shown? -/
def Sequence.showsMoves : Sequence → Bool
  | .escape | .short | .control _ => true
  | .device _ | .string | .title => false

/-- The place in a text, as a terminal sees it. -/
inductive Mode where
  /-- No sequence is open. -/
  | plain
  | within (s : Sequence)
  /-- White space has interrupted a sequence. -/
  | interrupted (s : Sequence)
  deriving DecidableEq

/-- What a sequence comes to with the character `c`, which is not shown. -/
def Sequence.next (s : Sequence) (c : Char) : Mode :=
  let isMark := isBetween 0x20 0x2F c
  let isFinal := isBetween 0x30 0x7E c
  match s with
  | .escape =>
    if c == '[' then .within (.control .opened)
    else if c == ']' then .within .title
    else if c == 'P' then .within (.device .opened)
    else if c == 'X' || c == '^' || c == '_' then .within .string
    else if isMark then .within .short
    else if isFinal then .plain
    else .within .escape
  | .short => if isFinal then .plain else .within .short
  | .control head =>
    if isBetween 0x20 0x3F c then .within (.control (head.next c))
    else if isFinal then .plain
    else .within (.control head)
  | .device head =>
    if isBetween 0x20 0x3F c then
      match head.next c with
      | .malformed => .within .string
      | next => .within (.device next)
    else if isFinal then .within .string
    else .within (.device head)
  | .string => if endsString c then .plain else .within .string
  | .title => if c == '\x07' then .plain else .within .title

namespace Mode

/-- Is `c` shown? -/
def shows (m : Mode) (c : Char) : Bool :=
  match m with
  | .plain | .interrupted _ => isShown c
  | .within s => s.showsMoves && isMove c

/-- The mode after `c`. -/
def next (m : Mode) (c : Char) : Mode :=
  if m.shows c then
    match m with
    | .plain => .plain
    | .within s => .interrupted s
    | .interrupted s => if c.toNat < 0x80 then .interrupted s else .plain
  else if c == '\x1b' then .within .escape
  else if c == '\x18' || c == '\x1a' then .plain
  else
    match m with
    | .plain => .plain
    | .within s => s.next c
    | .interrupted s => .within s

end Mode

/-! ### Texts -/

/-- The characters of `cs` that are shown, from a mode on. -/
def visibleFrom (m : Mode) : List Char → List Char
  | [] => []
  | c :: cs => (if m.shows c then [c] else []) ++ visibleFrom (m.next c) cs

/-- What is shown of a text. -/
def visible (s : String) : String :=
  String.ofList (visibleFrom .plain s.toList)

end Sigil.Text
