import Sigil.Doc.Yaml.Resolution

/-! # Texts as YAML scalars

    A text is written in one of four styles: plain, in single quotes, in
    double quotes, or as a literal block of lines.  A text with a line
    feed wants to be a block, one that would be read as something else
    wants single quotes, and any other wants to be plain; from there each
    style gives way to a safer one where it cannot hold the text.  Double
    quotes hold everything.

    Lines inside a text that is written as a block or in single quotes are
    indented by the column that the writer is told. -/

namespace Sigil.Doc.Yaml

/-! ### Characters -/

/-- Can `c` end a line inside a scalar? -/
def isBreak (c : Char) : Bool :=
  c == '\n' || c == '\u2028' || c == '\u2029'

/-- Can `c` stand in a scalar as it is? -/
def isPrintable (c : Char) : Bool :=
  c == '\n' || (' ' ≤ c && c ≤ '~')
    || ('\u00a0' ≤ c && !(c == '\ufeff' || c == '\ufffe' || c == '\uffff'))

/-- The characters with which no plain scalar begins. -/
def indicators : List Char :=
  "#,[]\x7b\x7d&*!|>'\"%@\x60".toList

/-- Does `cs` hold the characters `a` and `b` next to each other? -/
def hasPair (p q : Char → Bool) : List Char → Bool
  | a :: b :: cs => (p a && q b) || hasPair p q (b :: cs)
  | _ => false

/-! ### Styles -/

/-- How a text is written. -/
inductive Style where
  | plain
  | single
  | double
  | block
  deriving DecidableEq, Repr

/-- Does `cs` begin with a mark of structure, followed by a blank or by
nothing? -/
def beginsStructure : List Char → Bool
  | c :: rest => (c == '?' || c == ':' || c == '-') && rest.head?.all (· == ' ')
  | [] => false

/-- Can the text stand without quotes? -/
def isPlain (cs : List Char) : Bool :=
  !(cs.take 3 == ['-', '-', '-'] || cs.take 3 == ['.', '.', '.']
    || cs.head?.any indicators.contains
    || beginsStructure cs
    || hasPair (· == ':') (· == ' ') cs || cs.getLast? == some ':'
    || hasPair (· == ' ') (· == '#') cs
    || cs.head? == some ' ' || cs.getLast? == some ' '
    || cs.any isBreak)

/-- Can the text stand in single quotes? -/
def isSingle (cs : List Char) : Bool :=
  cs.all isPrintable && !hasPair (· == ' ') isBreak cs && !hasPair isBreak (· == ' ') cs

/-- Can the text stand as a block of lines? -/
def isBlock (cs : List Char) : Bool :=
  cs.all isPrintable && !hasPair (· == ' ') isBreak cs && cs.getLast? != some ' '

/-- The style of a text. -/
def style (s : String) : Style :=
  let cs := s.toList
  if cs.contains '\n' then if isBlock cs then .block else .double
  else if !isSingle cs then .double
  else if isResolved s || !isPlain cs then .single
  else .plain

/-! ### Writing -/

/-- So many blanks. -/
def blanks (n : Nat) : List Char :=
  List.replicate n ' '

/-- The characters, each written by `write`, with `column` blanks before what
follows a break, and before the first one when `fresh`. -/
def indented (column : Nat) (write : Char → List Char) : (fresh : Bool) → List Char → List Char
  | _, [] => []
  | fresh, c :: cs =>
    if isBreak c then c :: indented column write true cs
    else (if fresh then blanks column else []) ++ write c ++ indented column write false cs

/-- A text in single quotes; a quote inside is written twice. -/
def singleQuoted (column : Nat) (cs : List Char) : List Char :=
  let closing := if cs.getLast?.any isBreak then blanks column else []
  '\'' :: indented column (fun c => if c = '\'' then ['\'', '\''] else [c]) false cs
    ++ closing ++ ['\'']

/-- So many digits of base sixteen, in upper case. -/
def hexDigits (n : Nat) : (count : Nat) → List Char
  | 0 => []
  | count + 1 => hexDigits (n / 16) count ++ [(Nat.digitChar (n % 16)).toUpper]

/-- The sign after the backslash for a character that has one. -/
def shortEscape? : Char → Option Char
  | '\x00' => some '0'
  | '\x07' => some 'a'
  | '\x08' => some 'b'
  | '\t' => some 't'
  | '\n' => some 'n'
  | '\x0b' => some 'v'
  | '\x0c' => some 'f'
  | '\r' => some 'r'
  | '\x1b' => some 'e'
  | '"' => some '"'
  | '\\' => some '\\'
  | '\u0085' => some 'N'
  | '\u2028' => some 'L'
  | '\u2029' => some 'P'
  | _ => none

/-- A character as it stands in double quotes. -/
def escaped (c : Char) : List Char :=
  match shortEscape? c with
  | some sign => ['\\', sign]
  | none =>
    if isPrintable c then [c]
    else if c.toNat ≤ 0xFF then '\\' :: 'x' :: hexDigits c.toNat 2
    else if c.toNat ≤ 0xFFFF then '\\' :: 'u' :: hexDigits c.toNat 4
    else '\\' :: 'U' :: hexDigits c.toNat 8

/-- A text in double quotes. -/
def doubleQuoted (cs : List Char) : List Char :=
  '"' :: cs.flatMap escaped ++ ['"']

/-- The head of a block: the indentation where it cannot be seen from the
first line, and what becomes of the line feed at the end. -/
def blockHeader (cs : List Char) : List Char :=
  let indent := if cs.head?.any (fun c => c == ' ' || isBreak c) then ['2'] else []
  let chomp :=
    match cs.reverse with
    | last :: before =>
      if !isBreak last then ['-']
      else if before.head?.all isBreak then ['+'] else []
    | [] => ['-']
  '|' :: indent ++ chomp

/-- A text as a block of lines. -/
def block (column : Nat) (cs : List Char) : List Char :=
  blockHeader cs ++ '\n' :: indented column (fun c => [c]) true cs

/-- A text as a scalar; lines inside it are indented to `column`. -/
def scalar (column : Nat) (s : String) : String :=
  match style s with
  | .plain => s
  | .single => String.ofList (singleQuoted column s.toList)
  | .double => String.ofList (doubleQuoted s.toList)
  | .block => String.ofList (block column s.toList)

end Sigil.Doc.Yaml
