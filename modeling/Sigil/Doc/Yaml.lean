import Sigil.Doc
import Sigil.Doc.Yaml.Scalar
import Sigil.Text.Blank

/-! # Documents as YAML

    Block style with steps of two columns.  The fields of a record stand in
    one column, and so do the items of a list, each after `- `.  A list
    under a key stands in the column of the key; a list or record after
    `- ` begins on the same line.  A key that is too long for one line
    with its value is written as `? key`, and its value as `: value` on
    the line below.

    A block of lines may end with breaks of its own, so an entry is put on
    a new line only where the text before it does not already end one. -/

namespace Sigil.Doc.Yaml

/-! ### Entries -/

/-- A text that ends its last line. -/
def lineEnded (s : String) : String :=
  if s.toList.getLast?.any isBreak then s else s ++ "\n"

/-- So many blanks, as a text. -/
def spaces (n : Nat) : String :=
  String.ofList (blanks n)

/-- Entries under each other in a column, of which the first stands where it
is put. -/
def stacked (column : Nat) : List String → String
  | [] => ""
  | [entry] => entry
  | entry :: next :: rest =>
    lineEnded entry ++ spaces column ++ stacked column (next :: rest)

/-- The greatest width of a key, in bytes, that stands on a line with its
value. -/
def maxKeyWidth : Nat := 128

/-- Can the key stand on a line with its value? -/
def isSimpleKey (key : String) : Bool :=
  key.utf8ByteSize ≤ maxKeyWidth && !key.toList.any isBreak

/-! ### Nodes -/

/-- What stands before a node: a key and its colon, or a sign and a blank. -/
inductive Before where
  | key
  | sign
  deriving DecidableEq, Repr

/-- What leads from a key, or a sign, to a single-line node. -/
def Before.gap : Before → String
  | .key => " "
  | .sign => ""

/-- What leads from a key, or a sign, to entries in a column. -/
def Before.turn (column : Nat) : Before → String
  | .key => "\n" ++ spaces column
  | .sign => ""

mutual

/-- A node below an entry of `column`. -/
def node (column : Nat) (before : Before) : Doc → String
  | .text s => before.gap ++ scalar (column + 2) s
  | .number n => before.gap ++ n.repr
  | .list ds =>
    let inner := if before = .key then column else column + 2
    if ds.isEmpty then before.gap ++ "[]"
    else before.turn inner ++ stacked inner (items inner ds)
  | .record fs =>
    if fs.isEmpty then before.gap ++ "\x7b\x7d"
    else before.turn (column + 2) ++ stacked (column + 2) (fields (column + 2) fs)

/-- The items of a list in `column`. -/
def items (column : Nat) : List Doc → List String
  | [] => []
  | d :: ds => ("- " ++ node column .sign d) :: items column ds

/-- The fields of a record in `column`. -/
def fields (column : Nat) : List (String × Doc) → List String
  | [] => []
  | (key, d) :: fs =>
    (if isSimpleKey key then scalar (column + 2) key ++ ":" ++ node column .key d
     else
      lineEnded ("? " ++ scalar (column + 2) key)
        ++ spaces column ++ ": " ++ node column .sign d) :: fields column fs

end

/-- A record as a whole YAML text, without blanks at its end. -/
def document (fs : List (String × Doc)) : String :=
  if fs.isEmpty then "\x7b\x7d" else Text.trimEnd (stacked 0 (fields 0 fs))

end Sigil.Doc.Yaml
