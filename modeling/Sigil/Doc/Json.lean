import Sigil.Doc
import Sigil.Text.Listing

/-! # Documents as JSON

    Two layouts: on one line without any blank, and over several lines
    with two blanks of indentation to a level.  In both an empty list is
    `[]` and an empty record is a pair of braces.

    Of the characters of a text only those are escaped that have to be:
    the quote, the backslash, and the controls below U+0020. -/

namespace Sigil.Doc.Json

/-! ### Texts -/

/-- A digit of base sixteen, in lower case. -/
def hexDigit (n : Nat) : Char :=
  Nat.digitChar (n % 16)

/-- A character as it stands in a quoted text. -/
def escaped (c : Char) : List Char :=
  if c = '"' then ['\\', '"']
  else if c = '\\' then ['\\', '\\']
  else if c = '\x08' then ['\\', 'b']
  else if c = '\x0c' then ['\\', 'f']
  else if c = '\n' then ['\\', 'n']
  else if c = '\r' then ['\\', 'r']
  else if c = '\t' then ['\\', 't']
  else if c.toNat < 0x20 then
    ['\\', 'u', '0', '0', hexDigit (c.toNat / 16), hexDigit c.toNat]
  else [c]

/-- A text in quotes. -/
def quoted (s : String) : String :=
  "\"" ++ String.ofList (s.toList.flatMap escaped) ++ "\""

/-! ### On one line -/

mutual

/-- A document on one line. -/
def compact : Doc → String
  | .text s => quoted s
  | .number n => n.repr
  | .list items => "[" ++ String.intercalate "," (compactItems items) ++ "]"
  | .record fields => "\x7b" ++ String.intercalate "," (compactFields fields) ++ "\x7d"

/-- The items of a list, each on one line. -/
def compactItems : List Doc → List String
  | [] => []
  | d :: ds => compact d :: compactItems ds

/-- The fields of a record, each on one line. -/
def compactFields : List (String × Doc) → List String
  | [] => []
  | (key, d) :: fields => (quoted key ++ ":" ++ compact d) :: compactFields fields

end

/-! ### Over several lines -/

/-- The blanks before a line at a level. -/
def indentation (level : Nat) : String :=
  String.ofList (List.replicate (2 * level) ' ')

/-- Parts between two brackets, each on its own line one level further in. -/
def spread (level : Nat) (opening closing : String) (parts : List String) : String :=
  if parts.isEmpty then opening ++ closing
  else
    opening ++ "\n"
      ++ String.intercalate ",\n" (parts.map fun part => indentation (level + 1) ++ part)
      ++ "\n" ++ indentation level ++ closing

mutual

/-- A document over several lines, of which the first stands at `level`. -/
def pretty (level : Nat) : Doc → String
  | .text s => quoted s
  | .number n => n.repr
  | .list items => spread level "[" "]" (prettyItems (level + 1) items)
  | .record fields => spread level "\x7b" "\x7d" (prettyFields (level + 1) fields)

/-- The items of a list at `level`. -/
def prettyItems (level : Nat) : List Doc → List String
  | [] => []
  | d :: ds => pretty level d :: prettyItems level ds

/-- The fields of a record at `level`. -/
def prettyFields (level : Nat) : List (String × Doc) → List String
  | [] => []
  | (key, d) :: fields =>
    (quoted key ++ ": " ++ pretty level d) :: prettyFields level fields

end

end Sigil.Doc.Json
