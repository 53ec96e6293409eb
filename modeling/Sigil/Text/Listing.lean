/-! # Listings

    Ways to write several texts as one: with commas between them, as an
    English enumeration (`a, b or c`), and in a column of fixed width. -/

namespace Sigil.Text

/-- The parts in order, with a comma and a space between each two. -/
def commaSeparated (parts : List String) : String :=
  String.intercalate ", " parts

/-- The parts as an enumeration of alternatives: `a`, `a or b`, `a, b or c`. -/
def alternatives : List String → String
  | [] => ""
  | [part] => part
  | [part, last] => part ++ " or " ++ last
  | part :: next :: rest => part ++ ", " ++ alternatives (next :: rest)

/-- A text with blanks after it, up to a width in characters. -/
def padded (width : Nat) (s : String) : String :=
  s ++ String.ofList (List.replicate (width - s.length) ' ')

end Sigil.Text
