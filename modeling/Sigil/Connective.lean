/-! # Connectives

    The seven signs that join expressions.  Six stand between two operands
    and one, `¬`, before its only operand.  The six are ranked: the higher
    the rank, the tighter the sign binds; signs of one rank group to the
    left or to the right, and all signs of one rank agree on the side. -/

namespace Sigil

/-- A logical connective. -/
inductive Connective where
  | therefore
  | implies
  | equiv
  | or
  | and
  | compose
  | not
  deriving DecidableEq, Repr

/-- How a connective gathers its operands. -/
inductive Grouping where
  /-- To the left: `a ∨ b ∨ c` is `(a ∨ b) ∨ c`. -/
  | left
  /-- To the right: `a ⇒ b ⇒ c` is `a ⇒ (b ⇒ c)`. -/
  | right
  /-- The connective stands before its only operand. -/
  | leading
  deriving DecidableEq, Repr

namespace Connective

/-- Every connective, the loosest first. -/
def all : List Connective :=
  [.therefore, .implies, .equiv, .or, .and, .compose, .not]

/-- The sign of a connective. -/
def glyph : Connective → Char
  | .therefore => '∴'
  | .implies => '⇒'
  | .equiv => '≡'
  | .or => '∨'
  | .and => '∧'
  | .compose => '⊗'
  | .not => '¬'

/-- The sign of a connective, as a text. -/
def text (c : Connective) : String :=
  String.singleton c.glyph

/-- The upper-case name of a connective. -/
def name : Connective → String
  | .therefore => "THEREFORE"
  | .implies => "IMPLIES"
  | .equiv => "EQUIV"
  | .or => "OR"
  | .and => "AND"
  | .compose => "COMPOSE"
  | .not => "NOT"

/-- Binding strength, from 1 (loosest) to 7 (tightest). -/
def rank : Connective → Nat
  | .therefore => 1
  | .implies => 2
  | .equiv => 3
  | .or => 4
  | .and => 5
  | .compose => 6
  | .not => 7

def grouping : Connective → Grouping
  | .therefore | .implies | .equiv => .right
  | .or | .and | .compose => .left
  | .not => .leading

/-- Does the connective take a single operand? -/
def isUnary (c : Connective) : Bool :=
  c.grouping == .leading

/-- The connective with a given sign. -/
def ofGlyph? (glyph : Char) : Option Connective :=
  all.find? fun c => c.glyph == glyph

/-- In `x c y d z`, does `c` get `y`?  It does when it binds tighter than
`d`, and at equal rank when the two group to the left. -/
def takesBefore (c d : Connective) : Bool :=
  d.rank < c.rank || (c.rank == d.rank && d.grouping == .left)

/-! ### The table -/

theorem mem_all (c : Connective) : c ∈ all := by
  cases c <;> decide

theorem glyph_injective {c d : Connective} (h : c.glyph = d.glyph) : c = d := by
  cases c <;> cases d <;> first | rfl | exact absurd h (by decide)

@[simp] theorem ofGlyph?_glyph (c : Connective) : ofGlyph? c.glyph = some c := by
  cases c <;> decide

theorem glyph_of_ofGlyph? {g : Char} {c : Connective} (h : ofGlyph? g = some c) :
    c.glyph = g := by
  have := List.find?_some h
  simpa using this

end Connective

namespace Grouping

/-- The name of a grouping. -/
def name : Grouping → String
  | .left => "Left"
  | .right => "Right"
  | .leading => "Prefix"

end Grouping

end Sigil
