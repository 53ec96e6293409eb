import Sigil.Expr
import Sigil.Token

/-! # The grammar

    What an expression is, as a row of lexemes, said without reading it.
    The grammar is layered: every connective has a layer of its own, by
    its rank, and an operand of a layer is an expression of the next
    tighter one, except on the side to which the connective groups.  Below
    the layer of `¬` there are the atoms: symbols, calls, and expressions
    in parentheses, which leave no trace of the parentheses.

    Key definitions: `Grammar.Layer`, `Grammar.Sentence`,
    `Grammar.Viable`. -/

namespace Sigil.Grammar

/-! ### Values and arguments -/

mutual

/-- The lexemes are the value in the second place. -/
inductive IsValue : List Lexeme → Value → Prop where
  | text (q : Quote) (content : String) : IsValue [.literal q content] (.text content)
  | name (identifier : String) : IsValue [.identifier identifier] (.name identifier)
  | nil : IsValue [.mark .openBracket, .mark .closeBracket] (.list [])
  | list {ls : List Lexeme} {vs : List Value} (items : AreItems ls vs) :
      IsValue (.mark .openBracket :: (ls ++ [.mark .closeBracket])) (.list vs)

/-- The lexemes are the values in the second place, at least one, with commas
between them. -/
inductive AreItems : List Lexeme → List Value → Prop where
  | one {ls : List Lexeme} {v : Value} (value : IsValue ls v) : AreItems ls [v]
  | cons {ls ms : List Lexeme} {v : Value} {vs : List Value}
      (value : IsValue ls v) (rest : AreItems ms vs) :
      AreItems (ls ++ .mark .comma :: ms) (v :: vs)

end

/-- The lexemes are an argument: its name, a colon, and its value. -/
inductive IsArgument : List Lexeme → String × Value → Prop where
  | mk (key : String) {ls : List Lexeme} {v : Value} (value : IsValue ls v) :
      IsArgument (.identifier key :: .mark .colon :: ls) (key, v)

/-- The lexemes are arguments, at least one, with commas between them.  A name
may come more than once. -/
inductive AreArguments : List Lexeme → List (String × Value) → Prop where
  | one {ls : List Lexeme} {entry : String × Value} (argument : IsArgument ls entry) :
      AreArguments ls [entry]
  | cons {ls ms : List Lexeme} {entry : String × Value} {entries : List (String × Value)}
      (argument : IsArgument ls entry) (rest : AreArguments ms entries) :
      AreArguments (ls ++ .mark .comma :: ms) (entry :: entries)

/-! ### Expressions -/

/-- The layer of atoms, below that of the tightest connective. -/
def atoms : Nat :=
  Connective.not.rank + 1

/-- The layer of the loosest connective. -/
def loosest : Nat :=
  Connective.therefore.rank

/-- The lexemes are an expression of a layer: in it no connective of a lower rank
than that of the layer stands outside all parentheses. -/
inductive Layer : Nat → List Lexeme → Expr → Prop where
  | symbol (s : Symbol) : Layer atoms [.symbol s] (.call s .empty)
  | call (s : Symbol) {ls : List Lexeme} {entries : List (String × Value)}
      (arguments : AreArguments ls entries) :
      Layer atoms (.symbol s :: .mark .openParen :: (ls ++ [.mark .closeParen]))
        (.call s (.ofList entries))
  | group {ls : List Lexeme} {x : Expr} (inner : Layer loosest ls x) :
      Layer atoms (.mark .openParen :: (ls ++ [.mark .closeParen])) x
  | next (c : Connective) {ls : List Lexeme} {x : Expr} (tighter : Layer (c.rank + 1) ls x) :
      Layer c.rank ls x
  | not {ls : List Lexeme} {x : Expr} (operand : Layer atoms ls x) :
      Layer Connective.not.rank (.connective .not :: ls) (.unary .not x)
  | right {c : Connective} (side : c.grouping = .right) {ls ms : List Lexeme} {x y : Expr}
      (left : Layer (c.rank + 1) ls x) (right : Layer c.rank ms y) :
      Layer c.rank (ls ++ .connective c :: ms) (.binary c x y)
  | left {c : Connective} (side : c.grouping = .left) {ls ms : List Lexeme} {x y : Expr}
      (left : Layer c.rank ls x) (right : Layer (c.rank + 1) ms y) :
      Layer c.rank (ls ++ .connective c :: ms) (.binary c x y)

/-- The lexemes are the expression `x`. -/
def Sentence (lexemes : List Lexeme) (x : Expr) : Prop :=
  Layer loosest lexemes x

/-- The lexemes can be completed to an expression. -/
def Viable (lexemes : List Lexeme) : Prop :=
  ∃ more x, Sentence (lexemes ++ more) x

/-- What begins a completable row can be completed. -/
theorem viable_of_append {lexemes more : List Lexeme} (h : Viable (lexemes ++ more)) :
    Viable lexemes := by
  obtain ⟨rest, x, hx⟩ := h
  exact ⟨more ++ rest, x, by rw [← List.append_assoc]; exact hx⟩

end Sigil.Grammar
