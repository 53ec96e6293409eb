import Sigil.Grammar.Descent

/-! # Defects and crashes

    Much can go wrong when trees of a descent are turned into an
    expression, on trees of another shape than the grammar gives them.  A
    `Defect` is a failure that is reported, a `Crash` one that ends the
    program: climbing that meets the wrong part, or a slice that is none. -/

namespace Sigil.Descent

/-- The name of a rule in the grammar. -/
def Rule.name : Rule → String
  | .endOfText => "EOI"
  | .symbol => "symbol"
  | .identifier => "identifier"
  | .literal => "string_literal"
  | .connective c => "op_" ++ c.name.toLower
  | .mark m => m.name.toLower
  | .input => "input"
  | .expression => "expression"
  | .group => "group"
  | .call => "symbol_call"
  | .arguments => "parameters"
  | .argument => "parameter"
  | .list => "array"

/-- What trees can lack. -/
inductive Defect where
  /-- There is no tree at all. -/
  | empty
  | missing (element : String)
  /-- A tree where an operand has to be. -/
  | noOperand (rule : Rule)
  /-- A tree where a value has to be. -/
  | noValue (rule : Rule)
  /-- A tree with this text where a connective has to be. -/
  | noConnective (text : String)
  /-- The text of a symbol that is none; no symbol could be made of it. -/
  | noSymbol (text : String)
  deriving DecidableEq

/-- The message for a defect. -/
def Defect.message : Defect → String
  | .empty => "empty parse result"
  | .missing element => "missing " ++ element
  | .noOperand r => "unsupported rule: " ++ r.name
  | .noValue r => "unsupported value rule: " ++ r.name
  | .noConnective text => "'" ++ text ++ "' is not an operator"
  | .noSymbol text => "'" ++ text ++ "' is not a valid symbol"

/-- Why the program ends. -/
inductive Crash where
  /-- Climbing comes to the end where an operand has to be. -/
  | noPart
  /-- Climbing meets a rule where an operand, or a sign before one, has to be. -/
  | notOperand (rule : Rule)
  /-- Climbing meets a rule behind an operand that is none of its table. -/
  | notInTable (rule : Rule)
  /-- Climbing meets a sign behind an operand that does not stand between two. -/
  | notBinary (rule : Rule)
  /-- A slice is taken that does not lie within the text, or that cuts a character. -/
  | slice
  deriving DecidableEq

end Sigil.Descent
