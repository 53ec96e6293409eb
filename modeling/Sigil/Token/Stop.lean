import Sigil.Fault

/-! # Stops

    Tokens that are no expression are refused at a stop between two of them,
    the token before it and the one that is found there.  A connective
    without an operand is a fault of its own.  It is the token before the
    stop that lacks its operand when that is a connective and nothing
    follows that could begin one; else it is the token at the stop, when
    that is a binary connective where an operand has to begin.  Everything
    else is an unexpected token, or an unexpected end.

    Key definition: `Refusal.between`. -/

namespace Sigil

/-! ### Missing operands -/

namespace Lexeme

/-- Does the lexeme end the room for an operand? -/
def endsOperandRoom : Lexeme → Bool
  | .mark .closeParen | .mark .closeBracket | .mark .comma | .mark .colon => true
  | .connective c => !c.isUnary
  | _ => false

/-- Does the lexeme, or the start of the text, open the room for an operand? -/
def opensOperandRoom : Option Lexeme → Bool
  | none => true
  | some (.mark .openParen) | some (.connective _) => true
  | some _ => false

end Lexeme

namespace Token

/-- The connective before a stop, when nothing follows that could be its
operand. -/
def lacksOperand? (previous found : Option Token) : Option (Token × Connective) := do
  let token ← previous
  let c ← token.lexeme.connective?
  guard (found.all fun t => t.lexeme.endsOperandRoom)
  pure (token, c)

/-- The binary connective at a stop, when nothing stands before it that could
be its operand. -/
def lacksLeft? (previous found : Option Token) : Option (Token × Connective) := do
  let token ← found
  let c ← token.lexeme.connective?
  guard (!c.isUnary && Lexeme.opensOperandRoom (previous.map (·.lexeme)))
  pure (token, c)

end Token

/-! ### Refusals -/

/-- Why tokens are refused between `previous` and `found`, where something of `expected`
could stand, in a text of `length` bytes. -/
def Refusal.between (length : Nat) (previous found : Option Token)
    (expected : List Expectation) : Refusal :=
  match Token.lacksOperand? previous found with
  | some (token, c) => ⟨.missingOperand c, token.span⟩
  | none =>
    match Token.lacksLeft? previous found with
    | some (token, c) => ⟨.missingLeft c, token.span⟩
    | none =>
      ⟨.unexpected expected (found.map (·.lexeme)),
        (found.map (·.span)).getD (.point length)⟩

end Sigil
