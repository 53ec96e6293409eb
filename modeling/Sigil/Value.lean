import Sigil.Text.Listing

/-! # Argument values

    An argument of a symbol is a quoted text, a bare name, or an ordered
    list of values.  A value has two written forms: `written` is how it
    stands in an expression, `plain` how it stands in a trace, where the
    quotes are gone. -/

namespace Sigil

/-- The value of an argument. -/
inductive Value where
  /-- A quoted text, without its quotes. -/
  | text (content : String)
  /-- A bare name. -/
  | name (identifier : String)
  /-- Values in order, in brackets. -/
  | list (items : List Value)

namespace Value

/-! ### Equality -/

mutual

/-- Are two values the same? -/
def decEq : (v w : Value) → Decidable (v = w)
  | .text s, .text t =>
    decidable_of_iff (s = t) ⟨congrArg text, text.inj⟩
  | .name s, .name t =>
    decidable_of_iff (s = t) ⟨congrArg name, name.inj⟩
  | .list vs, .list ws =>
    have := decEqItems vs ws
    decidable_of_iff (vs = ws) ⟨congrArg list, list.inj⟩
  | .text _, .name _ | .text _, .list _ | .name _, .text _ | .name _, .list _
  | .list _, .text _ | .list _, .name _ => isFalse nofun

/-- Are two lists of values the same? -/
def decEqItems : (vs ws : List Value) → Decidable (vs = ws)
  | [], [] => isTrue rfl
  | [], _ :: _ | _ :: _, [] => isFalse nofun
  | v :: vs, w :: ws =>
    have := decEq v w
    have := decEqItems vs ws
    decidable_of_iff (v = w ∧ vs = ws) (by simp)

end

instance : DecidableEq Value := decEq

/-! ### Parts -/

/-- The text of a quoted text or a name. -/
def scalar? : Value → Option String
  | .text s | .name s => some s
  | .list _ => none

/-- The items of a list. -/
def items? : Value → Option (List Value)
  | .list vs => some vs
  | .text _ | .name _ => none

/-- What sort of value this is, in a word. -/
def sort : Value → String
  | .text _ => "string"
  | .name _ => "identifier"
  | .list _ => "array"

/-! ### Written forms -/

/-- A quoted text as it stands in an expression.  There are no escapes, so
the quote is the one that the text does not hold; a text that holds `"` and
`'` has no faithful form and gets `"`. -/
def quoted (content : String) : String :=
  if content.toList.contains '\'' then "\"" ++ content ++ "\""
  else "'" ++ content ++ "'"

mutual

/-- A value as it stands in an expression. -/
def written : Value → String
  | .text s => quoted s
  | .name s => s
  | .list vs => "[" ++ Text.commaSeparated (writtenItems vs) ++ "]"

/-- Each of several values as it stands in an expression. -/
def writtenItems : List Value → List String
  | [] => []
  | v :: vs => written v :: writtenItems vs

end

mutual

/-- A value as it stands in a trace: without quotes. -/
def plain : Value → String
  | .text s | .name s => s
  | .list vs => "[" ++ Text.commaSeparated (plainItems vs) ++ "]"

/-- Each of several values as it stands in a trace. -/
def plainItems : List Value → List String
  | [] => []
  | v :: vs => plain v :: plainItems vs

end

theorem plainItems_eq_map (vs : List Value) : plainItems vs = vs.map plain := by
  induction vs with
  | nil => rfl
  | cons v vs ih => rw [plainItems, ih, List.map_cons]

end Value

end Sigil
