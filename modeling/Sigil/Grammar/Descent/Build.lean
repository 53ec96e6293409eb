import Sigil.Expr
import Sigil.Fault
import Sigil.Grammar.Descent.Tree
import Sigil.Text.Slice

/-! # From trees to expressions

    The trees of a descent are turned into an expression.  Values,
    arguments and calls are taken off their trees one by one; the row of
    operands and connectives in an expression is folded by climbing, with a
    table in which every connective has its power.

    On trees of another shape this ends in a defect, which is reported at
    the place of a tree, or in a crash.  Both are kept apart, since a defect
    inside an operand does not keep climbing from going on to a crash.

    Key definitions: `Descent.climb`, `Descent.build`. -/

namespace Sigil.Descent

/-! ### Failures -/

/-- What building comes to: a crash, a defect at its place, or a result. -/
abbrev Build (α : Type) : Type :=
  ExceptT Refusal (Except Crash) α

namespace Build

/-- End in a defect. -/
def fail {α : Type} (d : Defect) (span : Span) : Build α :=
  throw ⟨.defect d, span⟩

/-- End in a crash. -/
def crash {α : Type} (c : Crash) : Build α :=
  .mk (.error c)

end Build

/-! ### Climbing -/

/-- The rules of the connectives, each with its side and its power.  Every connective
binds a step of ten more strongly than the one before it. -/
def table : List (Rule × Grouping × Nat) :=
  Connective.all.foldl
    (fun rows c => rows ++ [(.connective c, c.grouping, 10 * (rows.length + 1))]) []

/-- A tree in an expression, and what is built of it as an operand. -/
structure Part where
  tree : Tree
  operand : Build Expr

/-- What climbing comes to in a row of `n` parts: an expression or a defect, and the parts
behind it. -/
structure Climbed (n : Nat) where
  value : Except Refusal Expr
  rest : List Part
  le : rest.length ≤ n

namespace Tree

/-- The connective that a tree stands for. -/
def connective (t : Tree) : Except Refusal Connective :=
  match t.rule with
  | .connective c => .ok c
  | _ => .error ⟨.defect (.noConnective t.text), t.span⟩

/-- An expression under the sign `t`. -/
def under (t : Tree) (x : Except Refusal Expr) : Except Refusal Expr := do
  let c ← t.connective
  pure (.unary c (← x))

/-- Two expressions with the sign `t` between them. -/
def between (t : Tree) (x y : Except Refusal Expr) : Except Refusal Expr := do
  let c ← t.connective
  pure (.binary c (← x) (← y))

end Tree

mutual

/-- Take an operand, perhaps behind signs, and what binds it more strongly than `bound`. -/
def climb (bound : Nat) : (parts : List Part) → Except Crash (Climbed (parts.length - 1))
  | [] => .error .noPart
  | part :: parts =>
    match table.lookup part.tree.rule with
    | none => do
      -- a defect of the operand is kept; only a crash ends the climb here
      let x ← part.operand.run
      let ⟨y, rest, le⟩ ← extend bound x parts
      pure ⟨y, rest, le⟩
    | some (.leading, power) => do
      let ⟨x, middle, short⟩ ← climb (power - 1) parts
      let ⟨y, rest, le⟩ ← extend bound (part.tree.under x) middle
      pure ⟨y, rest, Nat.le_trans le (Nat.le_trans short (Nat.sub_le _ _))⟩
    | some _ => .error (.notOperand part.tree.rule)
termination_by parts => parts.length

/-- Go on from `x` for as long as the next sign binds more strongly than `bound`. -/
def extend (bound : Nat) (x : Except Refusal Expr) :
    (parts : List Part) → Except Crash (Climbed parts.length)
  | [] => .ok ⟨x, [], Nat.le_refl _⟩
  | part :: parts =>
    match table.lookup part.tree.rule with
    | none => .error (.notInTable part.tree.rule)
    | some (side, power) =>
      if bound < power then
        -- to the left, an equal sign stops the climb behind this one; to the right it does not
        match side with
        | .leading => .error (.notBinary part.tree.rule)
        | .left => do
          let ⟨y, middle, short⟩ ← climb power parts
          let ⟨z, rest, le⟩ ← extend bound (part.tree.between x y) middle
          pure ⟨z, rest, by rw [List.length_cons]; omega⟩
        | .right => do
          let ⟨y, middle, short⟩ ← climb (power - 1) parts
          let ⟨z, rest, le⟩ ← extend bound (part.tree.between x y) middle
          pure ⟨z, rest, by rw [List.length_cons]; omega⟩
      else .ok ⟨x, part :: parts, Nat.le_refl _⟩
termination_by parts => parts.length

end

/-- The expression that a row of parts folds to. -/
def fold (parts : List Part) : Build Expr :=
  .mk ((climb 0 parts).map Climbed.value)

/-! ### Values and arguments -/

/-- A quoted text without its first and its last byte. -/
def unquoted (literal : String) : Build String :=
  match Text.slice? literal 1 (Text.width literal.toList - 1) with
  | some content => pure content
  | none => .crash .slice

/-- Is the rule one of the values'? -/
def Rule.isValue : Rule → Bool
  | .list | .literal | .identifier => true
  | _ => false

namespace Tree

mutual

/-- The value that a tree is. -/
def value : Tree → Build Value
  | .node r s span inner =>
    match r with
    | .literal => do pure (.text (← unquoted s))
    | .identifier => pure (.name s)
    | .list => do pure (.list (← values inner))
    | r => .fail (.noValue r) span

/-- The values among trees. -/
def values : List Tree → Build (List Value)
  | [] => pure []
  | t :: ts =>
    if t.rule.isValue then do
      let v ← value t
      let vs ← values ts
      pure (v :: vs)
    else values ts

end

/-- The name and the value of an argument, in what is inside its tree. -/
def argument (t : Tree) : Build (String × Value) :=
  match t.inner.filter fun u => u.rule != .mark .colon with
  | [] => .fail (.missing "parameter name") t.span
  | [_] => .fail (.missing "parameter value") t.span
  | key :: u :: _ => do pure (key.text, ← u.value)

/-- The arguments among trees, inserted after those before them. -/
def arguments (earlier : Arguments) : List Tree → Build Arguments
  | [] => pure earlier
  | t :: ts =>
    if t.rule = .argument then do
      let (key, v) ← argument t
      arguments (earlier.insert key v) ts
    else arguments earlier ts

/-- The symbol that a tree is, if it is one; `span` is the place of the call. -/
def symbol (span : Span) (t : Tree) : Build Symbol :=
  if t.rule = .symbol then
    match Symbol.parse? t.text with
    | some s => pure s
    | none => .fail (.noSymbol t.text) t.span
  else .fail (.missing "symbol") span

/-- The call of a symbol at its place, in what is inside its tree. -/
def call (span : Span) : (inner : List Tree) → Build Expr
  | [] => .fail (.missing "symbol") span
  | t :: rest => do
    let s ← t.symbol span
    match rest with
    | [] => pure (.call s .empty)
    | u :: _ => do pure (.call s (← arguments .empty u.inner))

/-! ### Expressions -/

mutual

/-- The expression that a tree is. -/
def expression : Tree → Build Expr
  | .node _ _ _ inner => fold (parts inner)

/-- The operand that a tree is. -/
def operand : Tree → Build Expr
  | .node r _ span inner =>
    match r with
    | .call => call span inner
    | .group => firstExpression "expression inside parentheses" span inner
    | r => .fail (.noOperand r) span

/-- The trees, each with what is built of it as an operand. -/
def parts : List Tree → List Part
  | [] => []
  | t :: ts => ⟨t, operand t⟩ :: parts ts

/-- The first expression among trees; without one, the element is missing at `span`. -/
def firstExpression (element : String) (span : Span) : List Tree → Build Expr
  | [] => .fail (.missing element) span
  | t :: ts => if t.rule = .expression then expression t else firstExpression element span ts

end

end Tree

/-- The expression in the first of the trees that a descent has found. -/
def build : List Tree → Build Expr
  | [] => .fail .empty (.point 0)
  | t :: _ => Tree.firstExpression "expression" (.point 0) t.inner

end Sigil.Descent
