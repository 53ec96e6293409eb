import Sigil.Expr
import Sigil.Token

/-! # Reading an expression

    Expressions are read token by token with a stack.  A `Reading` says
    where in an expression we are: the groups that are open, in each of
    them the operands that wait for a tighter connective to be done, and
    the site, which tells what may come next.  Each lexeme moves the
    reading on or does not fit; nothing is ever taken back.

    How connectives group is decided when the next one is seen: waiting
    operands are joined as long as their connective takes its operand
    before the new one (`Connective.takesBefore`).  At the end of a group
    everything that waits is joined.

    Key definitions: `Reading.step`, `Reading.run`, `Reading.result?`. -/

namespace Sigil

/-! ### Groups -/

/-- A group being read, up to the operand that comes next. -/
structure Group where
  /-- Operands with the connective after each, the latest first.  From the
  latest to the earliest, no connective takes its operand before the one
  after it. -/
  waiting : List (Expr × Connective)
  /-- Has a `¬` been read for the operand that comes next? -/
  negated : Bool

namespace Group

/-- A group of which nothing is read. -/
def fresh : Group :=
  ⟨[], false⟩

/-- The operand `x`, under the `¬` before it if there is one. -/
def negate (g : Group) (x : Expr) : Expr :=
  if g.negated then .unary .not x else x

/-- Join `x` with the waiting operands whose connective takes it before
`next`. -/
def join (next : Connective) : List (Expr × Connective) → Expr → List (Expr × Connective) × Expr
  | [], x => ([], x)
  | (left, c) :: waiting, x =>
    if c.takesBefore next then join next waiting (.binary c left x)
    else ((left, c) :: waiting, x)

/-- The group after the operand `x` and the binary connective `c`. -/
def push (g : Group) (x : Expr) (c : Connective) : Group :=
  let (waiting, left) := join c g.waiting (g.negate x)
  ⟨(left, c) :: waiting, false⟩

/-- The expression that the group is, when it ends with the operand `x`. -/
def close (g : Group) (x : Expr) : Expr :=
  g.waiting.foldl (fun right w => .binary w.2 w.1 right) (g.negate x)

end Group

/-! ### Sites -/

/-- An argument being read: its name is known and its value is not. -/
structure Slot where
  symbol : Symbol
  /-- The arguments before this one. -/
  earlier : Arguments
  /-- The name of this argument. -/
  key : String
  /-- The lists that are open around the next value, the innermost first;
  of each, the items so far, the latest first. -/
  lists : List (List Value)

/-- The place within a group. -/
inductive Site where
  /-- An operand has to begin, or a `¬` before one. -/
  | operand
  /-- After a symbol, whose arguments may follow. -/
  | called (symbol : Symbol)
  /-- After an operand to which nothing can be added. -/
  | complete (operand : Expr)
  /-- The name of an argument has to come. -/
  | name (symbol : Symbol) (earlier : Arguments)
  /-- After the name of an argument. -/
  | named (symbol : Symbol) (earlier : Arguments) (key : String)
  /-- A value has to begin. -/
  | value (slot : Slot)
  /-- After the opening of a list; `slot` holds the lists around it. -/
  | opened (slot : Slot)
  /-- After an item of a list; `slot` holds the lists around it. -/
  | listed (slot : Slot) (items : List Value)
  /-- After an argument. -/
  | filled (symbol : Symbol) (arguments : Arguments)

namespace Slot

/-- The site after the value `v`: in the innermost open list, or after the
argument when no list is open. -/
def fill (s : Slot) (v : Value) : Site :=
  match s.lists with
  | [] => .filled s.symbol (s.earlier.insert s.key v)
  | items :: lists => .listed { s with lists } (v :: items)

/-- The slot inside a list of which `items` are read, the latest first. -/
def within (s : Slot) (items : List Value) : Slot :=
  { s with lists := items :: s.lists }

/-- The site after a lexeme with which a value begins. -/
def begin? (s : Slot) : Lexeme → Option Site
  | .identifier name => some (s.fill (.name name))
  | .literal _ content => some (s.fill (.text content))
  | .mark .openBracket => some (.opened s)
  | _ => none

end Slot

/-! ### Readings -/

/-- A place in an expression, with all that is read so far. -/
structure Reading where
  /-- The innermost open group. -/
  group : Group
  /-- The groups around it, the innermost first. -/
  outer : List Group
  /-- The place within the innermost group. -/
  site : Site

namespace Reading

/-- Nothing is read. -/
def start : Reading :=
  ⟨.fresh, [], .operand⟩

/-- The reading after the operand `x` and a lexeme that ends it: a binary
connective, or the end of the innermost group. -/
def afterOperand (r : Reading) (x : Expr) : Lexeme → Option Reading
  | .connective c =>
    if c.isUnary then none else some { r with group := r.group.push x c, site := .operand }
  | .mark .closeParen =>
    match r.outer with
    | [] => none
    | group :: outer => some ⟨group, outer, .complete (r.group.close x)⟩
  | _ => none

/-- The reading after one more lexeme, if the lexeme fits. -/
def step (r : Reading) (l : Lexeme) : Option Reading :=
  match r.site, l with
  | .operand, .symbol s => some { r with site := .called s }
  | .operand, .connective .not =>
    if r.group.negated then none
    else some { r with group := { r.group with negated := true } }
  | .operand, .mark .openParen => some ⟨.fresh, r.group :: r.outer, .operand⟩
  | .operand, _ => none
  | .called s, .mark .openParen => some { r with site := .name s .empty }
  | .called s, l => r.afterOperand (.call s .empty) l
  | .complete x, l => r.afterOperand x l
  | .name s earlier, .identifier key => some { r with site := .named s earlier key }
  | .name .., _ => none
  | .named s earlier key, .mark .colon =>
    some { r with site := .value ⟨s, earlier, key, []⟩ }
  | .named .., _ => none
  | .value slot, l => (slot.begin? l).map fun site => { r with site }
  | .opened slot, .mark .closeBracket => some { r with site := slot.fill (.list []) }
  | .opened slot, l => ((slot.within []).begin? l).map fun site => { r with site }
  | .listed slot items, .mark .comma => some { r with site := .value (slot.within items) }
  | .listed slot items, .mark .closeBracket =>
    some { r with site := slot.fill (.list items.reverse) }
  | .listed .., _ => none
  | .filled s arguments, .mark .comma => some { r with site := .name s arguments }
  | .filled s arguments, .mark .closeParen =>
    some { r with site := .complete (.call s arguments) }
  | .filled .., _ => none

/-- The operand that has just been read, if one has. -/
def operand? (r : Reading) : Option Expr :=
  match r.site with
  | .called s => some (.call s .empty)
  | .complete x => some x
  | _ => none

/-- The expression that has been read, if the text may end here. -/
def result? (r : Reading) : Option Expr :=
  match r.outer with
  | [] => r.operand?.map r.group.close
  | _ :: _ => none

/-! ### Runs -/

/-- Where a reading of tokens came to its end. -/
structure Halt where
  /-- The tokens that fitted. -/
  passed : List Token
  /-- The reading after them. -/
  reading : Reading
  /-- The first token that did not fit, and those after it. -/
  rest : List Token

/-- Read tokens for as long as they fit. -/
def run (r : Reading) : List Token → Halt
  | [] => ⟨[], r, []⟩
  | token :: rest =>
    match r.step token.lexeme with
    | none => ⟨[], r, token :: rest⟩
    | some r' =>
      let halt := r'.run rest
      { halt with passed := token :: halt.passed }

/-- A run loses no token. -/
theorem passed_append_rest (r : Reading) (tokens : List Token) :
    (r.run tokens).passed ++ (r.run tokens).rest = tokens := by
  induction tokens generalizing r with
  | nil => rfl
  | cons token rest ih =>
    rw [run]
    split
    · rfl
    · next r' _ => simpa using ih r'

end Reading

end Sigil
