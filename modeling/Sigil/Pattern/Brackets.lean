import Sigil.Pattern.Escape

/-! # Sets in brackets

    A set in brackets lists characters, ranges, other sets, and sets in
    brackets of their own.  Operations stand between lists and are done
    from left to right.

    Sets are read with a stack.  A `SetLevel` is a set that is open: the
    operand and operation before the list being read, and the list so far.

    Key definition: `Layout.brackets`. -/

namespace Sigil.Pattern

/-- A set that is open. -/
structure SetLevel where
  /-- Where its bracket opens. -/
  start : Nat
  /-- From its bracket to where its list begins. -/
  opening : Stretch
  negated : Bool
  /-- What stands before the list being read. -/
  pending? : Option (SetForm × SetOperation)
  /-- Where the list being read begins. -/
  listStart : Nat
  /-- The list being read, the latest first. -/
  list : List SetForm

namespace SetLevel

/-- The level with one more part in its list. -/
def push (s : SetLevel) (x : SetForm) : SetLevel :=
  { s with list := x :: s.list }

/-- The list being read, as one set. -/
def listForm (s : SetLevel) : SetForm :=
  match s.list with
  | [] => .empty ⟨s.listStart, s.listStart⟩
  | [x] => x
  | last :: rest =>
    let parts := (last :: rest).reverse
    .union parts ⟨((parts.head?.map (·.place.start)).getD s.listStart), last.place.stop⟩

/-- All that is read of a level, as one set. -/
def form (s : SetLevel) : SetForm :=
  match s.pending? with
  | none => s.listForm
  | some (left, op) =>
    let right := s.listForm
    .combined op left right ⟨left.place.start, right.place.stop⟩

/-- The level after an operation, of which the next list begins at `start`. -/
def operate (s : SetLevel) (op : SetOperation) (start : Nat) : SetLevel :=
  { s with pending? := some (s.form, op), listStart := start, list := [] }

end SetLevel

/-- The operation that two characters are. -/
def operationOf? (a b : Char) : Option SetOperation :=
  if a != b then none
  else if a == '&' then some .intersection
  else if a == '-' then some .difference
  else if a == '~' then some .symmetricDifference
  else none

/-- A set with a name, as in `[:alpha:]`, if there is one. -/
def namedSet? (cs : List Char) : Option (NamedSet × Bool × List Char) :=
  match cs with
  | '[' :: ':' :: cs =>
    let (negated, cs) :=
      match cs with
      | '^' :: cs => (true, cs)
      | cs => (false, cs)
    match cs.dropWhile (· != ':') with
    | ':' :: ']' :: rest =>
      (NamedSet.ofName? (String.ofList (cs.takeWhile (· != ':')))).map fun s => (s, negated, rest)
    | _ => none
  | _ => none

namespace Layout

/-! ### Opening -/

/-- The hyphens at the head of a list, which stand for themselves; the latest
first. -/
def hyphens (l : Layout) : List Char → List SetForm × List Char
  | '-' :: cs =>
    let first := SetForm.letter ⟨'-', false, l.stretch ('-' :: cs) cs⟩
    let (more, rest) := hyphens l (l.skip cs)
    (more ++ [first], rest)
  | cs => ([], cs)
termination_by cs => cs.length
decreasing_by
  have := length_skip_le l cs
  simp only [List.length_cons]
  omega

/-- Open a set at the bracket at the head of `cs`. -/
def openSet (l : Layout) (cs : List Char) : Parsed (SetLevel × List Char) :=
  match l.skip cs.tail with
  | [] => l.refuse .unclosedSet cs []
  | c :: inner => do
    let negated := c == '^'
    let begun := if negated then l.skip inner else c :: inner
    if begun.isEmpty then l.refuse .unclosedSet cs []
    else
      let level (list : List SetForm) (rest : List Char) : SetLevel × List Char :=
        (⟨l.offset cs, l.stretch cs rest, negated, none, l.offset begun, list⟩, rest)
      match l.hyphens begun with
      | ([], ']' :: inner) =>
        let rest := l.skip inner
        if rest.isEmpty then l.refuse .unclosedSet cs []
        else pure (level [.letter ⟨']', false, l.stretch (']' :: inner) inner⟩] rest)
      | (_ :: _, []) => l.refuseBefore .unclosedSet cs
      | (list, rest) => pure (level list rest)

/-! ### Parts -/

/-- A character, an escape, or what stands in place of a character. -/
def setAtom (l : Layout) (cs : List Char) : Parsed (Form × List Char) :=
  match cs with
  | '\\' :: rest => l.escape rest
  | c :: rest => .ok (.letter ⟨c, false, l.stretch cs rest⟩, rest)
  | [] => l.refuseBefore .unclosedSet []

/-- A part of a set. -/
def member (x : Form) : Parsed SetForm :=
  match x with
  | .letter c => .ok (.letter c)
  | .shorthand k negated place => .ok (.shorthand k negated place)
  | .property p place => .ok (.property p place)
  | x => .error (.fault .escapeInSet x.place none)

/-- An end of a range. -/
def bound (x : Form) : Parsed Letter :=
  match x with
  | .letter c => .ok c
  | x => .error (.fault .rangeOfSets x.place none)

/-- A part of the list of `level`: a range if a hyphen follows its first
character, unless the hyphen ends the list or begins an operation. -/
def setPart (l : Layout) (level : SetLevel) (cs : List Char) : Parsed (SetForm × List Char) := do
  let unclosed : Parsed (SetForm × List Char) :=
    .error (.fault .unclosedSet level.opening none)
  let (first, rest) ← l.setAtom cs
  match l.skip rest with
  | [] => unclosed
  | c :: more =>
    if c != '-' || l.peek? more == some ']' || l.peek? more == some '-' then
      pure (← member first, c :: more)
    else
      match l.skip more with
      | [] => unclosed
      | second => do
        let (last, rest) ← l.setAtom second
        let place : Stretch := ⟨first.place.start, last.place.stop⟩
        let a ← bound first
        let b ← bound last
        if a.char ≤ b.char then pure (.range a b place, rest)
        else .error (.fault .reversedRange place none)

/-! ### Whole sets -/

/-- Read on until the outermost set closes.  Every step takes a character at
least, so that as many steps as there are characters suffice. -/
def readSet (l : Layout) :
    (steps : Nat) → SetLevel → (outer : List SetLevel) → List Char → Parsed (Form × List Char)
  | 0, level, _, _ => .error (.fault .unclosedSet level.opening none)
  | steps + 1, level, outer, cs =>
    match l.skip cs with
    | [] => .error (.fault .unclosedSet level.opening none)
    | ']' :: rest =>
      let place : Stretch := ⟨level.start, l.offset rest⟩
      match outer with
      | [] => .ok (.set level.negated level.form place, rest)
      | around :: outer =>
        l.readSet steps (around.push (.bracketed level.negated level.form place)) outer rest
    | '[' :: cs =>
      match namedSet? ('[' :: cs) with
      | some (s, negated, rest) =>
        l.readSet steps (level.push (.named s negated (l.stretch ('[' :: cs) rest))) outer rest
      | none => do
        let (inner, rest) ← l.openSet ('[' :: cs)
        l.readSet steps inner (level :: outer) rest
    | c :: cs =>
      match cs.head?.bind (operationOf? c) with
      | some op => l.readSet steps (level.operate op (l.offset cs.tail)) outer cs.tail
      | none => do
        let (x, rest) ← l.setPart level (c :: cs)
        l.readSet steps (level.push x) outer rest

/-- The set at the bracket at the head of `cs`. -/
def brackets (l : Layout) (cs : List Char) : Parsed (Form × List Char) := do
  let (level, rest) ← l.openSet cs
  l.readSet (cs.length + 1) level [] rest

end Layout

end Sigil.Pattern
