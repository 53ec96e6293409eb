import Sigil.Pattern.Form
import Sigil.Pattern.Layout

/-! # Escapes in a pattern

    A backslash takes its meaning from the characters after it.  Before a
    character that is neither a letter nor a digit it has that character
    stand for itself; before some letters it begins a code, a set, a
    property, or something that is asked of a place.

    Key definition: `Layout.escape`. -/

namespace Sigil.Pattern

/-- Does `c` stand for itself after a backslash? -/
def standsForItself (c : Char) : Bool :=
  c.toNat < 0x80 && !c.isAlphanum && c != '<' && c != '>'

/-- The control character that a letter stands for after a backslash. -/
def controlOf? : Char → Option Char
  | 'a' => some '\x07'
  | 'f' => some '\x0C'
  | 't' => some '\t'
  | 'n' => some '\n'
  | 'r' => some '\r'
  | 'v' => some '\x0B'
  | _ => none

/-- The set that a letter stands for after a backslash; a capital gives the
complement. -/
def shorthandOf? (c : Char) : Option (Shorthand × Bool) :=
  match c with
  | 'd' => some (.digit, false)
  | 's' => some (.blank, false)
  | 'w' => some (.word, false)
  | 'D' => some (.digit, true)
  | 'S' => some (.blank, true)
  | 'W' => some (.word, true)
  | _ => none

/-- What a character asks of a place after a backslash. -/
def lookOf? : Char → Option LookForm
  | 'A' => some .textStart
  | 'z' => some .textEnd
  | 'b' => some .wordEdge
  | 'B' => some .noWordEdge
  | '<' => some .wordStart
  | '>' => some .wordEnd
  | _ => none

/-- The number of digits of a code without braces. -/
def codeLength? : Char → Option Nat
  | 'x' => some 2
  | 'u' => some 4
  | 'U' => some 8
  | _ => none

/-- The value of a hexadecimal digit. -/
def hexDigit? (c : Char) : Option Nat :=
  if '0' ≤ c && c ≤ '9' then some (c.toNat - '0'.toNat)
  else if 'a' ≤ c && c ≤ 'f' then some (c.toNat - 'a'.toNat + 10)
  else if 'A' ≤ c && c ≤ 'F' then some (c.toNat - 'A'.toNat + 10)
  else none

/-- The character with a code in hexadecimal digits. -/
def charOfCode? (digits : List Char) : Option Char :=
  let n := digits.foldl (fun n c => 16 * n + (hexDigit? c).getD 0) 0
  if n.isValidChar then some (Char.ofNat n) else none

namespace Layout

/-! ### Codes -/

/-- `n` hexadecimal digits. -/
def codeDigits (l : Layout) : Nat → List Char → Parsed (List Char × List Char)
  | 0, cs => .ok ([], cs)
  | _ + 1, [] => l.refuseBefore .unfinishedEscape []
  | n + 1, c :: cs => do
    if (hexDigit? c).isNone then l.refuseHead .badCodeDigit (c :: cs)
    else
      let (digits, rest) ← l.codeDigits n (l.skip cs)
      pure (c :: digits, rest)

/-- A code of as many digits as its letter asks for, or in braces.  `whole` is
the escape from its backslash on, and `cs` follows its letter. -/
def code (l : Layout) (length : Nat) (whole cs : List Char) : Parsed (Form × List Char) :=
  match l.skip cs with
  | [] => l.refuseBefore .unfinishedEscape []
  | '{' :: inner =>
    match l.collect (fun c => (hexDigit? c).isSome) (l.skip inner) with
    | (_, []) => l.refuse .unfinishedEscape ('{' :: inner) []
    | (digits, '}' :: outer) =>
      let rest := l.skip outer
      if digits.isEmpty then l.refuse .emptyCode ('{' :: inner) rest
      else
        match charOfCode? digits with
        | none => l.refuse .noCharacter inner ('}' :: outer)
        | some c => .ok (.letter ⟨c, false, l.stretch whole rest⟩, rest)
    | (_, bad) => l.refuseHead .badCodeDigit bad
  | first => do
    let (digits, rest) ← l.codeDigits length first
    match charOfCode? digits with
    | none => l.refuse .noCharacter first rest
    | some c => pure (.letter ⟨c, length == 2, l.stretch whole rest⟩, rest)

/-! ### Properties -/

/-- A property, by a letter or by a name in braces. -/
def property (l : Layout) (whole cs : List Char) : Parsed (Form × List Char) :=
  match l.skip cs with
  | [] => l.refuseBefore .unfinishedEscape []
  | '{' :: inner =>
    match l.collect (· != '}') (l.skip inner) with
    | (name, _ :: rest) =>
      let p : Property := ⟨String.ofList name, name.contains '=' || name.contains ':'⟩
      .ok (.property p (l.stretch whole rest), rest)
    | (_, []) => l.refuseBefore .unfinishedEscape []
  | c :: cs =>
    if c == '\\' then l.refuseHead .unknownProperty (c :: cs)
    else
      let rest := l.skip cs
      .ok (.property ⟨String.singleton c, false⟩ (l.stretch whole rest), rest)

/-! ### Edges of words -/

/-- Can `c` stand in the name of an edge? -/
def isEdgeChar (c : Char) : Bool :=
  c.isAlpha || c == '-'

/-- The edge with a name. -/
def edgeOfName? (name : List Char) : Option LookForm :=
  match String.ofList name with
  | "start" => some .wordStart
  | "end" => some .wordEnd
  | "start-half" => some .noWordBefore
  | "end-half" => some .noWordAfter
  | _ => none

/-- An edge of words, which may have a name in braces.  Braces that do not hold
a name are left: they count a repetition. -/
def wordEdge (l : Layout) (whole cs : List Char) : Parsed (Form × List Char) :=
  let nameless := (Form.look .wordEdge (l.stretch whole cs), cs)
  match cs with
  | '{' :: inner =>
    match l.skip inner with
    | [] => l.refuse .unfinishedWordEdge whole []
    | c :: contents =>
      if isEdgeChar c then
        match l.collect isEdgeChar (c :: contents) with
        | (name, '}' :: rest) =>
          match edgeOfName? name with
          | some edge => .ok (.look edge (l.stretch whole rest), rest)
          | none => l.refuse .unknownWordEdge (c :: contents) ('}' :: rest)
        | (_, bad) => l.refuse .unclosedWordEdge cs bad
      else .ok nameless
  | _ => .ok nameless

/-! ### All escapes -/

/-- An escape; `cs` follows its backslash. -/
def escape (l : Layout) (cs : List Char) : Parsed (Form × List Char) :=
  let whole := '\\' :: cs
  match cs with
  | [] => l.refuse .unfinishedEscape whole []
  | c :: rest =>
    let place := l.stretch whole rest
    if c.isDigit then l.refuse .backReference whole rest
    else if standsForItself c then .ok (.letter ⟨c, false, place⟩, rest)
    else if c == 'p' || c == 'P' then l.property whole rest
    else if c == 'b' then l.wordEdge whole rest
    else
      match codeLength? c, shorthandOf? c, controlOf? c, lookOf? c with
      | some length, _, _, _ => l.code length whole rest
      | _, some (k, negated), _, _ => .ok (.shorthand k negated place, rest)
      | _, _, some control, _ => .ok (.letter ⟨control, false, place⟩, rest)
      | _, _, _, some asked => .ok (.look asked place, rest)
      | _, _, _, _ => l.refuse .unknownEscape whole rest

end Layout

end Sigil.Pattern
