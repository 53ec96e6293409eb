import Sigil.Pattern.Form

/-! # What the form of a pattern means

    Forms are read from left to right.  A change of settings holds up to the
    end of the group that it stands in, through all of its alternatives.

    With `unicode`, a character stands for itself and a set may be any set
    of characters; what would need a table of properties is refused: the
    shorthands, the properties, and letters in any case.  Without it, sets
    are of ASCII characters, and so are the cases of a letter; a set that
    goes beyond ASCII would fit a part of a character and is refused.

    Key definition: `Form.meaning`. -/

namespace Sigil.Pattern

/-! ### Settings -/

/-- The settings at a place of a form. -/
structure Settings where
  anyCase : Bool
  manyLines : Bool
  dotIsAny : Bool
  unicode : Bool
  crlf : Bool

/-- The settings at the beginning. -/
def Settings.initial : Settings :=
  ⟨false, false, false, true, false⟩

/-- The settings after changes. -/
def Settings.after (s : Settings) (changes : Changes) : Settings :=
  ⟨changes.get .anyCase s.anyCase, changes.get .manyLines s.manyLines,
    changes.get .dotIsAny s.dotIsAny, changes.get .unicode s.unicode, changes.get .crlf s.crlf⟩

/-- A meaning, or why there is none. -/
abbrev Meant := Except Refusal

/-- A form has no meaning because of a fault at a stretch. -/
def refused {α : Type} (f : Fault) (place : Stretch) : Meant α :=
  .error (.fault f place none)

/-! ### Properties -/

/-- The name of a property as it is looked up: in small letters, without
blanks, hyphens, underscores, and without `is` before it. -/
def Property.key (p : Property) : List Char :=
  let kept (cs : List Char) : List Char :=
    (cs.filter fun c => c.toNat < 0x80 && c != ' ' && c != '_' && c != '-').map Char.toLower
  match p.name.toList with
  | a :: b :: cs =>
    if a.toLower == 'i' && b.toLower == 's' then
      let rest := kept cs
      if rest == ['c'] then ['i', 's', 'c'] else rest
    else kept (a :: b :: cs)
  | cs => kept cs

/-- Why a property is refused.  Three names are of values and not of
properties. -/
def Property.fault (p : Property) : Fault :=
  if !p.isPair && (p.key == ['c', 'f'] || p.key == ['s', 'c'] || p.key == ['l', 'c']) then
    .noSuchPropertyValue
  else .noSuchProperty

/-! ### Sets -/

namespace Settings

/-- A set with its cases, and then its complement if it is negated. -/
def closed (s : Settings) (negated : Bool) (place : Stretch) (set : CharSet) : Meant CharSet :=
  if s.unicode then
    if s.anyCase then refused .noCaseTable place
    else pure (if negated then .compl set else set)
  else if negated then refused .splitsCharacter place
  else pure (if s.anyCase then .anyCase set else set)

/-- The character of a letter in a set. -/
def member (s : Settings) (l : Letter) : Meant Char :=
  if s.unicode || l.char.toNat < 0x80 then pure l.char
  else if l.isByte then refused .splitsCharacter l.place
  else refused .beyondAscii l.place

/-- The set of a shorthand. -/
def shorthand (s : Settings) (k : Shorthand) (negated : Bool) (place : Stretch) :
    Meant CharSet :=
  if s.unicode then refused .noSetTable place
  else if negated then refused .splitsCharacter place
  else pure (.ofRanges k.ranges)

/-- The set of a property. -/
def property (s : Settings) (p : Property) (place : Stretch) : Meant CharSet :=
  refused (if s.unicode then p.fault else .beyondAscii) place

/-- An operand of an operation on sets, with its cases. -/
def operand (s : Settings) (place : Stretch) (set : CharSet) : Meant CharSet :=
  if s.anyCase && set != .empty then s.closed false place set else pure set

/-- What an operation makes of two sets. -/
def combined (op : SetOperation) (a b : CharSet) : CharSet :=
  match op with
  | .intersection => .inter a b
  | .difference => .diff a b
  | .symmetricDifference => .symmDiff a b

end Settings

mutual

/-- The set that a form means. -/
def SetForm.meaning (s : Settings) : SetForm → Meant CharSet
  | .empty _ => pure .empty
  | .letter l => do pure (.single (← s.member l))
  | .range first last _ => do pure (.range (← s.member first) (← s.member last))
  | .named set negated place => s.closed negated place (.ofRanges set.ranges)
  | .property p place => s.property p place
  | .shorthand k negated place => s.shorthand k negated place
  | .bracketed negated inner place => do s.closed negated place (← inner.meaning s)
  | .union parts _ => SetForm.unionMeaning s parts
  | .combined op left right _ => do
    let a ← left.meaning s
    let b ← right.meaning s
    let b ← s.operand right.place b
    let a ← s.operand left.place a
    pure (Settings.combined op a b)

/-- The union of the sets that forms mean. -/
def SetForm.unionMeaning (s : Settings) : List SetForm → Meant CharSet
  | [] => pure .empty
  | x :: xs => do
    let a ← x.meaning s
    pure (.union a (← SetForm.unionMeaning s xs))

end

/-! ### Patterns -/

namespace Settings

/-- The pattern of a letter. -/
def letter (s : Settings) (l : Letter) : Meant Pattern :=
  if s.unicode then
    if s.anyCase then refused .noCaseTable l.place else pure (.letter l.char)
  else if l.isByte && 0x80 ≤ l.char.toNat then refused .splitsCharacter l.place
  else if s.anyCase && l.char.isAlpha then pure (.one (.anyCase (.single l.char)))
  else pure (.letter l.char)

/-- The pattern of a dot. -/
def dot (s : Settings) (place : Stretch) : Meant Pattern :=
  if !s.unicode then refused .splitsCharacter place
  else if s.dotIsAny then pure (.one (.compl .empty))
  else if s.crlf then pure (.one (.compl (.union (.single '\r') (.single '\n'))))
  else pure (.one (.compl (.single '\n')))

/-- What is asked of a place, and whether it is about words. -/
def look (s : Settings) : LookForm → Look × Bool
  | .start => (if s.manyLines then .lineStart s.crlf else .textStart, false)
  | .stop => (if s.manyLines then .lineEnd s.crlf else .textEnd, false)
  | .textStart => (.textStart, false)
  | .textEnd => (.textEnd, false)
  | .wordEdge => (.wordEdge, true)
  | .noWordEdge => (.noWordEdge, true)
  | .wordStart => (.wordStart, true)
  | .wordEnd => (.wordEnd, true)
  | .noWordBefore => (.noWordBefore, true)
  | .noWordAfter => (.noWordAfter, true)

end Settings

/-- What is known after a form: its pattern, the settings for what follows,
and whether it asks for edges of words that are told by a table. -/
structure Meaning where
  pattern : Pattern
  settings : Settings
  needsWordTable : Bool

/-- The meaning of a form that leaves the settings alone. -/
def Settings.leaf (s : Settings) (p : Pattern) : Meaning :=
  ⟨p, s, false⟩

mutual

/-- What a form means.  What is repeated no times at all asks for nothing. -/
def Form.meaning (s : Settings) : Form → Meant Meaning
  | .empty _ => pure (s.leaf .empty)
  | .settings changes _ => pure ((s.after changes).leaf .empty)
  | .letter l => do pure (s.leaf (← s.letter l))
  | .dot place => do pure (s.leaf (← s.dot place))
  | .look l _ =>
    let (l, ofWords) := s.look l
    pure ⟨.look l, s, ofWords && s.unicode⟩
  | .property p place => do pure (s.leaf (.one (← s.property p place)))
  | .shorthand k negated place => do pure (s.leaf (.one (← s.shorthand k negated place)))
  | .set negated inner place => do
    pure (s.leaf (.one (← s.closed negated place (← inner.meaning s))))
  | .repeated x least most _ => do
    let m ← x.meaning s
    if most = some 0 then pure (m.settings.leaf .empty)
    else pure { m with pattern := .repeated m.pattern least most }
  | .group none x _ => do
    let m ← x.meaning s
    pure { m with pattern := .captured m.pattern, settings := s }
  | .group (some changes) x _ => do
    let m ← x.meaning (s.after changes)
    pure { m with settings := s }
  | .sequence xs _ => do
    let (ps, after, needed) ← Form.meanings s xs
    pure ⟨.ofSequence ps, after, needed⟩
  | .alternatives xs _ => do
    let (ps, after, needed) ← Form.meanings s xs
    pure ⟨.ofAlternatives ps, after, needed⟩

/-- What forms mean one after the other. -/
def Form.meanings (s : Settings) : List Form → Meant (List Pattern × Settings × Bool)
  | [] => pure ([], s, false)
  | x :: xs => do
    let m ← x.meaning s
    let (ps, after, needed) ← Form.meanings m.settings xs
    pure (m.pattern :: ps, after, m.needsWordTable || needed)

end

end Sigil.Pattern
