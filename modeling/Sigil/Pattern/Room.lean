import Sigil.Pattern

/-! # The room that a pattern takes

    A pattern can be laid out as a machine with a state for each byte that
    it waits for and for each fork.  A repetition with counts is laid out
    that many times, so a short text can ask for a very large machine.
    `Pattern.room` tells how much it takes without laying it out.

    Sets beyond ASCII are reckoned as if they were all of Unicode or one
    run of two-byte characters, whichever is nearer.

    Key definition: `Pattern.room`. -/

namespace Sigil

namespace CharSet

/-- The one character of a set that is written with one. -/
def single? : CharSet → Option Char
  | .range first last => if first = last then some first else none
  | _ => none

/-- Does the set hold ASCII characters only, by the way it is built? -/
def isAscii : CharSet → Bool
  | .empty => true
  | .range _ last => last.toNat < 0x80
  | .union a b | .symmDiff a b => a.isAscii && b.isAscii
  | .inter a b => a.isAscii || b.isAscii
  | .diff a _ => a.isAscii
  | .compl _ => false
  | .anyCase a => a.isAscii

/-- The number of ranges of which a set is built. -/
def rangeCount : CharSet → Nat
  | .empty => 0
  | .range _ _ => 1
  | .union a b | .symmDiff a b | .inter a b | .diff a b => a.rangeCount + b.rangeCount
  | .compl a => a.rangeCount + 1
  | .anyCase a => 2 * a.rangeCount

/-- Is a complement among the parts of a set? -/
def hasCompl : CharSet → Bool
  | .empty | .range _ _ => false
  | .union a b | .symmDiff a b | .inter a b | .diff a b => a.hasCompl || b.hasCompl
  | .compl _ => true
  | .anyCase a => a.hasCompl

end CharSet

namespace Pattern

/-- The bytes that a state takes. -/
def stateRoom : Nat := 32

/-- Does the pattern fit empty stretches only, by the way it is built? -/
def isVoid : Pattern → Bool
  | .empty | .look _ => true
  | .one _ => false
  | .seq p q | .either p q => p.isVoid && q.isVoid
  | .repeated p _ most => p.isVoid || most = some 0
  | .captured p => p.isVoid

/-- Can the pattern fit an empty stretch, by the way it is built? -/
def canBeVoid : Pattern → Bool
  | .empty | .look _ => true
  | .one _ => false
  | .seq p q => p.canBeVoid && q.canBeVoid
  | .either p q => p.canBeVoid || q.canBeVoid
  | .repeated p least _ => p.canBeVoid || least = 0
  | .captured p => p.canBeVoid

/-- The room of a set of characters. -/
def setRoom (s : CharSet) : Nat :=
  match s.single? with
  | some c => c.utf8Size * stateRoom
  | none =>
    if s.isAscii then 2 * stateRoom + 8 * s.rangeCount
    else if s.hasCompl then 1000
    else 2 * stateRoom + 136 * s.rangeCount

/-- The bytes that a pattern takes. -/
def room : Pattern → Nat
  | .empty | .look _ => stateRoom
  | .one s => setRoom s
  | .seq p q => p.room + q.room
  | .either p q => p.room + q.room + stateRoom + 4
  | .captured p => p.room + 2 * stateRoom
  | .repeated p least most =>
    let fork := stateRoom + 8
    let once := p.room
    let cap (n : Nat) : Nat := if p.isVoid then min n 1 else n
    let least := cap least
    match most.map cap with
    | some most =>
      if most = least then max stateRoom (least * once)
      else least * once + stateRoom + (most - least) * (once + fork)
    | none =>
      if least = 0 && p.canBeVoid then once + 2 * fork + stateRoom
      else max 1 least * once + fork

end Pattern

end Sigil
