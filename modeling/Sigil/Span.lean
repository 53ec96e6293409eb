/-! # Spans

    A span is a stretch of a text between two byte offsets. -/

namespace Sigil

/-- The bytes from `start` up to, and without, `stop`. -/
structure Span where
  start : Nat
  stop : Nat
  deriving DecidableEq, Repr

namespace Span

/-- The empty span at an offset. -/
def point (offset : Nat) : Span :=
  ⟨offset, offset⟩

/-- The number of bytes of a span; 0 when it ends before it starts. -/
def length (s : Span) : Nat :=
  s.stop - s.start

/-- Does a span hold no byte? -/
def isEmpty (s : Span) : Bool :=
  s.length == 0

/-- A span as `start..stop`. -/
def text (s : Span) : String :=
  s!"{s.start}..{s.stop}"

end Span

end Sigil
