import Sigil.Diagnostic
import Sigil.Doc.Json
import Sigil.Expr.Document
import Sigil.Expr.Parse
import Sigil.Expr.Trace
import Sigil.Text.Lines

/-! # Batches

    A batch is a text with one expression to a line.  A line ends at a line
    feed, perhaps with a carriage return before it, and the last one at the
    end of the text.  Blanks around an expression do not count; a line that
    is blank or begins with `#` is passed over, but it counts when lines are
    numbered.  Every other line gives one record, and a line that fails has
    no effect on the others.

    Key definitions: `Batch.entries`, `Batch.process`. -/

namespace Sigil

/-! ### Entries -/

/-- An expression of a batch, not yet read. -/
structure Batch.Entry where
  /-- The number of its line, from 1. -/
  line : Nat
  /-- The line without the blanks around it. -/
  text : String
  deriving DecidableEq

namespace Batch

/-- Is the line, without the blanks around it, passed over? -/
def isSkipped (line : String) : Bool :=
  line.toList.head?.all (· == '#')

/-- The entries among `lines`, the first of which has the number `number`. -/
def entriesFrom (number : Nat) : List String → List Entry
  | [] => []
  | line :: rest =>
    let text := Text.trim line
    if isSkipped text then entriesFrom (number + 1) rest
    else ⟨number, text⟩ :: entriesFrom (number + 1) rest

/-- The entries of a batch, in order. -/
def entries (text : String) : List Entry :=
  entriesFrom 1 (Text.terminatedLines text)

/-! ### Records -/

/-- What became of an entry. -/
structure Record where
  entry : Entry
  outcome : Except Refusal Expr

/-- Read the expression of an entry. -/
def Entry.process (e : Entry) : Record :=
  ⟨e, Expr.parse e.text⟩

/-- The records of a batch, in the order of its lines. -/
def process (text : String) : List Record :=
  (entries text).map Entry.process

namespace Record

def isSuccess (r : Record) : Bool :=
  match r.outcome with
  | .ok _ => true
  | .error _ => false

/-- A record as a document. -/
def toDoc (r : Record) : Doc :=
  .record <|
    [("line", .number r.entry.line), ("expression", .text r.entry.text)]
      ++ match r.outcome with
        | .ok x =>
          [("status", .text "success"), ("parsed_result", x.toDoc),
            ("executed_result", .text x.trace)]
        | .error refusal =>
          let diagnostic := refusal.diagnose (.inline r.entry.text)
          [("status", .text "error"), ("error_kind", .text diagnostic.kind.name),
            ("message", .text diagnostic.sentence)]

/-- A record as one line of text. -/
def line (r : Record) : String :=
  Doc.Json.compact r.toDoc

end Record

/-- The number of records that tell a failure. -/
def failures (records : List Record) : Nat :=
  records.countP fun r => !r.isSuccess

end Batch

end Sigil
