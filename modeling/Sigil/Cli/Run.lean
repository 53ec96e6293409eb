import Sigil.Batch
import Sigil.Cli.Ink
import Sigil.Cli.Log
import Sigil.Cli.Options
import Sigil.Expr.Render

/-! # Running a command

    A run turns options, and what its channel holds, into an outcome: the
    exit status, the output, the events, and the diagnostic of a failure.
    It does nothing to the world; that is left to the program around it.
    Whether the standard streams are terminals it is told by its console.

    A command on a single expression writes all of its output or none, and
    the expression is taken without the blanks at its end.  A batch writes
    a line for every record and fails, without a diagnostic, when one of
    its records tells a failure. -/

namespace Sigil.Cli

/-! ### Outcomes -/

/-- What a run comes to. -/
structure Outcome where
  output : String
  events : List Event
  /-- Did everything go well? -/
  success : Bool
  /-- What the user is told about the failure, if there is something. -/
  report : Option Diagnostic

namespace Outcome

/-- The exit status of a run. -/
def status (o : Outcome) : Nat :=
  if o.success then 0 else 1

/-- A run that fails and writes nothing. -/
def failed (events : List Event) (d : Diagnostic) : Outcome :=
  ⟨"", events, false, some d⟩

end Outcome

/-! ### Inputs -/

/-- What a channel holds: its bytes, or why they cannot be read. -/
abbrev World := Channel → Except String ByteArray

namespace Channel

/-- The name under which the text of a channel is reported. -/
def sourceName : Channel → String
  | .file path => path
  | .stdin => "<stdin>"

/-- The message when a channel cannot be read. -/
def failure : Channel → String
  | .file path => "cannot read '" ++ path ++ "'"
  | .stdin => "cannot read stdin"

/-- The text of a channel.  A terminal is not read. -/
def receive (c : Channel) (console : Console) (world : World) : Except Diagnostic Source :=
  if c.isTerminal console then
    .error (.onInput "no expression given; pass one as an argument or with --file"
      "stdin is a terminal")
  else
    match world c with
    | .error cause => .error (.onInput c.failure cause)
    | .ok bytes =>
      match String.fromUTF8? bytes with
      | some text => .ok ⟨c.sourceName, text⟩
      | none => .error (.onInput c.failure "invalid UTF-8")

end Channel

/-- The text of an input. -/
def Input.receive (i : Input) (console : Console) (world : World) : Except Diagnostic Source :=
  match i with
  | .inline expression => .ok (.inline expression)
  | .channel c => c.receive console world

/-! ### Events -/

namespace Events

/-- Cutting a source into tokens. -/
def ofTokens (s : Source) : List Event :=
  match Token.readAll s.text with
  | .ok tokens => [⟨.trace, .lexer, s!"lexed {tokens.length} tokens from {s.name}"⟩]
  | .error _ => []

/-- Reading a source as an expression. -/
def ofParse (s : Source) : List Event :=
  [⟨.debug, .parser, s!"parsing {s.name}: {s.text}"⟩] ++ ofTokens s
    ++ match Expr.parse s.text with
      | .ok x => [⟨.debug, .parser, "parse result: " ++ x.canonical⟩]
      | .error refusal =>
        let d := refusal.diagnose s
        [⟨.debug, .engine, s.name ++ " failed to parse: " ++ d.sentence⟩]

/-- Tracing a source. -/
def ofTrace (s : Source) : List Event :=
  ofParse s
    ++ match Expr.parse s.text with
      | .ok x => [⟨.debug, .engine, "trace: " ++ x.trace⟩]
      | .error _ => []

/-- Receiving a source. -/
def ofReceipt (s : Source) : List Event :=
  [⟨.debug, .cli, s!"read {s.text.utf8ByteSize} bytes from {s.name}"⟩]

/-- Processing a batch. -/
def ofBatch (records : List Batch.Record) : List Event :=
  let failed := Batch.failures records
  records.flatMap (fun r => ofParse (.inline r.entry.text))
    ++ if failed = 0 then []
      else [⟨.warn, .engine, s!"{failed} of {records.length} expressions failed"⟩]

end Events

namespace Action

/-- The events of an action on a source. -/
def events (a : Action) (s : Source) : List Event :=
  match a with
  | .ast .. | .check => Events.ofParse s
  | .execute => Events.ofTrace s
  | .tokens => Events.ofTokens s

/-! ### Output -/

/-- The width of the column of token classes. -/
def kindWidth : Nat := 14

/-- A token on a line of its own: class, text, span. -/
def tokenLine (colored : Bool) (t : Token) : String :=
  Ink.boldCyan.paint colored (Text.padded kindWidth t.lexeme.kind) ++ " " ++ t.lexeme.text
    ++ Ink.dim.paint colored ("  " ++ t.span.text ++ "\n")

/-- The confirmation that an expression can be read. -/
def confirmation (colored : Bool) (x : Expr) : String :=
  Ink.boldGreen.paint colored "ok"
    ++ s!": {x.form} ({x.symbols.length} symbols, depth {x.depth})"

/-- What an action writes for a text. -/
def output (a : Action) (colored : Bool) (text : String) : Except Refusal String :=
  match a with
  | .ast format compact => do
    pure ((← Expr.parse text).render format compact ++ "\n")
  | .execute => do
    pure ((← Expr.parse text).trace ++ "\n")
  | .tokens => do
    pure (String.join ((← Token.readAll text).map (tokenLine colored)))
  | .check => do
    pure (confirmation colored (← Expr.parse text) ++ "\n")

/-- Do an action on a source. -/
def run (a : Action) (colored : Bool) (s : Source) : Outcome :=
  let trimmed : Source := { s with text := Text.trimEnd s.text }
  let events := Events.ofReceipt s ++ a.events trimmed
  match a.output colored trimmed.text with
  | .ok output => ⟨output, events, true, none⟩
  | .error refusal => .failed events (refusal.diagnose trimmed)

end Action

/-! ### Runs -/

/-- Process a batch. -/
def runBatch (text : String) : Outcome :=
  let records := Batch.process text
  ⟨String.join (records.map fun r => r.line ++ "\n"), Events.ofBatch records,
    Batch.failures records == 0, none⟩

/-- Do what the options ask for, on a console. -/
def runOn (console : Console) (o : Options) (world : World) : Outcome :=
  match o.command with
  | .single action input =>
    match input.receive console world with
    | .ok source => action.run (o.color.paints console) source
    | .error d => .failed [] d
  | .batch path =>
    match (Channel.file path).receive console world with
    | .ok source => runBatch source.text
    | .error d => .failed [] d

/-- Do what the options ask for, with pipes for the standard streams. -/
def run (o : Options) (world : World) : Outcome :=
  runOn .pipes o world

end Sigil.Cli
