import Sigil.Pattern.Parse
import Sigil.Text.Blank
import Sigil.Text.Lines
import Sigil.Text.Listing
import Sigil.Text.Visible

/-! # The log

    What the program does is told by events.  An event has a severity and
    a target, the part of the program that it comes from, and a filter
    decides which events are shown.

    A filter is a list of directives, and maybe a pattern.  A directive
    sets the least severe level that is shown, for the targets that begin
    with its name, or for all targets when it has no name.  Of the
    directives that apply to a target the one with the longest name counts;
    where none applies, nothing is shown.  Where there is a pattern, it has
    to occur in the message.

    An event is shown as a terminal would show it, without control
    characters and sequences.

    Key definitions: `Event.text`, `Filter.ofSpec`, `Filter.shows`,
    `logText`. -/

namespace Sigil.Cli

/-! ### Events -/

/-- How severe an event is. -/
inductive Severity where
  | error
  | warn
  | info
  | debug
  | trace
  deriving DecidableEq, Repr

namespace Severity

/-- The place among the severities, the most severe first. -/
def rank : Severity → Nat
  | .error => 1
  | .warn => 2
  | .info => 3
  | .debug => 4
  | .trace => 5

/-- The name of a severity, padded to one width. -/
def label : Severity → String
  | .error => "ERROR"
  | .warn => "WARN "
  | .info => "INFO "
  | .debug => "DEBUG"
  | .trace => "TRACE"

end Severity

/-- The part of the program that an event comes from. -/
inductive Target where
  | cli
  | lexer
  | parser
  | engine
  deriving DecidableEq, Repr

/-- The name of a target. -/
def Target.name : Target → String
  | .cli => "aifl::cli"
  | .lexer => "aifl::syntax::lexer"
  | .parser => "aifl::syntax::parser"
  | .engine => "aifl::engine"

/-- Something that the program tells about what it does. -/
structure Event where
  severity : Severity
  target : Target
  message : String
  deriving DecidableEq

/-- An event as it is written.  The lines of its message after the first are
indented. -/
def Event.record (e : Event) : String :=
  "[" ++ e.severity.label ++ " " ++ e.target.name ++ "] "
    ++ String.intercalate "\n    " (Text.lines e.message) ++ "\n"

/-- An event as it is shown.  Each is shown on its own: a control sequence that
is open at its end, and may have taken the end of its line, does not reach
into the next. -/
def Event.text (e : Event) : String :=
  Text.visible e.record

/-! ### Limits -/

/-- The least severe level that is shown; `none` shows nothing. -/
abbrev Limit := Option Severity

namespace Limit

/-- Is an event of this severity shown? -/
def admits (limit : Limit) (s : Severity) : Bool :=
  limit.any fun least => s.rank ≤ least.rank

/-- The limit with a name, in whatever case it is written. -/
def ofString? (s : String) : Option Limit :=
  match String.ofList (s.toList.map Char.toLower) with
  | "off" => some none
  | "error" => some (some .error)
  | "warn" => some (some .warn)
  | "info" => some (some .info)
  | "debug" => some (some .debug)
  | "trace" => some (some .trace)
  | _ => none

end Limit

/-! ### Filters -/

/-- A limit for the targets that begin with a name, or for all of them. -/
structure Directive where
  name : Option String
  limit : Limit
  deriving DecidableEq

namespace Directive

/-- Does the directive apply to a target? -/
def applies (d : Directive) (target : String) : Bool :=
  d.name.all fun name => name.toList.isPrefixOf target.toList

/-- The length of the name. -/
def reach (d : Directive) : Nat :=
  d.name.elim 0 String.length

/-- Read a directive: a limit for all targets, a name with the limit `trace`,
or a name and a limit.  What is neither is given back. -/
def ofString (s : String) : Except String Directive :=
  match s.splitOn "=" with
  | [word] =>
    match Limit.ofString? word with
    | some limit => .ok ⟨none, limit⟩
    | none => .ok ⟨some word, some .trace⟩
  | [name, word] =>
    let word := Text.trim word
    if word.isEmpty then .ok ⟨some name, some .trace⟩
    else
      match Limit.ofString? word with
      | some limit => .ok ⟨some name, limit⟩
      | none => .error word
  | _ => .error s

end Directive

/-- Which events are shown: directives, no two with the same name, and a
pattern for the message. -/
structure Filter where
  directives : List Directive
  pattern? : Option Pattern

/-- What is wrong with a specification. -/
inductive Note where
  /-- A word is not a limit, or a directive is nothing at all. -/
  | unreadable (part : String)
  /-- There is more than one pattern. -/
  | manyPatterns (spec : String)
  | badPattern (text : String) (refusal : Pattern.Refusal)

/-- The wording of a note. -/
def Note.text (n : Note) : String :=
  let cause :=
    match n with
    | .unreadable part => "invalid logging spec '" ++ part ++ "'"
    | .manyPatterns spec => "invalid logging spec '" ++ spec ++ "' (too many '/'s)"
    | .badPattern text refusal => "invalid regex filter - " ++ refusal.report text
  "warning: " ++ cause ++ ", ignoring it"

namespace Filter

/-- Neither a directive nor a pattern. -/
def empty : Filter :=
  ⟨[], none⟩

/-- Put a directive in place of the one with its name, or at the end. -/
def putIn (d : Directive) : List Directive → List Directive
  | [] => [d]
  | d' :: ds => if d'.name = d.name then d :: ds else d' :: putIn d ds

/-- The filter with one more directive. -/
def insert (f : Filter) (d : Directive) : Filter :=
  { f with directives := putIn d f.directives }

/-- The directive that counts for a target. -/
def governing? (f : Filter) (target : String) : Option Directive :=
  (f.directives.filter fun d => d.applies target).foldl
    (fun best? d =>
      if best?.all fun best => best.reach ≤ d.reach then some d else best?)
    none

/-- Is the event shown? -/
def shows (f : Filter) (e : Event) : Bool :=
  (f.governing? e.target.name).any (fun d => Limit.admits d.limit e.severity)
    && f.pattern?.all (·.occursIn e.message)

/-- The filter of directives between commas, with a note for each one that
cannot be read. -/
def ofDirectives (text : String) : Filter × List Note :=
  (text.splitOn ",").foldl
    (fun (f, notes) part =>
      let part := Text.trim part
      if part.isEmpty then (f, notes)
      else
        match Directive.ofString part with
        | .ok d => (f.insert d, notes)
        | .error bad => (f, notes ++ [.unreadable bad]))
    (empty, [])

/-- The filter that a text sets up: directives, and a pattern after a slash.
What cannot be read is left out, with a note. -/
def ofSpec (spec : String) : Filter × List Note :=
  match spec.splitOn "/" with
  | [directives] => ofDirectives directives
  | [directives, text] =>
    let (f, notes) := ofDirectives directives
    match Pattern.parse text with
    | .ok p => ({ f with pattern? := some p }, notes)
    | .error refusal => (f, notes ++ [.badPattern text refusal])
  | _ => (empty, [.manyPatterns spec])

/-- What is shown when nothing is set up. -/
def defaultSpec : String := "warn"

/-- The limit for all targets that a more verbose log asks for. -/
def verbose? : (verbosity : Nat) → Option Severity
  | 0 => none
  | 1 => some .info
  | 2 => some .debug
  | _ => some .trace

/-- The filter for a specification and a verbosity.  Verbosity goes before what
the specification says of all targets.  When no directive is left, errors are
shown. -/
def setUp (spec : Option String) (verbosity : Nat) : Filter × List Note :=
  let (f, notes) := ofSpec (spec.getD defaultSpec)
  let f :=
    match verbose? verbosity with
    | none => f
    | some severity => f.insert ⟨none, some severity⟩
  (if f.directives.isEmpty then f.insert ⟨none, some .error⟩ else f, notes)

end Filter

/-! ### The log as text -/

/-- The log of a run: notes on the filter, then the events that it shows. -/
def logText (spec : Option String) (verbosity : Nat) (events : List Event) : String :=
  let (f, notes) := Filter.setUp spec verbosity
  String.join (notes.map (·.text ++ "\n")) ++ String.join ((events.filter f.shows).map Event.text)

end Sigil.Cli
