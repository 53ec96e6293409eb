import Sigil.Cli.Options

/-! # Reading the command line

    A command line is read from left to right on two levels: before the
    name of the command, and after it.  On each level an argument is an
    option, the value of the option before it, or an operand; after `--`
    it is an operand in any case.  The first mistake met is reported.

    The value of an option is looked at when the next argument of the
    level has been accepted, or when the level ends, so a mistake in an
    argument can be met before one in a value to the left of it.  What the
    arguments of a level mean together is looked at last.

    Key definition: `Cli.parse`. -/

namespace Sigil.Cli

/-! ### Names -/

/-- The name of a command. -/
inductive Name where
  | ast
  | execute
  | tokens
  | check
  | batch
  deriving DecidableEq, Repr

/-- The command with a name. -/
def Name.ofString? : String → Option Name
  | "ast" => some .ast
  | "execute" => some .execute
  | "tokens" => some .tokens
  | "check" => some .check
  | "batch" => some .batch
  | _ => none

/-- The name that asks for help in the place of a command. -/
def helpName : String := "help"

/-- An option without a value. -/
inductive Flag where
  | verbose
  | compact
  | help
  | version
  deriving DecidableEq, Repr

/-- An option with a value. -/
inductive Setting where
  | color
  | format
  | file
  deriving DecidableEq, Repr

/-- An option. -/
inductive Switch where
  | flag (flag : Flag)
  | setting (setting : Setting)
  deriving DecidableEq, Repr

/-- Where on the command line we are: before the name of the command, or
after it. -/
abbrev Scope := Option Name

namespace Scope

/-- Can an expression be given, in place or as a file? -/
def takesExpression : Scope → Bool
  | none | some .batch => false
  | some _ => true

/-- The option with a long name. -/
def long? (scope : Scope) : String → Option Switch
  | "verbose" => some (.flag .verbose)
  | "color" => some (.setting .color)
  | "help" => some (.flag .help)
  | "version" => if scope = none then some (.flag .version) else none
  | "file" => if takesExpression scope then some (.setting .file) else none
  | "format" => if scope = some .ast then some (.setting .format) else none
  | "compact" => if scope = some .ast then some (.flag .compact) else none
  | _ => none

/-- The option with a short name. -/
def short? (scope : Scope) : Char → Option Switch
  | 'v' => some (.flag .verbose)
  | 'h' => some (.flag .help)
  | 'V' => if scope = none then some (.flag .version) else none
  | 'f' => if takesExpression scope then some (.setting .file) else none
  | _ => none

end Scope

/-! ### One level -/

/-- What has been accepted on a level. -/
structure Given where
  verbosity : Nat
  color : Option ColorMode
  format : Option Format
  compact : Bool
  file : Option String
  operand : Option String

/-- An argument whose value has not been looked at. -/
inductive Pending where
  /-- A setting whose value has not come yet. -/
  | awaiting (setting : Setting)
  /-- A setting with its value. -/
  | valued (setting : Setting) (value : String)
  /-- An operand. -/
  | operand (value : String)

/-- A level, read so far. -/
structure Level where
  given : Given
  pending : Option Pending
  /-- Has an operand come? -/
  hasOperand : Bool

namespace Given

/-- Nothing accepted. -/
def nothing : Given :=
  ⟨0, none, none, false, none, none⟩

/-- The greatest number of `-v` that is told from smaller ones. -/
def maxVerbosity : Nat := 255

def color? : String → Option ColorMode
  | "auto" => some .auto
  | "always" => some .always
  | "never" => some .never
  | _ => none

def format? : String → Option Format
  | "json" => some .json
  | "yaml" => some .yaml
  | _ => none

/-- A path, which cannot be empty. -/
def path? (value : String) : Option String :=
  if value.isEmpty then none else some value

/-- A setting that may come once gets its value. -/
def once {α : Type} (old : Option α) (value? : Option α) (set : α → Given) :
    Except Usage Given :=
  if old.isSome then .error .conflict
  else
    match value? with
    | some value => .ok (set value)
    | none => .error .invalidValue

/-- Give a setting its value. -/
def set (g : Given) (setting : Setting) (value : String) : Except Usage Given :=
  match setting with
  | .color => once g.color (color? value) fun c => { g with color := some c }
  | .format => once g.format (format? value) fun f => { g with format := some f }
  | .file => once g.file (path? value) fun p => { g with file := some p }

/-- Raise a flag. -/
def raise (g : Given) : Flag → Except Usage Given
  | .verbose => .ok { g with verbosity := min (g.verbosity + 1) maxVerbosity }
  | .compact => if g.compact then .error .conflict else .ok { g with compact := true }
  | .help => .error .help
  | .version => .error .version

/-- Take an operand.  For a batch it is a path. -/
def setOperand (g : Given) (scope : Scope) (value : String) : Except Usage Given :=
  if scope = some .batch ∧ value.isEmpty then .error .invalidValue
  else .ok { g with operand := some value }

end Given

namespace Level

/-- A level of which nothing is read. -/
def start : Level :=
  ⟨.nothing, none, false⟩

/-- Look at the value that is pending, if one is. -/
def settle (l : Level) (scope : Scope) : Except Usage Given :=
  match l.pending with
  | none => .ok l.given
  | some (.awaiting _) => .error .invalidValue
  | some (.valued setting value) => l.given.set setting value
  | some (.operand value) => l.given.setOperand scope value

/-- Raise a flag, after the value before it is settled. -/
def raise (l : Level) (scope : Scope) (flag : Flag) : Except Usage Level := do
  let given ← (← l.settle scope).raise flag
  pure { l with given, pending := none }

/-- Take a setting, with its value when that stands in the same argument. -/
def takeSetting (l : Level) (scope : Scope) (setting : Setting) (value? : Option String) :
    Except Usage Level := do
  let given ← l.settle scope
  match value? with
  | some value =>
    let given ← given.set setting value
    pure { l with given, pending := none }
  | none => pure { l with given, pending := some (.awaiting setting) }

/-- A long option: its name, then possibly `=` and a value. -/
def takeLong (l : Level) (scope : Scope) (body : List Char) : Except Usage Level :=
  let name := String.ofList (body.takeWhile (· != '='))
  let value? :=
    match body.dropWhile (· != '=') with
    | [] => none
    | _ :: value => some (String.ofList value)
  match scope.long? name, value? with
  | none, _ => .error .unknownArgument
  | some (.flag _), some _ => .error .superfluousValue
  | some (.flag flag), none => l.raise scope flag
  | some (.setting setting), value? => l.takeSetting scope setting value?

/-- Short options in one argument.  What follows one that takes a value is the
value, without an `=` before it. -/
def takeShorts (l : Level) (scope : Scope) : List Char → Except Usage Level
  | [] => .ok l
  | c :: rest =>
    match scope.short? c with
    | none => .error .unknownArgument
    | some (.flag flag) => do (← l.raise scope flag).takeShorts scope rest
    | some (.setting setting) =>
      l.takeSetting scope setting <|
        match rest with
        | [] => none
        | '=' :: value => some (String.ofList value)
        | value => some (String.ofList value)

/-- Take an argument as one or more options, or as the value of the option
before it; `none` when it is neither. -/
def takeOption (l : Level) (scope : Scope) (arg : String) : Except Usage (Option Level) :=
  match arg.toList with
  | '-' :: '-' :: body => (l.takeLong scope body).map some
  | '-' :: c :: body => (l.takeShorts scope (c :: body)).map some
  | _ =>
    match l.pending with
    | some (.awaiting setting) =>
      .ok (some { l with pending := some (.valued setting arg) })
    | _ => .ok none

/-- Take an argument as the operand of a command, of which there is one. -/
def takeOperand (l : Level) (scope : Scope) (arg : String) : Except Usage Level :=
  if l.hasOperand then .error .unknownArgument
  else do
    let given ← l.settle scope
    pure { given, pending := some (.operand arg), hasOperand := true }

end Level

/-! ### The level of a command -/

/-- Read the arguments after the name of a command. -/
def readCommand (name : Name) (l : Level) (operandsOnly : Bool) :
    List String → Except Usage Given
  | [] => l.settle (some name)
  | arg :: rest =>
    if arg = "--" ∧ operandsOnly = false then readCommand name l true rest
    else do
      let taken ← if operandsOnly then pure none else l.takeOption (some name) arg
      match taken with
      | some l => readCommand name l operandsOnly rest
      | none =>
        let l ← l.takeOperand (some name) arg
        readCommand name l operandsOnly rest

/-- The input that the arguments of a command name. -/
def Given.input (g : Given) : Except Usage Input :=
  match g.operand, g.file with
  | some _, some _ => .error .conflict
  | some expression, none => .ok (.inline expression)
  | none, some path => .ok (.channel (.file path))
  | none, none => .ok (.channel .stdin)

/-- The command that its arguments make up. -/
def Given.command (g : Given) : Name → Except Usage Command
  | .ast => do
    let input ← g.input
    pure (.single (.ast (g.format.getD .json) g.compact) input)
  | .execute => do pure (.single .execute (← g.input))
  | .tokens => do pure (.single .tokens (← g.input))
  | .check => do pure (.single .check (← g.input))
  | .batch =>
    match g.operand with
    | some path => .ok (.batch path)
    | none => .error .missingArgument

/-! ### The whole command line -/

/-- What `help` is asked about: the program, one of its commands, or
something that it does not know. -/
def readHelp : List String → Usage
  | [] => .help
  | [topic] =>
    if topic = helpName ∨ (Name.ofString? topic).isSome then .help else .unknownCommand
  | _ => .unknownCommand

/-- Read the arguments before the name of a command, and then the rest. -/
def readProgram (l : Level) (operandsOnly : Bool) : List String → Except Usage Options
  | [] => do
    let given ← l.settle none
    if given.verbosity = 0 ∧ given.color = none then .error .nothingAsked
    else .error .missingCommand
  | arg :: rest =>
    if arg = "--" ∧ operandsOnly = false then readProgram l true rest
    else do
      let taken ← if operandsOnly then pure none else l.takeOption none arg
      match taken with
      | some l => readProgram l operandsOnly rest
      | none =>
        let name? := Name.ofString? arg
        if operandsOnly then
          .error (if name?.isSome ∨ arg = helpName then .unknownArgument else .unknownCommand)
        else if arg = helpName then .error (readHelp rest)
        else
          match name? with
          | none => .error .unknownCommand
          | some name =>
            let inner ← readCommand name .start false rest
            let command ← inner.command name
            let outer ← l.settle none
            -- What is said after the name of the command goes before what is said in front.
            pure {
              command
              verbosity := if inner.verbosity = 0 then outer.verbosity else inner.verbosity
              color := (inner.color.or outer.color).getD .auto }

/-- What a command line asks for, or why it asks for nothing that can be
done. -/
def parse (args : List String) : Except Usage Options :=
  readProgram .start false args

end Sigil.Cli
