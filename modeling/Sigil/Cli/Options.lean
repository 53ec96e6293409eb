import Sigil.Expr.Render

/-! # What the command line asks for

    The program has five commands.  Four of them take a single expression,
    from the command line itself, from a file, or from the standard input;
    the fifth takes a file with one expression to a line.  Two options go
    with every command: how much to log, and when to use colors. -/

namespace Sigil.Cli

/-! ### Inputs -/

/-- A source of bytes outside the program. -/
inductive Channel where
  | file (path : String)
  | stdin
  deriving DecidableEq, Repr

/-- Where a single expression comes from. -/
inductive Input where
  | inline (expression : String)
  | channel (channel : Channel)
  deriving DecidableEq, Repr

/-! ### Commands -/

/-- What to do with a single expression. -/
inductive Action where
  /-- Write it out as data. -/
  | ast (format : Format) (compact : Bool)
  /-- Write its trace. -/
  | execute
  /-- List its tokens. -/
  | tokens
  /-- Tell whether it can be read, and how large it is. -/
  | check
  deriving DecidableEq, Repr

/-- What the program is asked to do. -/
inductive Command where
  | single (action : Action) (input : Input)
  | batch (path : String)
  deriving DecidableEq, Repr

namespace Command

/-- The channel that the command reads from, if it does. -/
def channel? : Command → Option Channel
  | .single _ (.inline _) => none
  | .single _ (.channel c) => some c
  | .batch path => some (.file path)

end Command

/-! ### Consoles -/

/-- What the standard streams of the program are connected with. -/
structure Console where
  /-- Is the standard input a terminal? -/
  inputIsTerminal : Bool
  /-- Is the standard output a terminal? -/
  outputIsTerminal : Bool
  /-- Is the terminal one with colors, and are they not switched off? -/
  hasColors : Bool
  deriving DecidableEq, Repr

namespace Console

/-- The program stands between other programs. -/
def pipes : Console :=
  ⟨false, false, false⟩

/-- The console for the values of `TERM` and `NO_COLOR`, where they are set. -/
def ofEnvironment (inputIsTerminal outputIsTerminal : Bool) (term noColor : Option String) :
    Console where
  inputIsTerminal
  outputIsTerminal
  hasColors := term.any (· != "dumb") && noColor.isNone

end Console

/-- Is the channel a terminal, where someone would have to type? -/
def Channel.isTerminal (c : Channel) (console : Console) : Bool :=
  match c with
  | .file _ => false
  | .stdin => console.inputIsTerminal

/-! ### Options -/

/-- When to use colors. -/
inductive ColorMode where
  /-- When the output is a terminal that has colors. -/
  | auto
  | always
  | never
  deriving DecidableEq, Repr

namespace ColorMode

/-- Is the output colored? -/
def paints (mode : ColorMode) (console : Console) : Bool :=
  match mode with
  | .always => true
  | .auto => console.outputIsTerminal && console.hasColors
  | .never => false

end ColorMode

/-- All that the command line asks for. -/
structure Options where
  command : Command
  /-- How many times a more verbose log is asked for. -/
  verbosity : Nat
  color : ColorMode
  deriving DecidableEq, Repr

/-! ### Usage -/

/-- Why a command line gives no options to run with: a request for help or
for the version, or a mistake in it. -/
inductive Usage where
  | help
  | version
  /-- No arguments at all; help is shown instead. -/
  | nothingAsked
  | missingCommand
  | unknownCommand
  | unknownArgument
  /-- An option has a value that it cannot have, or lacks one. -/
  | invalidValue
  /-- An option comes twice, or two arguments exclude each other. -/
  | conflict
  | missingArgument
  /-- A value is given to an option that takes none. -/
  | superfluousValue
  deriving DecidableEq, Repr

namespace Usage

/-- Is this what was asked for, and not a mistake? -/
def isRequest : Usage → Bool
  | .help | .version => true
  | _ => false

/-- The exit status of a program that ends with a note on its usage. -/
def status (u : Usage) : Nat :=
  if u.isRequest then 0 else 2

end Usage

end Sigil.Cli
