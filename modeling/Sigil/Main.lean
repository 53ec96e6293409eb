import Sigil.Cli.CommandLine
import Sigil.Cli.Run

/-! # The program

    The command line, the files and streams around it, and nothing else:
    what is done with them is `Cli.parse` and `Cli.runOn`. -/

namespace Sigil.Main

open Sigil.Cli

/-- How the program is called. -/
def usageText : String :=
  "usage: aifl [-v]... [--color auto|always|never] <command>\n"
    ++ "  ast [--format json|yaml] [--compact] [<expression> | -f <file>]\n"
    ++ "  execute [<expression> | -f <file>]\n"
    ++ "  tokens [<expression> | -f <file>]\n"
    ++ "  check [<expression> | -f <file>]\n"
    ++ "  batch <file>"

/-- What is said when the command line asks for no run. -/
def usageNote : Usage → String
  | .help => usageText
  | .version => "aifl 0.1.0"
  | .nothingAsked => usageText
  | .missingCommand => "error: a command is missing\n" ++ usageText
  | .unknownCommand => "error: unknown command\n" ++ usageText
  | .unknownArgument => "error: unknown argument\n" ++ usageText
  | .invalidValue => "error: an option has no valid value\n" ++ usageText
  | .conflict => "error: arguments cannot be used together\n" ++ usageText
  | .missingArgument => "error: an argument is missing\n" ++ usageText
  | .superfluousValue => "error: an option takes no value\n" ++ usageText

/-- A diagnostic as lines of text, its code first. -/
def reportLines (d : Diagnostic) : List String :=
  [d.kind.code, "  " ++ d.message]
    ++ (d.source?.bind fun s => d.span?.map fun span => s!"  at {s.name}:{span.text}").toList
    ++ (d.cause?.map fun cause => "  cause: " ++ cause).toList
    ++ (d.advice?.map fun advice => "  help: " ++ advice).toList

/-- All bytes of a stream. -/
partial def readStream (stream : IO.FS.Stream) (sofar : ByteArray) : IO ByteArray := do
  let chunk ← stream.read 65536
  if chunk.isEmpty then pure sofar else readStream stream (sofar ++ chunk)

/-- What a channel holds. -/
def readChannel : Channel → IO (Except String ByteArray)
  | .file path => do
    try
      let bytes ← IO.FS.readBinFile path
      pure (.ok bytes)
    catch e => pure (.error (toString e))
  | .stdin => do
    try
      let bytes ← readStream (← IO.getStdin) .empty
      pure (.ok bytes)
    catch e => pure (.error (toString e))

/-- The console on which the program runs. -/
def findConsole : IO Console := do
  let inputIsTerminal ← (← IO.getStdin).isTty
  let outputIsTerminal ← (← IO.getStdout).isTty
  pure (.ofEnvironment inputIsTerminal outputIsTerminal (← IO.getEnv "TERM")
    (← IO.getEnv "NO_COLOR"))

/-- Run with options and tell the outcome. -/
def runWith (o : Options) : IO UInt32 := do
  let console ← findConsole
  let held ←
    match o.command.channel? with
    | some channel =>
      if channel.isTerminal console then pure (.ok .empty) else readChannel channel
    | none => pure (.ok .empty)
  let outcome := Cli.runOn console o fun _ => held
  IO.eprint (logText (← IO.getEnv "RUST_LOG") o.verbosity outcome.events)
  IO.print outcome.output
  if let some d := outcome.report then
    for line in reportLines d do
      IO.eprintln line
  pure (UInt32.ofNat outcome.status)

end Sigil.Main

/-- The program `aifl`. -/
def main (args : List String) : IO UInt32 :=
  match Sigil.Cli.parse args with
  | .ok o => Sigil.Main.runWith o
  | .error u => do
    let note := Sigil.Main.usageNote u
    if u.isRequest then IO.println note else IO.eprintln note
    pure (UInt32.ofNat u.status)
