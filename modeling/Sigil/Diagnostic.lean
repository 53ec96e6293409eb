import Sigil.Fault

/-! # Diagnostics

    What a user is told about a failure.  A diagnostic is either about a
    place in a text, and then it can carry advice, or about the world
    around the program: an input that cannot be read or an output that
    cannot be written, with the cause that was given for it.

    Every diagnostic has a kind, and its code and the first words of its
    sentence follow from the kind. -/

namespace Sigil

/-! ### Kinds -/

/-- The kind of a diagnostic. -/
inductive Kind where
  /-- A fault in a text, by the stage that found it. -/
  | fault (stage : Stage)
  /-- An input cannot be read. -/
  | input
  /-- An output cannot be written. -/
  | output
  deriving DecidableEq, Repr

namespace Kind

/-- The name of a kind. -/
def name : Kind → String
  | .fault .lexical => "lex"
  | .fault .grammatical => "syntax"
  | .fault .semantic => "semantic_violation"
  | .input => "io"
  | .output => "format"

/-- What a sentence about a failure of this kind begins with. -/
def heading : Kind → String
  | .fault .lexical => "Lex error: "
  | .fault .grammatical => "Syntax error: "
  | .fault .semantic => "Semantic violation: "
  | .input => "I/O error: "
  | .output => "Format error: "

/-- The code of a kind. -/
def code (k : Kind) : String :=
  "aifl::" ++ k.name

end Kind

/-! ### Sources -/

/-- A text and the name under which it is reported. -/
structure Source where
  name : String
  text : String
  deriving DecidableEq

namespace Source

/-- A text that was given directly. -/
def inline (text : String) : Source :=
  ⟨"expression", text⟩

/-- A text that was given as a symbol. -/
def symbol (text : String) : Source :=
  ⟨"symbol", text⟩

end Source

/-! ### Diagnostics -/

/-- What a user is told about a failure. -/
inductive Diagnostic where
  /-- A failure at a place in a text. -/
  | inText (stage : Stage) (message : String) (source : Source) (span : Span)
      (advice : Option String)
  /-- An input that cannot be read. -/
  | onInput (message cause : String)
  /-- An output that cannot be written. -/
  | onOutput (message cause : String)
  deriving DecidableEq

namespace Diagnostic

def kind : Diagnostic → Kind
  | .inText stage .. => .fault stage
  | .onInput .. => .input
  | .onOutput .. => .output

/-- The message, without the heading of its kind. -/
def message : Diagnostic → String
  | .inText _ message .. | .onInput message _ | .onOutput message _ => message

/-- The whole sentence. -/
def sentence (d : Diagnostic) : String :=
  d.kind.heading ++ d.message

def span? : Diagnostic → Option Span
  | .inText _ _ _ span _ => some span
  | .onInput .. | .onOutput .. => none

def source? : Diagnostic → Option Source
  | .inText _ _ source .. => some source
  | .onInput .. | .onOutput .. => none

def advice? : Diagnostic → Option String
  | .inText _ _ _ _ advice => advice
  | .onInput .. | .onOutput .. => none

def cause? : Diagnostic → Option String
  | .inText .. => none
  | .onInput _ cause | .onOutput _ cause => some cause

/-- The stretch of text that is underlined, with the words under it. -/
def label? (d : Diagnostic) : Option (String × Span) :=
  d.span?.map fun span => (d.message, span)

/-- The diagnostic with other advice.  Only one about a text carries any. -/
def withAdvice (d : Diagnostic) (advice : String) : Diagnostic :=
  match d with
  | .inText stage message source span _ => .inText stage message source span (some advice)
  | d => d

end Diagnostic

/-- What a user is told about the refusal of a text. -/
def Refusal.diagnose (r : Refusal) (source : Source) : Diagnostic :=
  .inText r.fault.stage r.fault.message source r.span r.fault.advice

end Sigil
