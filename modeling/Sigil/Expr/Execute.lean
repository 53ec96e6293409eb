import Sigil.Expr.Parse
import Sigil.Expr.Trace

/-! # Executing a text

    To execute a text is to read it and to trace the expression; a text
    that cannot be read is refused as it stands.  Processing keeps the
    expression beside its trace. -/

namespace Sigil

namespace Expr

/-- The trace of the expression that a text is. -/
def execute (text : String) : Except Refusal String :=
  (parse text).map trace

/-- The expression that a text is, with its trace. -/
def process (text : String) : Except Refusal (Expr × String) :=
  (parse text).map fun x => (x, x.trace)

end Expr

end Sigil
